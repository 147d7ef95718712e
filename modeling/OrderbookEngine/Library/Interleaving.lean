import OrderbookEngine.Library.Program

/-!
# Interleaved programs

Threads share a memory and run their programs one access at a time. A schedule
lists whose turn it is; every schedule is a run, and a turn of a thread that has
finished changes nothing.
-/

namespace OrderbookEngine

/-- The shared memory, and the program that each thread has still to run. -/
structure Threads (ι C α : Type) where
  mem : Memory C
  prog : ι → Prog C α

namespace Prog

variable {C α : Type}

/-- The program that a thread goes on with: what it returned may start another. -/
def resume (again : α → Option (Prog C α)) : Prog C α → Prog C α
  | done a => (again a).getD (done a)
  | access c op k => access c op k

@[simp] theorem resume_access (again : α → Option (Prog C α)) (c : C) (op : Op)
    (k : UInt64 → Prog C α) : (access c op k).resume again = access c op k := rfl

theorem resume_done {again : α → Option (Prog C α)} {a : α} (h : again a = none) :
    (done a : Prog C α).resume again = done a := by
  simp [resume, h]

end Prog

namespace Threads

variable {ι C α : Type} [DecidableEq ι] [DecidableEq C]

/-- The turn of a thread: its next access. -/
def step (again : ι → α → Option (Prog C α)) (s : Threads ι C α) (i : ι) : Threads ι C α :=
  match (s.prog i).resume (again i) with
  | .done _ => s
  | .access c op k => ⟨Prog.write s.mem c op, Function.update s.prog i (k (op.result (s.mem c)))⟩

/-- The system after the turns of a schedule. -/
def exec (again : ι → α → Option (Prog C α)) (s : Threads ι C α) (sched : List ι) :
    Threads ι C α :=
  sched.foldl (step again) s

variable {again : ι → α → Option (Prog C α)} {s : Threads ι C α} {i j : ι}

@[simp] theorem exec_nil (again : ι → α → Option (Prog C α)) (s : Threads ι C α) :
    exec again s [] = s := rfl

theorem exec_append (again : ι → α → Option (Prog C α)) (s : Threads ι C α)
    (sched sched' : List ι) :
    exec again s (sched ++ sched') = exec again (exec again s sched) sched' :=
  List.foldl_append

theorem step_of_done {a : α} (h : (s.prog i).resume (again i) = .done a) :
    step again s i = s := by
  rw [step, h]

theorem step_of_access {c : C} {op : Op} {k : UInt64 → Prog C α}
    (h : (s.prog i).resume (again i) = .access c op k) :
    step again s i =
      ⟨Prog.write s.mem c op, Function.update s.prog i (k (op.result (s.mem c)))⟩ := by
  rw [step, h]

/-- A turn changes the program of its own thread only. -/
theorem prog_step_of_ne (h : i ≠ j) : (step again s j).prog i = s.prog i := by
  unfold step
  split
  · rfl
  · exact Function.update_of_ne h _ _

end Threads

end OrderbookEngine
