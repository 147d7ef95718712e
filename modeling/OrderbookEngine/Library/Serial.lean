import Mathlib.Data.List.TakeWhile
import OrderbookEngine.Library.Program

/-!
# Serial runs

Programs that take turns on a memory note which words they have accessed and
whether they changed them. When no access meets a word that a later program of
some order has accessed, with a change by either, the run leaves what the
programs leave one after another in that order.
-/

namespace OrderbookEngine

/-- Programs that take turns, with the words that each has accessed and whether it
changed them. -/
structure Logged (ι C α : Type) where
  mem : Memory C
  prog : ι → Prog C α
  log : ι → List (C × Bool)

namespace Logged

open Prog

variable {ι C α : Type} [DecidableEq ι] [DecidableEq C]

/-- Whether an access changes its word. -/
def changes (op : Op) (value : UInt64) : Bool := op.newValue value ≠ value

/-- A turn: the next access, noted when its word is in `T`. -/
def step (T : C → Prop) [DecidablePred T] (s : Logged ι C α) (i : ι) : Logged ι C α :=
  match s.prog i with
  | .done _ => s
  | .access c op k =>
    { mem := write s.mem c op
      prog := Function.update s.prog i (k (op.result (s.mem c)))
      log := if T c then Function.update s.log i ((c, changes op (s.mem c)) :: s.log i)
        else s.log }

/-- The turns of a schedule. -/
def exec (T : C → Prop) [DecidablePred T] (s : Logged ι C α) (sched : List ι) :
    Logged ι C α :=
  sched.foldl (step T) s

/-- The next access of `i` meets no word of `T` that `j` has accessed, unless neither
changes it. -/
def Clear (T : C → Prop) (s : Logged ι C α) (i j : ι) : Prop :=
  ∀ c op k, s.prog i = .access c op k → T c → ∀ changed, (c, changed) ∈ s.log j →
    changed = false ∧ op.newValue (s.mem c) = s.mem c

/-- Whether the next access is clear is found by looking through the log. -/
instance (T : C → Prop) [DecidablePred T] (s : Logged ι C α) (i j : ι) :
    Decidable (Clear T s i j) :=
  match h : s.prog i with
  | .done _ => isTrue fun c op k hi => by rw [h] at hi; cases hi
  | .access c op k =>
    decidable_of_iff (T c → ∀ x ∈ s.log j, x.1 = c →
      x.2 = false ∧ op.newValue (s.mem c) = s.mem c) <| by
    constructor
    · intro hall c' op' k' hi hc changed hin
      rw [h] at hi
      cases hi
      exact hall hc _ hin rfl
    · intro hclear hc x hx he
      subst he
      exact hclear _ op k h hc x.2 hx

/-- Alike but for the words outside `T`. -/
structure Same (T : C → Prop) (s t : Logged ι C α) : Prop where
  mem : ∀ c, T c → s.mem c = t.mem c
  prog : s.prog = t.prog
  log : s.log = t.log

/-- Every program loads only words of `T`. -/
def LoadsIn (T : C → Prop) (s : Logged ι C α) : Prop :=
  ∀ i, (s.prog i).Every (fun c op => op = .load → T c) fun _ => True

section Same

omit [DecidableEq ι] [DecidableEq C]

variable {T : C → Prop} {s t : Logged ι C α}

theorem Same.refl (T : C → Prop) (s : Logged ι C α) : Same T s s :=
  ⟨fun _ _ => rfl, rfl, rfl⟩

theorem Same.trans {u : Logged ι C α} (h : Same T s t) (h' : Same T t u) : Same T s u :=
  ⟨fun c hc => (h.mem c hc).trans (h'.mem c hc), h.prog.trans h'.prog, h.log.trans h'.log⟩

end Same

variable {T : C → Prop} [DecidablePred T] {s t : Logged ι C α} {i j : ι}

section Steps

theorem step_of_done {a : α} (h : s.prog i = .done a) : step T s i = s := by
  rw [step, h]

theorem step_of_access {c : C} {op : Op} {k : UInt64 → Prog C α}
    (h : s.prog i = .access c op k) : step T s i =
      { mem := write s.mem c op
        prog := Function.update s.prog i (k (op.result (s.mem c)))
        log := if T c then Function.update s.log i ((c, changes op (s.mem c)) :: s.log i)
          else s.log } := by
  rw [step, h]

@[simp] theorem exec_nil (s : Logged ι C α) : exec T s [] = s := rfl

theorem exec_append (s : Logged ι C α) (sched sched' : List ι) :
    exec T s (sched ++ sched') = exec T (exec T s sched) sched' := List.foldl_append

theorem exec_snoc (s : Logged ι C α) (sched : List ι) (i : ι) :
    exec T s (sched ++ [i]) = step T (exec T s sched) i := exec_append ..

theorem exec_replicate_succ (s : Logged ι C α) (n : Nat) (j : ι) :
    exec T s (List.replicate (n + 1) j) = step T (exec T s (List.replicate n j)) j := by
  rw [List.replicate_succ', exec_snoc]

theorem prog_step_of_ne (h : i ≠ j) : (step T s j).prog i = s.prog i := by
  cases hj : s.prog j with
  | done a => rw [step_of_done hj]
  | access c op k =>
    rw [step_of_access hj]
    exact Function.update_of_ne h _ _

theorem log_step_of_ne (h : i ≠ j) : (step T s j).log i = s.log i := by
  cases hj : s.prog j with
  | done a => rw [step_of_done hj]
  | access c op k =>
    rw [step_of_access hj]
    dsimp only
    split
    · exact Function.update_of_ne h _ _
    · rfl

/-- Logs only grow. -/
theorem mem_log_step {x : C × Bool} (h : x ∈ s.log j) : x ∈ (step T s j).log j := by
  cases hj : s.prog j with
  | done a =>
    rw [step_of_done hj]
    exact h
  | access c op k =>
    rw [step_of_access hj]
    dsimp only
    split
    · rw [Function.update_self]
      exact List.mem_cons_of_mem _ h
    · exact h

theorem LoadsIn.step (h : LoadsIn T s) (j : ι) : LoadsIn T (step T s j) := by
  intro i
  cases hj : s.prog j with
  | done a =>
    rw [step_of_done hj]
    exact h i
  | access c op k =>
    by_cases hij : i = j
    · subst hij
      have hi := h i
      rw [hj] at hi
      rw [step_of_access hj]
      simp only [Function.update_self]
      exact hi.2 _
    · rw [prog_step_of_ne hij]
      exact h i

theorem LoadsIn.exec (h : LoadsIn T s) (sched : List ι) : LoadsIn T (exec T s sched) := by
  induction sched generalizing s with
  | nil => exact h
  | cons i sched ih => exact ih (h.step i)

/-- A turn keeps systems alike. -/
theorem Same.step (h : Same T s t) (hloads : LoadsIn T s) (i : ι) :
    Same T (step T s i) (step T t i) := by
  cases hi : s.prog i with
  | done a =>
    rw [step_of_done hi, step_of_done (h.prog ▸ hi)]
    exact h
  | access c op k =>
    have hload := hloads i
    rw [hi] at hload
    rw [step_of_access hi, step_of_access (h.prog ▸ hi)]
    refine ⟨write_congr h.mem c op, ?_, ?_⟩
    · rw [h.prog, result_congr_of_load h.mem hload.1]
    · rw [h.log]
      by_cases hc : T c
      · simp only [if_pos hc, h.mem c hc]
      · simp only [if_neg hc]

theorem Same.exec (h : Same T s t) (hloads : LoadsIn T s) (sched : List ι) :
    Same T (exec T s sched) (exec T t sched) := by
  induction sched generalizing s t with
  | nil => exact h
  | cons i sched ih => exact ih (h.step hloads i) (hloads.step i)

theorem prog_replicate_of_ne (hij : i ≠ j) (n : Nat) :
    (exec T s (List.replicate n j)).prog i = s.prog i := by
  induction n with
  | zero => rfl
  | succ n ih => rw [exec_replicate_succ, prog_step_of_ne hij, ih]

theorem log_replicate_of_ne (hij : i ≠ j) (n : Nat) :
    (exec T s (List.replicate n j)).log i = s.log i := by
  induction n with
  | zero => rfl
  | succ n ih => rw [exec_replicate_succ, log_step_of_ne hij, ih]

end Steps

section Swap

/-- An access that changes no word of `T` for another one leaves it its result. -/
theorem write_eq_self {m : Memory C} {c d : C} {op : Op}
    (h : d = c → op.newValue (m c) = m c) : write m c op d = m d := by
  by_cases hd : d = c
  · rw [hd, write_self, h hd]
  · exact write_of_ne m op hd

/-- What the next access of `i` meets is what it met before the turn of `j`. -/
theorem Clear.before_step (h : Clear T (step T s j) i j) (hij : i ≠ j) :
    Clear T s i j ∧ ∀ c op k, s.prog i = .access c op k → T c →
      (step T s j).mem c = s.mem c := by
  have hsame : ∀ c op k, s.prog i = .access c op k → T c → (step T s j).mem c = s.mem c := by
    intro c op k hi hc
    cases hj : s.prog j with
    | done a => rw [step_of_done hj]
    | access c' op' k' =>
      have hclear := h c op k ((prog_step_of_ne hij).trans hi) hc
      rw [step_of_access hj] at hclear ⊢
      apply write_eq_self
      intro he
      subst he
      simp only [if_pos hc, Function.update_self] at hclear
      have hnot := (hclear _ List.mem_cons_self).1
      simpa [changes] using hnot
  refine ⟨fun c op k hi hc changed hin => ?_, hsame⟩
  have hclear := h c op k ((prog_step_of_ne hij).trans hi) hc changed (mem_log_step hin)
  rw [hsame c op k hi hc] at hclear
  exact hclear

/-- Turns whose accesses do not meet may be swapped. -/
theorem same_swap (hij : i ≠ j) (hloads : LoadsIn T s) (h : Clear T (step T s j) i j) :
    Same T (step T (step T s j) i) (step T (step T s i) j) := by
  cases hi : s.prog i with
  | done a =>
    rw [step_of_done ((prog_step_of_ne hij).trans hi), step_of_done hi]
    exact Same.refl T _
  | access c op k =>
    cases hj : s.prog j with
    | done a =>
      rw [step_of_done hj, step_of_done ((prog_step_of_ne hij.symm).trans hj)]
      exact Same.refl T _
    | access c' op' k' =>
      have hi' := (prog_step_of_ne (T := T) hij).trans hi
      have hj' := (prog_step_of_ne (T := T) hij.symm).trans hj
      -- neither access changes a word of `T` that the other one meets
      have hmeets : c = c' → T c → op'.newValue (s.mem c') = s.mem c' ∧
          op.newValue (s.mem c) = s.mem c := by
        rintro rfl hc
        have hclear := h c op k hi' hc
        have hsame := (h.before_step hij).2 c op k hi hc
        rw [hsame] at hclear
        rw [step_of_access hj] at hsame hclear
        simp only [write_self] at hsame
        simp only [if_pos hc, Function.update_self] at hclear
        exact ⟨hsame, (hclear _ List.mem_cons_self).2⟩
      have hleft : T c → write s.mem c' op' c = s.mem c := fun hc =>
        write_eq_self fun he => (hmeets he hc).1
      have hright : T c' → write s.mem c op c' = s.mem c' := fun hc =>
        write_eq_self fun he => (hmeets he.symm (he ▸ hc)).2
      have hri : k (op.result (write s.mem c' op' c)) = k (op.result (s.mem c)) := by
        have hload := hloads i
        rw [hi] at hload
        by_cases hop : op = .load
        · rw [hleft (hload.1 hop)]
        · rw [Op.result_congr hop]
      have hrj : k' (op'.result (write s.mem c op c')) = k' (op'.result (s.mem c')) := by
        have hload := hloads j
        rw [hj] at hload
        by_cases hop : op' = .load
        · rw [hright (hload.1 hop)]
        · rw [Op.result_congr hop]
      rw [step_of_access hi', step_of_access hj', step_of_access hj, step_of_access hi]
      refine ⟨fun d hd => ?_, ?_, ?_⟩
      · by_cases hdc : d = c
        · subst hdc
          by_cases hdc' : d = c'
          · subst hdc'
            simp only [write_self, (hmeets rfl hd).1, (hmeets rfl hd).2]
          · simp only [write_self, write_of_ne _ _ hdc']
        · by_cases hdc' : d = c'
          · subst hdc'
            simp only [write_self, write_of_ne _ _ hdc]
          · simp only [write_of_ne _ _ hdc, write_of_ne _ _ hdc']
      · simp only [hri, hrj]
        exact Function.update_comm hij.symm ..
      · by_cases hc : T c <;> by_cases hc' : T c' <;>
          simp only [hc, hc', if_true, if_false, hleft, hright, Function.update_of_ne hij,
            Function.update_of_ne hij.symm]
        exact Function.update_comm hij.symm ..

/-- A turn that is clear of what `j` accessed may be taken before the turns of `j`. -/
theorem Clear.before_turns (hij : i ≠ j) (hloads : LoadsIn T s) (n : Nat)
    (h : Clear T (exec T s (List.replicate n j)) i j) :
    Same T (step T (exec T s (List.replicate n j)) i)
        (exec T (step T s i) (List.replicate n j)) ∧
      ∀ c op k, s.prog i = .access c op k → T c →
        (exec T s (List.replicate n j)).mem c = s.mem c := by
  induction n with
  | zero => exact ⟨Same.refl T _, fun _ _ _ _ _ => rfl⟩
  | succ n ih =>
    rw [exec_replicate_succ] at h ⊢
    obtain ⟨hbefore, hvalue⟩ := h.before_step hij
    obtain ⟨hsame, hvalues⟩ := ih hbefore
    have hprog := prog_replicate_of_ne (s := s) (T := T) hij n
    constructor
    · rw [exec_replicate_succ]
      have hloads' := hloads.exec (List.replicate n j)
      exact (same_swap hij hloads' h).trans (hsame.step (hloads'.step i) j)
    · intro c op k hi hc
      exact (hvalue c op k (hprog.trans hi) hc).trans (hvalues c op k hi hc)

end Swap

section Serial

theorem prog_exec_of_not_mem {sched : List ι} (h : i ∉ sched) :
    (exec T s sched).prog i = s.prog i := by
  induction sched generalizing s with
  | nil => rfl
  | cons j sched ih =>
    rw [List.mem_cons, not_or] at h
    exact (ih h.2).trans (prog_step_of_ne h.1)

/-- A thread that takes turns alone until it is done has run alone. -/
theorem run_of_replicate (n : Nat) :
    ((exec T s (List.replicate n j)).prog j).run (exec T s (List.replicate n j)).mem =
      (s.prog j).run s.mem := by
  induction n with
  | zero => rfl
  | succ n ih =>
    rw [exec_replicate_succ, ← ih]
    cases hj : (exec T s (List.replicate n j)).prog j with
    | done a => rw [step_of_done hj, hj]
    | access c op k =>
      rw [step_of_access hj]
      simp only [Function.update_self, run_access]

/-- When every turn is clear of what `j` has accessed by then, the turns of `j` may be
taken last. -/
theorem same_turns_last (hloads : LoadsIn T s) {sched : List ι}
    (h : ∀ pre i, pre ++ [i] <+: sched → i ≠ j → Clear T (exec T s pre) i j) :
    Same T (exec T s sched)
      (exec T (exec T s (sched.filter (· ≠ j))) (List.replicate (sched.count j) j)) := by
  induction sched using List.reverseRecOn with
  | nil => exact Same.refl T s
  | append_singleton sched i ih =>
    have hsame := ih fun pre i' hp => h pre i' (hp.trans (List.prefix_append sched [i]))
    have hstep := hsame.step (hloads.exec sched) i
    rw [exec_snoc]
    apply hstep.trans
    by_cases hij : i = j
    · subst hij
      have hfilter : (sched ++ [i]).filter (· ≠ i) = sched.filter (· ≠ i) := by simp
      have hcount : (sched ++ [i]).count i = sched.count i + 1 := by simp
      rw [hfilter, hcount, exec_replicate_succ]
      exact Same.refl T _
    · have hfilter : (sched ++ [i]).filter (· ≠ j) = sched.filter (· ≠ j) ++ [i] := by
        simp [hij]
      have hcount : (sched ++ [i]).count j = sched.count j := by
        simp [hij]
      rw [hfilter, hcount, exec_snoc]
      refine (Clear.before_turns hij (hloads.exec _) _ ?_).1
      intro c op k hi hc changed hin
      have hclear := h sched i List.prefix_rfl hij c op k (hsame.prog ▸ hi) hc changed
        (hsame.log ▸ hin)
      rw [hsame.mem c hc] at hclear
      exact hclear

/-- Without the turns of `j`, a turn stays clear of what the others have accessed. -/
theorem Clear.without {k : ι} (hloads : LoadsIn T s) {pre : List ι} (hij : i ≠ j) (hkj : k ≠ j)
    (hpre : ∀ pre' i', pre' ++ [i'] <+: pre ++ [i] → i' ≠ j → Clear T (exec T s pre') i' j)
    (h : Clear T (exec T s pre) i k) : Clear T (exec T s (pre.filter (· ≠ j))) i k := by
  have hsame := same_turns_last hloads fun pre' i' hp =>
    hpre pre' i' (hp.trans (List.prefix_append pre [i]))
  have hj := hpre pre i List.prefix_rfl hij
  have hlast : Clear T (exec T (exec T s (pre.filter (· ≠ j))) (List.replicate (pre.count j) j))
      i j := by
    intro c op k hi hc changed hin
    have hclear := hj c op k (hsame.prog ▸ hi) hc changed (hsame.log ▸ hin)
    rw [hsame.mem c hc] at hclear
    exact hclear
  intro c op p hi hc changed hin
  have hvalue := (hlast.before_turns hij (hloads.exec _) _).2 c op p hi hc
  have hclear := h c op p (by rw [hsame.prog, prog_replicate_of_ne hij, hi]) hc changed
    (by rw [hsame.log, log_replicate_of_ne hkj]; exact hin)
  rw [hsame.mem c hc, hvalue] at hclear
  exact hclear

omit [DecidableEq ι] in
/-- A prefix of a filtered schedule is what the filter leaves of a prefix. -/
theorem prefix_filter {p : ι → Bool} {sched pre : List ι}
    (h : pre ++ [i] <+: sched.filter p) :
    p i = true ∧ ∃ pre', pre' ++ [i] <+: sched ∧ pre'.filter p = pre := by
  induction sched generalizing pre with
  | nil => simp at h
  | cons j sched ih =>
    by_cases hj : p j = true
    · rw [List.filter_cons_of_pos hj] at h
      cases pre with
      | nil =>
        obtain ⟨rfl, -⟩ := List.cons_prefix_cons.mp h
        exact ⟨hj, [], List.cons_prefix_cons.mpr ⟨rfl, List.nil_prefix⟩, rfl⟩
      | cons j' pre =>
        obtain ⟨rfl, hrest⟩ := List.cons_prefix_cons.mp h
        obtain ⟨hi, pre', hp, hf⟩ := ih hrest
        exact ⟨hi, j' :: pre', List.cons_prefix_cons.mpr ⟨rfl, hp⟩,
          by rw [List.filter_cons_of_pos hj, hf]⟩
    · rw [List.filter_cons_of_neg hj] at h
      obtain ⟨hi, pre', hp, hf⟩ := ih h
      exact ⟨hi, j :: pre', List.cons_prefix_cons.mpr ⟨rfl, hp⟩,
        by rw [List.filter_cons_of_neg hj, hf]⟩

/-- A run in which no turn meets, with a change, what a later program of the order has
accessed leaves what the programs leave in that order. -/
theorem mem_eq_serial (hloads : LoadsIn T s) {order sched : List ι} (hnd : order.Nodup)
    (hall : ∀ i ∈ sched, i ∈ order)
    (hdone : ∀ i ∈ order, ((exec T s sched).prog i).isDone = true)
    (hclear : ∀ pre i, pre ++ [i] <+: sched → ∀ j, [i, j].Sublist order →
      Clear T (exec T s pre) i j) :
    ∀ c, T c → (exec T s sched).mem c =
      order.foldl (fun m i => ((s.prog i).run m).2) s.mem c := by
  induction order using List.reverseRecOn generalizing sched with
  | nil =>
    rw [List.eq_nil_iff_forall_not_mem.mpr fun i hi => List.not_mem_nil (hall i hi)]
    exact fun c _ => rfl
  | append_singleton order j ih =>
    obtain ⟨hnd', -, hdisj⟩ := List.nodup_append'.mp hnd
    have hj : j ∉ order := fun h => hdisj h (List.mem_singleton_self j)
    have hlast : ∀ i ∈ order, [i, j].Sublist (order ++ [j]) := fun i hi =>
      (List.singleton_sublist.mpr hi).append (List.Sublist.refl [j])
    have hmem : ∀ i ∈ sched, i ≠ j → i ∈ order := fun i hi hij =>
      (List.mem_append.mp (hall i hi)).resolve_right fun h => hij (List.mem_singleton.mp h)
    have hclearj : ∀ pre i, pre ++ [i] <+: sched → i ≠ j → Clear T (exec T s pre) i j :=
      fun pre i hp hij => hclear pre i hp j (hlast i (hmem i (hp.subset (by simp)) hij))
    have hsame := same_turns_last hloads hclearj
    -- the other programs take the same turns without `j`
    have hrest := @ih (sched.filter (· ≠ j)) hnd'
      (fun i hi => hmem i (List.mem_filter.mp hi).1 (by simpa using (List.mem_filter.mp hi).2))
      (fun i hi => by
        have hij : i ≠ j := ne_of_mem_of_not_mem hi hj
        have h := hdone i (List.mem_append_left _ hi)
        rwa [hsame.prog, prog_replicate_of_ne hij] at h)
      (fun pre i hp k hk => by
        obtain ⟨hij, pre', hp', rfl⟩ := prefix_filter hp
        have hkj : k ≠ j := by
          rintro rfl
          exact hj (hk.subset (by simp))
        exact (hclear pre' i hp' k (hk.trans (List.sublist_append_left order [j]))).without
          hloads (by simpa using hij) hkj fun pre'' i' h => hclearj pre'' i' (h.trans hp'))
    intro c hc
    have hrun := run_of_replicate (T := T) (s := exec T s (sched.filter (· ≠ j))) (j := j)
      (sched.count j)
    have hprogj : (exec T s (sched.filter (· ≠ j))).prog j = s.prog j :=
      prog_exec_of_not_mem (by simp)
    have hdonej := hdone j (by simp)
    rw [hsame.prog] at hdonej
    rw [List.foldl_append, List.foldl_cons, List.foldl_nil, hsame.mem c hc]
    cases hret : (exec T (exec T s (sched.filter (· ≠ j)))
        (List.replicate (sched.count j) j)).prog j with
    | access c' op k =>
      rw [hret] at hdonej
      cases hdonej
    | done a =>
      rw [hret, run_done, hprogj] at hrun
      have hfinal := congrArg (fun x => x.2 c) hrun
      exact hfinal.trans (((hloads j).run_congr hrest).2 c hc)

end Serial

end Logged

end OrderbookEngine
