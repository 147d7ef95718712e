import Mathlib.Tactic

/-!
# Threads with call stacks, and the mutexes they own

Each thread has a stack of frames, and a frame holds at most one mutex. The table of
owners tracks the stacks when it names, for every mutex, the one thread that has a
frame holding it. Taking and releasing a mutex on the top of a stack keeps that.
-/

namespace OrderbookEngine.CallStack

variable {τ κ φ : Type*}

/-- The owner of a mutex is the thread with a frame that holds it, and one frame of a
thread holds it. -/
structure Tracks (holds : φ → Option κ) (owner : κ → Option τ) (calls : τ → List φ) :
    Prop where
  nodup : ∀ t, ((calls t).filterMap holds).Nodup
  mem_iff : ∀ t mutex, mutex ∈ (calls t).filterMap holds ↔ owner mutex = some t

variable {holds : φ → Option κ} {owner : κ → Option τ} {calls : τ → List φ}

theorem Tracks.init : Tracks holds (fun _ : κ => (none : Option τ)) fun _ => [] where
  nodup _ := List.nodup_nil
  mem_iff _ _ := iff_of_false List.not_mem_nil nofun

/-- A thread owns the mutexes that its frames hold. -/
theorem Tracks.owner_of_mem (h : Tracks holds owner calls) {t : τ} {frame : φ} {mutex : κ}
    (hmem : frame ∈ calls t) (hholds : holds frame = some mutex) : owner mutex = some t :=
  (h.mem_iff t mutex).mp (List.mem_filterMap.mpr ⟨frame, hmem, hholds⟩)

/-- A thread that owns a mutex has a frame that holds it. -/
theorem Tracks.mem_of_owner (h : Tracks holds owner calls) {t : τ} {mutex : κ}
    (howner : owner mutex = some t) : ∃ frame ∈ calls t, holds frame = some mutex :=
  List.mem_filterMap.mp ((h.mem_iff t mutex).mpr howner)

variable [DecidableEq τ] {t : τ} {frames : List φ}

/-- The frames of one thread change while what they hold stays. -/
theorem Tracks.keep (h : Tracks holds owner calls)
    (hheld : frames.filterMap holds = (calls t).filterMap holds) :
    Tracks holds owner (Function.update calls t frames) where
  nodup u := by
    by_cases hu : u = t
    · rw [hu, Function.update_self, hheld]
      exact h.nodup t
    · rw [Function.update_of_ne hu]
      exact h.nodup u
  mem_iff u mutex := by
    by_cases hu : u = t
    · rw [hu, Function.update_self, hheld]
      exact h.mem_iff t mutex
    · rw [Function.update_of_ne hu]
      exact h.mem_iff u mutex

variable [DecidableEq κ] {mutex : κ}

/-- A thread takes a mutex that nobody owns. -/
theorem Tracks.take (h : Tracks holds owner calls) (hfree : owner mutex = none)
    (hheld : frames.filterMap holds = mutex :: (calls t).filterMap holds) :
    Tracks holds (Function.update owner mutex (some t)) (Function.update calls t frames) where
  nodup u := by
    by_cases hu : u = t
    · rw [hu, Function.update_self, hheld]
      refine List.nodup_cons.mpr ⟨fun hmem => ?_, h.nodup t⟩
      cases hfree.symm.trans ((h.mem_iff t mutex).mp hmem)
    · rw [Function.update_of_ne hu]
      exact h.nodup u
  mem_iff u other := by
    have hother := h.mem_iff u other
    by_cases hu : u = t
    · subst hu
      rw [Function.update_self, hheld, List.mem_cons, hother]
      by_cases ho : other = mutex
      · simp [ho]
      · simp [ho]
    · rw [Function.update_of_ne hu, hother]
      by_cases ho : other = mutex
      · rw [ho, Function.update_self, hfree]
        exact iff_of_false nofun fun heq => hu (Option.some.inj heq).symm
      · rw [Function.update_of_ne ho]

/-- A thread releases a mutex that its innermost holding frame holds. -/
theorem Tracks.release (h : Tracks holds owner calls)
    (hheld : (calls t).filterMap holds = mutex :: frames.filterMap holds) :
    Tracks holds (Function.update owner mutex none) (Function.update calls t frames) where
  nodup u := by
    by_cases hu : u = t
    · rw [hu, Function.update_self]
      exact (List.nodup_cons.mp (hheld ▸ h.nodup t)).2
    · rw [Function.update_of_ne hu]
      exact h.nodup u
  mem_iff u other := by
    have hother := h.mem_iff u other
    have hnodup := List.nodup_cons.mp (hheld ▸ h.nodup t)
    by_cases hu : u = t
    · subst hu
      rw [Function.update_self]
      by_cases ho : other = mutex
      · rw [ho, Function.update_self]
        exact iff_of_false hnodup.1 nofun
      · rw [Function.update_of_ne ho, ← hother, hheld, List.mem_cons]
        simp [ho]
    · rw [Function.update_of_ne hu, hother]
      by_cases ho : other = mutex
      · have howner : owner mutex = some t :=
          (h.mem_iff t mutex).mp (hheld ▸ List.mem_cons_self)
        rw [ho, Function.update_self, howner]
        exact iff_of_false (fun heq => hu (Option.some.inj heq).symm) nofun
      · rw [Function.update_of_ne ho]

end OrderbookEngine.CallStack
