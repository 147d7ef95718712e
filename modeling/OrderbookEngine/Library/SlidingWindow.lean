import Mathlib.Data.List.TakeWhile
import OrderbookEngine.Library.Transition

/-!
# Sliding windows over time stamps

A queue of time-stamped samples drops those at its front that are older than a
cutoff, and may keep a running total of what it holds. The cutoff is the latest
time less the width of the window, a difference of unsigned words: the queue
holds exactly the samples within the width as long as that difference does not
wrap, and it is empty when it does.
-/

namespace OrderbookEngine.SlidingWindow

open Transition

section Expiry

variable {α : Type*} (time : α → UInt64) (cutoff : UInt64)

/-- Drop the samples at the front that are older than the cutoff. -/
def expire (q : List α) : List α := q.dropWhile fun x => time x < cutoff

variable {time cutoff} {q : List α}

theorem expire_suffix (time : α → UInt64) (cutoff : UInt64) (q : List α) :
    expire time cutoff q <:+ q := List.dropWhile_suffix _

/-- Of samples in the order of their times those from the cutoff on stay. -/
theorem expire_eq_filter (hq : q.Pairwise fun x y => time x ≤ time y) :
    expire time cutoff q = q.filter fun x => cutoff ≤ time x := by
  induction q with
  | nil => rfl
  | cons x q ih =>
    obtain ⟨hx, hq⟩ := List.pairwise_cons.mp hq
    by_cases hold : time x < cutoff
    · have hnot : ¬ cutoff ≤ time x := UInt64.not_le.mpr hold
      simpa [expire, hold, hnot] using ih hq
    · have hstay : ∀ y ∈ x :: q, cutoff ≤ time y := by
        have hle := UInt64.not_lt.mp hold
        exact List.forall_mem_cons.mpr ⟨hle, fun y hy => UInt64.le_trans hle (hx y hy)⟩
      rw [List.filter_eq_self.mpr fun y hy => decide_eq_true (hstay y hy)]
      simp [expire, hold]

/-- All samples leave when all are older than the cutoff. -/
theorem expire_eq_nil (h : ∀ x ∈ q, time x < cutoff) : expire time cutoff q = [] :=
  List.dropWhile_eq_nil_iff.mpr fun x hx => decide_eq_true (h x hx)

/-- Nothing is older than a cutoff of zero. -/
theorem expire_zero (time : α → UInt64) (q : List α) : expire time 0 q = q := by
  cases q with
  | nil => rfl
  | cons x q => simp [expire]

/-- A cutoff that wraps lies after every time up to the present. -/
theorem lt_sub_of_lt {now width t : UInt64} (hwrap : now < width) (ht : t ≤ now) :
    t < now - width := by
  have hw := width.toNat_lt
  rw [UInt64.lt_iff_toNat_lt] at hwrap ⊢
  rw [UInt64.le_iff_toNat_le] at ht
  rw [UInt64.toNat_sub]
  omega

/-- A cutoff that does not wrap marks the start of the window. -/
theorem sub_le_iff {now width t : UInt64} (h : width ≤ now) :
    now - width ≤ t ↔ now.toNat ≤ t.toNat + width.toNat := by
  rw [UInt64.le_iff_toNat_le, UInt64.toNat_sub_of_le _ _ h]
  have hle := UInt64.le_iff_toNat_le.mp h
  omega

end Expiry

section Totals

variable {α G : Type*} (time : α → UInt64) (weight : α → G) (cutoff : UInt64)

/-- Drop old samples from the front, each with its weight from a running total. -/
def popExpired [Sub G] : List α → G → List α × G
  | [], total => ([], total)
  | x :: q, total =>
    if time x < cutoff then popExpired q (total - weight x) else (x :: q, total)

theorem popExpired_fst [Sub G] (q : List α) (total : G) :
    (popExpired time weight cutoff q total).1 = expire time cutoff q := by
  induction q generalizing total with
  | nil => rfl
  | cons x q ih =>
    by_cases hold : time x < cutoff
    · simpa [popExpired, expire, hold] using ih (total - weight x)
    · simp [popExpired, expire, hold]

/-- A sum of pairs is the pair of the sums. -/
theorem sum_map_pair {A B : Type*} [AddCommMonoid A] [AddCommMonoid B] (f : α → A) (g : α → B)
    (q : List α) :
    (q.map fun x => (f x, g x)).sum = ((q.map f).sum, (q.map g).sum) := by
  induction q with
  | nil => rfl
  | cons x q ih => simp only [List.map_cons, List.sum_cons, ih, Prod.mk_add_mk]

/-- A total of what the queue holds stays one. -/
theorem popExpired_snd [AddCommGroup G] (q : List α) :
    (popExpired time weight cutoff q (q.map weight).sum).2 =
      ((expire time cutoff q).map weight).sum := by
  induction q with
  | nil => rfl
  | cons x q ih =>
    by_cases hold : time x < cutoff
    · simpa [popExpired, expire, hold] using ih
    · simp [popExpired, expire, hold]

end Totals

/-- A component that keeps a window: what a call of its update samples, and what
it retains. -/
structure Windowed (σ ε α : Type*) where
  update : σ → ε → σ
  reset : σ → σ
  width : σ → UInt64
  retained : σ → List α
  sample : ε → α
  time : α → UInt64
  retained_update : ∀ s e, retained (update s e) =
    expire time (time (sample e) - width s) (retained s) ++ [sample e]
  retained_reset : ∀ s, retained (reset s) = []
  width_update : ∀ s e, width (update s e) = width s
  width_reset : ∀ s, width (reset s) = width s

/-- The calls on such a component. -/
inductive Call (ε : Type*) where
  | update (args : ε)
  | reset

/-- A component with the samples that it was given since its last reset. -/
structure Logged (σ α : Type*) where
  component : σ
  past : List α

namespace Windowed

variable {σ ε α : Type*} (W : Windowed σ ε α)

/-- The component that a call leaves. -/
def apply (component : σ) : Call ε → σ
  | .update args => W.update component args
  | .reset => W.reset component

/-- The component after a list of calls. -/
def after (component : σ) (calls : List (Call ε)) : σ := calls.foldl W.apply component

/-- The component that a call leaves, with the samples since its last reset. -/
def next (s : Logged σ α) (call : Call ε) : Logged σ α where
  component := W.apply s.component call
  past := match call with
    | .update args => s.past ++ [W.sample args]
    | .reset => []

/-- The times of updates do not go back. -/
def Enabled (s : Logged σ α) : Call ε → Prop
  | .update args => ∀ x ∈ s.past, W.time x ≤ W.time (W.sample args)
  | .reset => True

instance (s : Logged σ α) : (call : Call ε) → Decidable (W.Enabled s call)
  | .update args => inferInstanceAs (Decidable (∀ x ∈ s.past, W.time x ≤ W.time (W.sample args)))
  | .reset => isTrue trivial

/-- One call. -/
def Step (s : Logged σ α) (call : Call ε) (t : Logged σ α) : Prop :=
  W.Enabled s call ∧ t = W.next s call

/-- A sample lies within the width of the window before a time. -/
def InWindow (s : Logged σ α) (now : UInt64) (x : α) : Prop :=
  now.toNat ≤ (W.time x).toNat + (W.width s.component).toNat

instance (s : Logged σ α) (now : UInt64) : DecidablePred (W.InWindow s now) :=
  fun x => inferInstanceAs (Decidable (now.toNat ≤ (W.time x).toNat + (W.width s.component).toNat))

/-- After an update exactly the samples within its window are retained. -/
def KeepsWindow (s : Logged σ α) (call : Call ε) (t : Logged σ α) : Prop :=
  match call with
  | .update args =>
    W.retained t.component = t.past.filter (W.InWindow s (W.time (W.sample args)))
  | .reset => True

/-- An update at a time before the width of the window is the first one. -/
def FirstIfEarly (s : Logged σ α) : Call ε → Prop
  | .update args => W.time (W.sample args) < W.width s.component → s.past = []
  | .reset => True

instance (s : Logged σ α) : (call : Call ε) → Decidable (W.FirstIfEarly s call)
  | .update args => inferInstanceAs
      (Decidable (W.time (W.sample args) < W.width s.component → s.past = []))
  | .reset => isTrue trivial

/-- What calls preserve that wrap no cutoff on a sample. -/
structure Inv (s : Logged σ α) : Prop where
  ordered : s.past.Pairwise fun x y => W.time x ≤ W.time y
  sublist : (W.retained s.component).Sublist s.past
  /-- What is gone is out of every window to come. -/
  window : ∀ now, (∀ x ∈ s.past, W.time x ≤ now) →
    (W.retained s.component).filter (W.InWindow s now) = s.past.filter (W.InWindow s now)

variable {W} {s : Logged σ α}

/-- A new component that retains nothing. -/
theorem inv_fresh {component : σ} (h : W.retained component = []) : W.Inv ⟨component, []⟩ where
  ordered := List.Pairwise.nil
  sublist := h ▸ List.Sublist.refl []
  window _ _ := by rw [h]

/-- The samples that an update drops are those that leave the window. -/
theorem Inv.expire_eq (h : W.Inv s) {args : ε} (henabled : W.Enabled s (.update args))
    (hcond : W.FirstIfEarly s (.update args)) :
    expire W.time (W.time (W.sample args) - W.width s.component) (W.retained s.component) =
      s.past.filter (W.InWindow s (W.time (W.sample args))) := by
  by_cases hearly : W.time (W.sample args) < W.width s.component
  · have hpast : s.past = [] := hcond hearly
    have hnone : W.retained s.component = [] := List.sublist_nil.mp (hpast ▸ h.sublist)
    rw [hpast, hnone]
    rfl
  · rw [← h.window _ henabled, expire_eq_filter (h.ordered.sublist h.sublist)]
    apply List.filter_congr
    intro x _
    exact decide_eq_decide.mpr (sub_le_iff (UInt64.not_lt.mp hearly))

/-- A new sample lies in its own window. -/
theorem inWindow_sample (s : Logged σ α) (x : α) : W.InWindow s (W.time x) x :=
  Nat.le_add_right _ _

theorem filter_sample (s : Logged σ α) (x : α) :
    [x].filter (W.InWindow s (W.time x)) = [x] :=
  List.filter_eq_self.mpr fun y hy => by
    rw [List.mem_singleton.mp hy]
    exact decide_eq_true (inWindow_sample s x)

/-- A step that wraps no cutoff on a sample keeps the window. -/
theorem Inv.step (h : W.Inv s) {call : Call ε} {t : Logged σ α} (hcond : W.FirstIfEarly s call)
    (hstep : W.Step s call t) : W.Inv t ∧ W.KeepsWindow s call t := by
  obtain ⟨henabled, rfl⟩ := hstep
  cases call with
  | reset => exact ⟨inv_fresh (W.retained_reset s.component), trivial⟩
  | update args =>
    have hretained : W.retained (W.next s (.update args)).component =
        s.past.filter (W.InWindow s (W.time (W.sample args))) ++ [W.sample args] := by
      rw [← h.expire_eq henabled hcond]
      exact W.retained_update s.component args
    have hkeeps : W.KeepsWindow s (.update args) (W.next s (.update args)) := by
      show W.retained (W.next s (.update args)).component =
        List.filter _ (s.past ++ [W.sample args])
      rw [hretained, List.filter_append, filter_sample]
    refine ⟨⟨?_, ?_, fun now hnow => ?_⟩, hkeeps⟩
    · refine List.pairwise_append.mpr ⟨h.ordered, List.pairwise_singleton _ _, ?_⟩
      intro x hx y hy
      rw [List.mem_singleton.mp hy]
      exact henabled x hx
    · rw [hretained]
      exact List.Sublist.append List.filter_sublist (List.Sublist.refl _)
    · have hlater : W.time (W.sample args) ≤ now :=
        hnow _ (List.mem_append_right _ List.mem_cons_self)
      rw [UInt64.le_iff_toNat_le] at hlater
      simp only [KeepsWindow] at hkeeps
      rw [hkeeps, List.filter_filter]
      apply List.filter_congr
      intro x _
      have hwidth : W.width (W.next s (.update args)).component = W.width s.component :=
        W.width_update s.component args
      have hearlier : W.InWindow (W.next s (.update args)) now x →
          W.InWindow s (W.time (W.sample args)) x := by
        simp only [InWindow, hwidth]
        exact hlater.trans
      rw [Bool.and_eq_left_iff_imp, decide_eq_true_eq, decide_eq_true_eq]
      exact hearlier

/-- A cutoff that wraps drops samples that lie in the window. -/
theorem Inv.not_keepsWindow (h : W.Inv s) {call : Call ε} {t : Logged σ α}
    (hcond : ¬ W.FirstIfEarly s call) (hstep : W.Step s call t) : ¬ W.KeepsWindow s call t := by
  obtain ⟨henabled, rfl⟩ := hstep
  cases call with
  | reset => exact absurd trivial hcond
  | update args =>
    simp only [FirstIfEarly, Classical.not_imp] at hcond
    obtain ⟨hearly, hpast⟩ := hcond
    have hgone : expire W.time (W.time (W.sample args) - W.width s.component)
        (W.retained s.component) = [] := by
      apply expire_eq_nil
      intro x hx
      exact lt_sub_of_lt hearly (henabled x (h.sublist.subset hx))
    have hall : ∀ x ∈ s.past, W.InWindow s (W.time (W.sample args)) x := by
      intro x _
      rw [UInt64.lt_iff_toNat_lt] at hearly
      simp only [InWindow]
      omega
    intro hkeeps
    simp only [KeepsWindow, next, apply, W.retained_update, hgone, List.nil_append,
      List.filter_append] at hkeeps
    rw [List.filter_eq_self.mpr fun x hx => decide_eq_true (hall x hx), filter_sample] at hkeeps
    exact hpast (List.append_left_eq_self.mp hkeeps.symm)

/-- What updates and resets preserve, all calls preserve. -/
theorem after_preserves (P : σ → Prop) (hupdate : ∀ c args, P c → P (W.update c args))
    (hreset : ∀ c, P c → P (W.reset c)) {component : σ} (h : P component)
    (calls : List (Call ε)) : P (W.after component calls) := by
  induction calls generalizing component with
  | nil => exact h
  | cons call calls ih =>
    cases call with
    | update args => exact ih (hupdate component args h)
    | reset => exact ih (hreset component h)

/-- What holds of the retained samples and of the new one holds of those retained next. -/
theorem forall_retained_update {P : α → Prop} {component : σ} {args : ε}
    (h : ∀ x ∈ W.retained component, P x) (hnew : P (W.sample args)) :
    ∀ x ∈ W.retained (W.update component args), P x := by
  intro x hx
  rw [W.retained_update] at hx
  rcases List.mem_append.mp hx with hold | hx
  · exact h x ((expire_suffix _ _ _).subset hold)
  · exact List.mem_singleton.mp hx ▸ hnew

/-- Along every run from a fresh component the window is kept exactly as long as no
update comes early after another. -/
theorem keepsWindow_iff {component : σ} (hfresh : W.retained component = [])
    {tr : List (Call ε × Logged σ α)} (hrun : IsRun W.Step ⟨component, []⟩ tr) :
    Always W.KeepsWindow ⟨component, []⟩ tr ↔ Guarded W.FirstIfEarly ⟨component, []⟩ tr :=
  hrun.always_iff_guarded (Q := W.KeepsWindow) W.Inv
    (fun _ _ _ hs hcond hstep => hs.step hcond hstep)
    (fun _ _ _ hs hcond hstep => hs.not_keepsWindow hcond hstep) (inv_fresh hfresh)

end Windowed

end OrderbookEngine.SlidingWindow
