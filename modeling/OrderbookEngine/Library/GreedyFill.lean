import Mathlib.Tactic

/-!
# Greedy fills

A fill takes an amount of every item of a list within the item's capacity. Taking
the items in order of price, each as far as it goes, costs no more than any other
fill of the same total: one price separates the exhausted items from the untouched
ones. Weights that exceed a greedy fill keep its average price only in trivial ways.
-/

namespace OrderbookEngine.GreedyFill

variable {α D : Type*} [Field D] [LinearOrder D] [IsStrictOrderedRing D]

/-- The sum of the amounts of a fill. -/
def total (l : List α) (f : α → D) : D := (l.map f).sum

/-- The sum of the amounts at their prices. -/
def cost (price : α → D) (l : List α) (f : α → D) : D := (l.map fun x => f x * price x).sum

/-- No amount is negative or above its capacity. -/
def Within (cap : α → D) (l : List α) (f : α → D) : Prop := ∀ x ∈ l, 0 ≤ f x ∧ f x ≤ cap x

/-- Items cheaper than the price are exhausted and dearer ones untouched. -/
def Marginal (cap price : α → D) (l : List α) (f : α → D) (c : D) : Prop :=
  ∀ x ∈ l, (price x < c → f x = cap x) ∧ (c < price x → f x = 0)

/-- Take the items in order, each as far as the remaining amount goes. -/
def greedy [DecidableEq α] (cap : α → D) : List α → D → α → D
  | [], _ => fun _ => 0
  | x :: xs, r =>
    if r ≤ 0 then fun _ => 0
    else Function.update (greedy cap xs (r - min r (cap x))) x (min r (cap x))

section Sums

variable {cap price : α → D} {l l' : List α} {f g : α → D} {c : D}

omit [LinearOrder D] [IsStrictOrderedRing D] in
theorem total_perm (h : l.Perm l') (f : α → D) : total l f = total l' f := (h.map f).sum_eq

omit [LinearOrder D] [IsStrictOrderedRing D] in
theorem cost_perm (h : l.Perm l') (price f : α → D) : cost price l f = cost price l' f :=
  (h.map _).sum_eq

omit [LinearOrder D] [IsStrictOrderedRing D] in
@[simp] theorem total_cons (x : α) (l : List α) (f : α → D) :
    total (x :: l) f = f x + total l f := by
  simp [total]

omit [LinearOrder D] [IsStrictOrderedRing D] in
@[simp] theorem total_nil (f : α → D) : total [] f = 0 := rfl

omit [LinearOrder D] [IsStrictOrderedRing D] in
theorem total_congr (h : ∀ x ∈ l, f x = g x) : total l f = total l g :=
  congrArg List.sum (List.map_congr_left h)

section Linear

omit [LinearOrder D] [IsStrictOrderedRing D]

/-- Measuring prices from another zero takes that price off every unit. -/
theorem cost_eq_add (price : α → D) (l : List α) (f : α → D) (c : D) :
    cost price l f = cost (fun x => price x - c) l f + c * total l f := by
  induction l with
  | nil => simp [cost]
  | cons x l ih =>
    simp only [cost, List.map_cons, List.sum_cons, total_cons] at ih ⊢
    rw [ih]
    ring

theorem cost_neg (price : α → D) (l : List α) (f : α → D) :
    cost (fun x => -price x) l f = -cost price l f := by
  induction l with
  | nil => simp [cost]
  | cons x l ih =>
    simp only [cost, List.map_cons, List.sum_cons] at ih ⊢
    rw [ih]
    ring

theorem total_sub (l : List α) (f g : α → D) :
    total l (fun x => f x - g x) = total l f - total l g := by
  induction l with
  | nil => simp
  | cons x l ih =>
    simp only [total_cons, ih]
    ring

theorem cost_sub (price : α → D) (l : List α) (f g : α → D) :
    cost price l (fun x => f x - g x) = cost price l f - cost price l g := by
  induction l with
  | nil => simp [cost]
  | cons x l ih =>
    simp only [cost, List.map_cons, List.sum_cons] at ih ⊢
    rw [ih]
    ring

end Linear

/-- No fill of the same total is cheaper than one with a marginal price. -/
theorem Marginal.cost_le (h : Marginal cap price l f c) (hg : Within cap l g)
    (htotal : total l g = total l f) :
    cost price l f ≤ cost price l g := by
  rw [cost_eq_add price l f c, cost_eq_add price l g c, htotal]
  refine add_le_add_left (List.sum_le_sum fun x hx => ?_) _
  obtain ⟨hexhausted, huntouched⟩ := h x hx
  rcases lt_trichotomy (price x) c with hlt | heq | hgt
  · -- a cheaper item is exhausted, so the other fill takes less of it
    rw [hexhausted hlt]
    exact mul_le_mul_of_nonpos_right (hg x hx).2 (sub_nonpos.mpr hlt.le)
  · simp [heq]
  · -- a dearer item is untouched, so the other fill takes more of it
    rw [huntouched hgt]
    exact mul_le_mul_of_nonneg_right (hg x hx).1 (sub_nonneg.mpr hgt.le)

/-- Amounts that are not negative vanish together only one by one. -/
theorem sum_eq_zero_iff {h : α → D} (hnonneg : ∀ x ∈ l, 0 ≤ h x) :
    (l.map h).sum = 0 ↔ ∀ x ∈ l, h x = 0 := by
  constructor
  · intro hsum x hx
    refine List.all_zero_of_le_zero_le_of_sum_eq_zero (l := l.map h) ?_ hsum
      (List.mem_map_of_mem hx)
    intro y hy
    obtain ⟨x, hx, rfl⟩ := List.mem_map.mp hy
    exact hnonneg x hx
  · intro hzero
    rw [List.map_congr_left hzero]
    simp

theorem total_nonneg (h : ∀ x ∈ l, 0 ≤ f x) : 0 ≤ total l f := by
  apply List.sum_nonneg
  intro y hy
  obtain ⟨x, hx, rfl⟩ := List.mem_map.mp hy
  exact h x hx

theorem total_le_total (h : ∀ x ∈ l, f x ≤ g x) : total l f ≤ total l g := List.sum_le_sum h

/-- A fill that totals as much as the capacities exhausts every item. -/
theorem Within.eq_cap (hf : Within cap l f) (htotal : total l f = total l cap) :
    ∀ x ∈ l, f x = cap x := by
  have hsum : total l (fun x => cap x - f x) = 0 := by rw [total_sub, htotal, sub_self]
  intro x hx
  have hzero := (sum_eq_zero_iff fun y hy => sub_nonneg.mpr (hf y hy).2).mp hsum x hx
  exact (sub_eq_zero.mp hzero).symm

end Sums

section Greedy

variable [DecidableEq α] {cap price : α → D} {l : List α} {r : D}

omit [IsStrictOrderedRing D] in
theorem greedy_of_nonpos (hr : r ≤ 0) (l : List α) : greedy cap l r = fun _ => 0 := by
  cases l with
  | nil => rfl
  | cons x l => exact if_pos hr

omit [IsStrictOrderedRing D] in
theorem greedy_cons_of_pos (hr : 0 < r) (x : α) (l : List α) :
    greedy cap (x :: l) r =
      Function.update (greedy cap l (r - min r (cap x))) x (min r (cap x)) :=
  if_neg (not_le.mpr hr)

omit [IsStrictOrderedRing D] in
@[simp] theorem greedy_cons_self (hr : 0 < r) (x : α) (l : List α) :
    greedy cap (x :: l) r x = min r (cap x) := by
  rw [greedy_cons_of_pos hr, Function.update_self]

omit [IsStrictOrderedRing D] in
variable (cap) in
/-- The items after the first are filled with what remains. -/
theorem greedy_cons_of_mem (hr : 0 < r) {x y : α} (hnd : (x :: l).Nodup) (hy : y ∈ l) :
    greedy cap (x :: l) r y = greedy cap l (r - min r (cap x)) y := by
  rw [greedy_cons_of_pos hr, Function.update_of_ne]
  exact fun he => (List.nodup_cons.mp hnd).1 (he ▸ hy)

omit [IsStrictOrderedRing D] in
theorem greedy_within (hnd : l.Nodup) (hcap : ∀ x ∈ l, 0 ≤ cap x) (r : D) :
    Within cap l (greedy cap l r) := by
  induction l generalizing r with
  | nil => exact fun x hx => absurd hx List.not_mem_nil
  | cons x l ih =>
    intro y hy
    rcases le_or_gt r 0 with hr | hr
    · rw [greedy_of_nonpos hr]
      exact ⟨le_refl 0, hcap y hy⟩
    · rcases List.mem_cons.mp hy with rfl | hy
      · rw [greedy_cons_self hr]
        exact ⟨le_min hr.le (hcap y List.mem_cons_self), min_le_right _ _⟩
      · rw [greedy_cons_of_mem cap hr hnd hy]
        exact ih (List.nodup_cons.mp hnd).2 (fun z hz => hcap z (List.mem_cons_of_mem _ hz)) _ y hy

/-- A greedy fill reaches the amount, or all capacity when that is less. -/
theorem total_greedy (hnd : l.Nodup) (hcap : ∀ x ∈ l, 0 ≤ cap x) (hr : 0 ≤ r) :
    total l (greedy cap l r) = min r (total l cap) := by
  induction l generalizing r with
  | nil => simp [hr]
  | cons x l ih =>
    have hcapl : ∀ y ∈ l, 0 ≤ cap y := fun y hy => hcap y (List.mem_cons_of_mem _ hy)
    rcases hr.eq_or_lt with rfl | hr
    · rw [greedy_of_nonpos le_rfl, min_eq_left (total_nonneg hcap)]
      simp [total]
    · have hrest : total l (greedy cap (x :: l) r) =
          total l (greedy cap l (r - min r (cap x))) :=
        total_congr fun y hy => greedy_cons_of_mem cap hr hnd hy
      rw [total_cons, total_cons, greedy_cons_self hr, hrest,
        ih (List.nodup_cons.mp hnd).2 hcapl (sub_nonneg.mpr (min_le_left _ _))]
      have hnonneg := total_nonneg hcapl
      rcases le_total r (cap x) with hle | hle
      · rw [min_eq_left hle, sub_self, min_eq_left hnonneg, add_zero,
          min_eq_left (hle.trans (le_add_of_nonneg_right hnonneg))]
      · rw [min_eq_right hle, add_comm, ← min_add_add_right, sub_add_cancel, add_comm (total l cap)]

variable (cap) in
/-- A greedy fill of items in order of price has a marginal price. -/
theorem exists_marginal (hnd : l.Nodup) (hsorted : l.Pairwise fun x y => price x ≤ price y)
    (hr : 0 < r) : ∃ c, Marginal cap price l (greedy cap l r) c := by
  induction l generalizing r with
  | nil => exact ⟨0, fun x hx => absurd hx List.not_mem_nil⟩
  | cons x l ih =>
    have hle : ∀ y ∈ l, price x ≤ price y := fun y hy => List.rel_of_pairwise_cons hsorted hy
    rcases le_or_gt r (cap x) with hfits | hmore
    · -- the first item suffices: its price is marginal
      refine ⟨price x, fun y hy => ?_⟩
      rcases List.mem_cons.mp hy with rfl | hy
      · exact ⟨fun h => absurd h (lt_irrefl _), fun h => absurd h (lt_irrefl _)⟩
      · refine ⟨fun h => absurd h (not_lt.mpr (hle y hy)), fun _ => ?_⟩
        rw [greedy_cons_of_mem cap hr hnd hy, min_eq_left hfits, sub_self,
          greedy_of_nonpos le_rfl]
    · -- the first item is exhausted: the price comes from the others
      have hrest : 0 < r - min r (cap x) := by
        rw [min_eq_right hmore.le]
        exact sub_pos.mpr hmore
      obtain ⟨c, hc⟩ := ih (List.nodup_cons.mp hnd).2 hsorted.of_cons hrest
      refine ⟨max c (price x), fun y hy => ?_⟩
      rcases List.mem_cons.mp hy with rfl | hy
      · rw [greedy_cons_self hr, min_eq_right hmore.le]
        exact ⟨fun _ => rfl, fun h => absurd h (not_lt.mpr (le_max_right _ _))⟩
      · rw [greedy_cons_of_mem cap hr hnd hy]
        refine ⟨fun h => (hc y hy).1 ?_, fun h => (hc y hy).2 ((le_max_left _ _).trans_lt h)⟩
        exact (lt_max_iff.mp h).resolve_right (not_lt.mpr (hle y hy))

end Greedy

section Averages

variable {price : α → D} {l : List α} {f w : α → D} {c : D}

/-- The average price is the bottom price exactly when only the bottom price is paid. -/
theorem cost_eq_iff_of_le (hf : ∀ x ∈ l, 0 ≤ f x) (hle : ∀ x ∈ l, c ≤ price x) :
    cost price l f = c * total l f ↔ ∀ x ∈ l, 0 < f x → price x = c := by
  have hnonneg : ∀ x ∈ l, 0 ≤ f x * (price x - c) :=
    fun x hx => mul_nonneg (hf x hx) (sub_nonneg.mpr (hle x hx))
  rw [cost_eq_add price l f c, add_eq_right, cost, sum_eq_zero_iff hnonneg]
  refine forall₂_congr fun x hx => ?_
  rw [mul_eq_zero, sub_eq_zero]
  constructor
  · exact fun h hpos => h.resolve_left hpos.ne'
  · intro h
    rcases (hf x hx).eq_or_lt with hzero | hpos
    · exact Or.inl hzero.symm
    · exact Or.inr (h hpos)

/-- Some price that is paid is at most the average. -/
theorem exists_price_le (hf : ∀ x ∈ l, 0 ≤ f x) (hpos : 0 < total l f)
    (hc : cost price l f = c * total l f) : ∃ x ∈ l, 0 < f x ∧ price x ≤ c := by
  by_contra hnone
  push Not at hnone
  have hnonneg : ∀ x ∈ l, 0 ≤ f x * (price x - c) := by
    intro x hx
    rcases (hf x hx).eq_or_lt with heq | hlt
    · simp [← heq]
    · exact mul_nonneg hlt.le (sub_nonneg.mpr (hnone x hx hlt).le)
  rw [cost_eq_add price l f c, add_eq_right, cost, sum_eq_zero_iff hnonneg] at hc
  apply hpos.ne'
  apply (sum_eq_zero_iff hf).mpr
  intro x hx
  rcases mul_eq_zero.mp (hc x hx) with hzero | hzero
  · exact hzero
  · by_contra hne
    have hlt := hnone x hx (lt_of_le_of_ne (hf x hx) (Ne.symm hne))
    exact hlt.ne (sub_eq_zero.mp hzero).symm

/-- Some price that is paid is at least the average. -/
theorem exists_le_price (hf : ∀ x ∈ l, 0 ≤ f x) (hpos : 0 < total l f)
    (hc : cost price l f = c * total l f) : ∃ x ∈ l, 0 < f x ∧ c ≤ price x := by
  have hneg : cost (fun x => -price x) l f = -c * total l f := by
    rw [cost_neg, hc, neg_mul]
  obtain ⟨x, hx, hpaid, hle⟩ := exists_price_le hf hpos hneg
  exact ⟨x, hx, hpaid, neg_le_neg_iff.mp hle⟩

/-- What is paid at one price only costs that price. -/
theorem cost_eq_of_price (hf : ∀ x ∈ l, f x ≠ 0 → price x = c) :
    cost price l f = c * total l f := by
  rw [cost_eq_add price l f c, add_eq_right]
  apply List.sum_eq_zero
  intro y hy
  obtain ⟨x, hx, rfl⟩ := List.mem_map.mp hy
  by_cases hzero : f x = 0
  · simp [hzero]
  · simp [hf x hx hzero]

omit [LinearOrder D] [IsStrictOrderedRing D] in
/-- The excess of some weights over a fill shifts the average by what it is worth above a
price and by what the fill is worth below it. -/
theorem cost_cross_sub (price : α → D) (l : List α) (f w : α → D) (c : D) :
    cost price l w * total l f - cost price l f * total l w =
      cost (fun x => price x - c) l (fun x => w x - f x) * total l f +
        cost (fun x => c - price x) l f * total l (fun x => w x - f x) := by
  have hneg : cost (fun x => c - price x) l f = -cost (fun x => price x - c) l f := by
    simpa using cost_neg (fun x => price x - c) l f
  rw [cost_eq_add price l w c, cost_eq_add price l f c, cost_sub, total_sub, hneg]
  ring

/-- Weights that exceed a fill only at prices from the marginal one on have the same
average price exactly when they exceed it nowhere, or all prices involved agree. -/
theorem average_eq_iff (hf : ∀ x ∈ l, 0 ≤ f x) (hw : ∀ x ∈ l, f x ≤ w x)
    (hpos : 0 < total l f) (hpaid : ∀ x ∈ l, 0 < f x → price x ≤ c)
    (hexcess : ∀ x ∈ l, f x < w x → c ≤ price x) :
    cost price l w * total l f = cost price l f * total l w ↔
      (∀ x ∈ l, w x = f x) ∨ ∃ p, ∀ x ∈ l, 0 < f x ∨ f x < w x → price x = p := by
  -- the excess is weighed from the marginal price up, the fill from it down
  have hover : ∀ x ∈ l, 0 ≤ (w x - f x) * (price x - c) := by
    intro x hx
    rcases (hw x hx).eq_or_lt with heq | hlt
    · simp [heq]
    · exact mul_nonneg (sub_nonneg.mpr hlt.le) (sub_nonneg.mpr (hexcess x hx hlt))
  have hunder : ∀ x ∈ l, 0 ≤ f x * (c - price x) := by
    intro x hx
    rcases (hf x hx).eq_or_lt with heq | hlt
    · simp [← heq]
    · exact mul_nonneg hlt.le (sub_nonneg.mpr (hpaid x hx hlt))
  have hmore : 0 ≤ total l (fun x => w x - f x) :=
    total_nonneg fun x hx => sub_nonneg.mpr (hw x hx)
  have hoverSum : 0 ≤ cost (fun x => price x - c) l (fun x => w x - f x) := total_nonneg hover
  have hunderSum : 0 ≤ cost (fun x => c - price x) l f := total_nonneg hunder
  constructor
  · intro heq
    rw [← sub_eq_zero, cost_cross_sub price l f w c,
      add_eq_zero_iff_of_nonneg (mul_nonneg hoverSum hpos.le) (mul_nonneg hunderSum hmore),
      mul_eq_zero, mul_eq_zero] at heq
    have hoverZero := (sum_eq_zero_iff hover).mp (heq.1.resolve_right hpos.ne')
    by_cases hsame : ∀ x ∈ l, w x = f x
    · exact Or.inl hsame
    · push Not at hsame
      obtain ⟨x₀, hx₀, hne⟩ := hsame
      refine Or.inr ⟨c, fun x hx hx' => ?_⟩
      rcases hx' with hpaidx | hlt
      · -- some weight exceeds the fill, so what is paid is paid at the marginal price
        have htotal : total l (fun x => w x - f x) ≠ 0 := by
          intro hzero
          have hzero₀ := (sum_eq_zero_iff fun y hy => sub_nonneg.mpr (hw y hy)).mp hzero x₀ hx₀
          exact hne (sub_eq_zero.mp hzero₀)
        have hunderZero := (sum_eq_zero_iff hunder).mp (heq.2.resolve_right htotal) x hx
        have hzero := (mul_eq_zero.mp hunderZero).resolve_left hpaidx.ne'
        exact (sub_eq_zero.mp hzero).symm
      · have hzero := (mul_eq_zero.mp (hoverZero x hx)).resolve_left (sub_pos.mpr hlt).ne'
        exact sub_eq_zero.mp hzero
  · rintro (hsame | ⟨p, hp⟩)
    · have hcost : cost price l w = cost price l f :=
        congrArg List.sum (List.map_congr_left fun x hx => by simp only [hsame x hx])
      rw [hcost, total_congr hsame]
    · have hcostf : cost price l f = p * total l f := cost_eq_of_price fun x hx hne =>
        hp x hx (Or.inl (lt_of_le_of_ne (hf x hx) hne.symm))
      have hcostw : cost price l w = p * total l w := by
        refine cost_eq_of_price fun x hx hne => ?_
        apply hp x hx
        rcases (hf x hx).eq_or_lt with hzero | hlt
        · right
          rw [← hzero]
          exact lt_of_le_of_ne (hzero ▸ hw x hx) hne.symm
        · exact Or.inl hlt
      rw [hcostf, hcostw]
      ring

end Averages

end OrderbookEngine.GreedyFill
