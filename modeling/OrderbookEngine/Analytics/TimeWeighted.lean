import OrderbookEngine.Analytics.MarketAnalytics

/-!
# The time-weighted price

A sample gets its duration from the update that follows it, which finds the time
of the sample in `last_timestamp_ns_`. A time of zero reads as no sample there, so
a sample at time zero keeps the duration zero when the next update does not
expire it.
-/

namespace OrderbookEngine.TWAPCalculator

open SlidingWindow Transition

/-- A sample lasted until the next one. -/
def Lasted (a b : PriceSample) : Prop :=
  (a.durationNs.toNat : ℤ) = b.timestampNs.toNat - a.timestampNs.toNat

/-- The prices of the samples, each times the distance to the next. -/
def weightedSum (samples : List PriceSample) : ℚ :=
  (List.zipWith (fun a b => a.price * ((b.timestampNs.toNat : ℚ) - a.timestampNs.toNat)) samples
    samples.tail).sum

/-- The samples store their durations, and the price is their average over time. -/
structure TimeWeighted (c : TWAPCalculator) : Prop where
  durations : c.samples.IsChain Lasted
  last : ∀ back ∈ c.samples.getLast?, back.durationNs = 0
  total : ∀ front ∈ c.samples.head?, ∀ back ∈ c.samples.getLast?,
    (((c.samples.map fun s => s.durationNs.toNat).sum : ℕ) : ℤ) =
      back.timestampNs.toNat - front.timestampNs.toNat
  twap : ∀ front ∈ c.samples.head?, ∀ back ∈ c.samples.getLast?,
    c.getTwap =
      if front.timestampNs < back.timestampNs then
        weightedSum c.samples / (back.timestampNs.toNat - front.timestampNs.toNat)
      else back.price

/-- No update at the width of the window follows an update at time zero. -/
def EndsNoZero (s : SlidingWindow.Logged TWAPCalculator (ℚ × UInt64)) : Call (ℚ × UInt64) → Prop
  | .update args =>
    (∃ before ∈ s.past.getLast?, before.2 = 0) → args.2 = s.component.windowNs → args.2 = 0
  | .reset => True

/-- The samples store their durations. -/
structure Timed (samples : List PriceSample) : Prop where
  durations : samples.IsChain Lasted
  last : ∀ back ∈ samples.getLast?, back.durationNs = 0

section Samples

variable {samples rest : List PriceSample} {front back : PriceSample}

/-- The durations add up to the time between the first and the last sample. -/
theorem Timed.total (h : Timed samples) (hfront : front ∈ samples.head?)
    (hback : back ∈ samples.getLast?) :
    (((samples.map fun s => s.durationNs.toNat).sum : ℕ) : ℤ) =
      back.timestampNs.toNat - front.timestampNs.toNat := by
  induction samples generalizing front with
  | nil => cases hfront
  | cons s q ih =>
    obtain rfl : s = front := Option.some.inj hfront
    cases q with
    | nil =>
      obtain rfl : s = back := Option.some.inj hback
      have hzero := h.last s rfl
      simp [hzero]
    | cons s' q =>
      obtain ⟨hlasted, hchain⟩ := List.isChain_cons_cons.mp h.durations
      have hhead : s' ∈ (s' :: q).head? := rfl
      have hrest := ih ⟨hchain, h.last⟩ hhead hback
      simp only [Lasted] at hlasted
      simp only [List.map_cons, List.sum_cons] at hrest ⊢
      push_cast at hrest ⊢
      linarith

/-- The prices times the durations add up to the weighted sum. -/
theorem Timed.sum_price_mul (h : Timed samples) :
    (samples.map fun s => s.price * (s.durationNs.toNat : ℚ)).sum = weightedSum samples := by
  induction samples with
  | nil => rfl
  | cons s q ih =>
    cases q with
    | nil =>
      have hzero := h.last s rfl
      simp [weightedSum, hzero]
    | cons s' q =>
      obtain ⟨hlasted, hchain⟩ := List.isChain_cons_cons.mp h.durations
      have hrest := ih ⟨hchain, h.last⟩
      have hduration : (s.durationNs.toNat : ℚ) =
          s'.timestampNs.toNat - s.timestampNs.toNat := by
        have hcast := congrArg (Int.cast : ℤ → ℚ) hlasted
        push_cast at hcast
        exact hcast
      rw [List.map_cons, List.sum_cons, hrest, hduration]
      simp [weightedSum]

/-- A sum of words is the sum of their values when that fits a word. -/
theorem toNat_foldl_durations (samples : List PriceSample) (start : UInt64) :
    (samples.foldl (fun total s => total + s.durationNs) start).toNat =
      (start.toNat + (samples.map fun s => s.durationNs.toNat).sum) % 2 ^ 64 := by
  induction samples generalizing start with
  | nil => exact (Nat.mod_eq_of_lt start.toNat_lt).symm
  | cons s q ih =>
    rw [List.foldl_cons, ih, UInt64.toNat_add, List.map_cons, List.sum_cons, Nat.mod_add_mod,
      Nat.add_assoc]

theorem foldl_price_mul (samples : List PriceSample) (start : ℚ) :
    samples.foldl (fun (sum : ℚ) s => sum + s.price * s.durationNs.toNat) start =
      start + (samples.map fun s => s.price * (s.durationNs.toNat : ℚ)).sum := by
  induction samples generalizing start with
  | nil => exact (add_zero start).symm
  | cons s q ih => rw [List.foldl_cons, ih, List.map_cons, List.sum_cons, add_assoc]

/-- Samples that store their durations are averaged over time. -/
theorem Timed.timeWeighted {c : TWAPCalculator} (h : Timed c.samples) : TimeWeighted c where
  durations := h.durations
  last := h.last
  total _ hfront _ hback := h.total hfront hback
  twap front hfront back hback := by
    have htotal := h.total hfront hback
    have hfold := toNat_foldl_durations c.samples 0
    have hlt := back.timestampNs.toNat_lt
    have hvalue : (c.samples.foldl (fun (total : UInt64) s => total + s.durationNs) 0).toNat =
        back.timestampNs.toNat - front.timestampNs.toNat := by
      rw [hfold, UInt64.toNat_zero, Nat.zero_add, Nat.mod_eq_of_lt (by omega)]
      omega
    rw [getTwap, Option.mem_def.mp hback]
    simp only [foldl_price_mul, zero_add, h.sum_price_mul, ← UInt64.toNat_inj, hvalue,
      UInt64.toNat_zero, UInt64.lt_iff_toNat_lt]
    by_cases hlast : front.timestampNs.toNat < back.timestampNs.toNat
    · rw [if_neg (by omega), if_pos hlast, Nat.cast_sub hlast.le]
    · rw [if_pos (by omega), if_neg hlast]

/-- The times of stored samples go forward. -/
theorem Timed.le_last (h : Timed samples) (hback : back ∈ samples.getLast?) :
    ∀ s ∈ samples, s.timestampNs ≤ back.timestampNs := by
  induction samples with
  | nil => cases hback
  | cons s q ih =>
    cases q with
    | nil =>
      obtain rfl : s = back := Option.some.inj hback
      exact fun x hx => List.mem_singleton.mp hx ▸ UInt64.le_refl _
    | cons s' q =>
      obtain ⟨hlasted, hchain⟩ := List.isChain_cons_cons.mp h.durations
      have hrest := ih ⟨hchain, h.last⟩ hback
      refine List.forall_mem_cons.mpr ⟨UInt64.le_trans ?_ (hrest s' List.mem_cons_self), hrest⟩
      simp only [Lasted] at hlasted
      rw [UInt64.le_iff_toNat_le]
      omega

theorem Timed.expire (h : Timed samples) (cutoff : UInt64) :
    Timed (expire PriceSample.timestampNs cutoff samples) where
  durations := h.durations.suffix (expire_suffix _ _ _)
  last back hback := by
    obtain ⟨gone, hgone⟩ := expire_suffix PriceSample.timestampNs cutoff samples
    refine h.last back ?_
    rw [← hgone]
    exact List.mem_getLast?_append_of_mem_getLast? hback

theorem setBackDuration_concat (durationNs : UInt64) (rest : List PriceSample)
    (back : PriceSample) :
    setBackDuration durationNs (rest ++ [back]) =
      rest ++ [{ back with durationNs := durationNs }] := by
  induction rest with
  | nil => rfl
  | cons s q ih =>
    cases q with
    | nil => rfl
    | cons s' q => exact congrArg (s :: ·) ih

/-- Adding a sample, with the duration of the last one set. -/
theorem isChain_concat_concat (h : (rest ++ [back]).IsChain Lasted) (durationNs : UInt64)
    (new : PriceSample) :
    (rest ++ [{ back with durationNs := durationNs }] ++ [new]).IsChain Lasted ↔
      Lasted { back with durationNs := durationNs } new := by
  obtain ⟨hrest, -, hlast⟩ := List.isChain_append.mp h
  rw [List.isChain_append]
  constructor
  · exact fun hnew => hnew.2.2 _ (by simp) new rfl
  · intro hnew
    refine ⟨List.isChain_append.mpr ⟨hrest, .singleton _, ?_⟩, .singleton _, ?_⟩
    · intro x hx y hy
      obtain rfl := Option.some.inj hy
      exact hlast x hx back rfl
    · intro x hx y hy
      rw [List.getLast?_concat] at hx
      obtain rfl := Option.some.inj hx
      obtain rfl := Option.some.inj hy
      exact hnew

end Samples

/-- What updates preserve that do not pass over a sample at time zero. -/
structure Inv (s : SlidingWindow.Logged TWAPCalculator (ℚ × UInt64)) : Prop where
  timed : Timed s.component.samples
  /-- The last sample is the last update since the reset. -/
  latest : s.component.samples.getLast?.map quote = s.past.getLast?
  lastTimestamp : ∀ before ∈ s.past.getLast?, s.component.lastTimestampNs = before.2

section Run

variable {s : SlidingWindow.Logged TWAPCalculator (ℚ × UInt64)} {call : Call (ℚ × UInt64)}
  {args : ℚ × UInt64} {t : SlidingWindow.Logged TWAPCalculator (ℚ × UInt64)}

theorem inv_reset (c : TWAPCalculator) : Inv ⟨c.reset, []⟩ where
  timed := ⟨.nil, nofun⟩
  latest := rfl
  lastTimestamp := nofun

/-- An expiry leaves nothing, or a part that ends with the last update, which is then no
older than the cutoff. -/
theorem Inv.expired_cases (h : Inv s) (cutoff : UInt64) :
    expire PriceSample.timestampNs cutoff s.component.samples = [] ∨
      ∃ rest back, expire PriceSample.timestampNs cutoff s.component.samples = rest ++ [back] ∧
        cutoff ≤ back.timestampNs ∧ quote back ∈ s.past.getLast? := by
  have htimed := h.timed.expire cutoff
  rcases List.eq_nil_or_concat (expire PriceSample.timestampNs cutoff s.component.samples) with
    hnil | ⟨rest, back, hexpired⟩
  · exact Or.inl hnil
  · rw [List.concat_eq_append] at hexpired
    have hback : back ∈ (expire PriceSample.timestampNs cutoff s.component.samples).getLast? := by
      rw [hexpired, List.getLast?_concat]
      rfl
    refine Or.inr ⟨rest, back, hexpired, ?_, ?_⟩
    · have hne : expire PriceSample.timestampNs cutoff s.component.samples ≠ [] :=
        hexpired ▸ List.append_ne_nil_of_right_ne_nil rest (List.cons_ne_nil back [])
      have hhead := List.head_dropWhile_not
        (fun x : PriceSample => decide (x.timestampNs < cutoff)) hne
      have hle := htimed.le_last hback _ (List.head_mem hne)
      exact UInt64.le_trans (UInt64.not_lt.mp (of_decide_eq_false hhead)) hle
    · obtain ⟨gone, hgone⟩ := expire_suffix PriceSample.timestampNs cutoff s.component.samples
      have hlast : back ∈ s.component.samples.getLast? := by
        rw [← hgone]
        exact List.mem_getLast?_append_of_mem_getLast? hback
      rw [← h.latest, Option.mem_def.mp hlast]
      rfl

/-- A sample at time zero gets no duration. -/
theorem endLastSample_of_zero (c : TWAPCalculator) (h : c.lastTimestampNs = 0) (now : UInt64) :
    c.endLastSample now = c := by
  rw [endLastSample, if_neg]
  rintro ⟨-, hlt⟩
  rw [h] at hlt
  exact absurd hlt (UInt64.lt_irrefl 0)

theorem endLastSample_of_pos {c : TWAPCalculator} {rest : List PriceSample} {back : PriceSample}
    (hsamples : c.samples = rest ++ [back]) (h : 0 < c.lastTimestampNs) (now : UInt64) :
    (c.endLastSample now).samples =
      rest ++ [{ back with durationNs := now - c.lastTimestampNs }] := by
  rw [endLastSample, if_pos ⟨hsamples ▸ List.append_ne_nil_of_right_ne_nil rest
    (List.cons_ne_nil back []), h⟩]
  rw [hsamples, setBackDuration_concat]

/-- An update stores the duration of the sample before it. -/
theorem Inv.timed_update (h : Inv s) (henabled : windowed.Enabled s (.update args))
    (hcond : EndsNoZero s (.update args)) :
    Timed (s.component.update args.1 args.2).samples := by
  have hlast : ∀ samples : List PriceSample,
      ∀ back ∈ (samples ++ [(⟨args.1, args.2, 0⟩ : PriceSample)]).getLast?,
        back.durationNs = 0 := by
    intro samples back hback
    rw [List.getLast?_concat] at hback
    rw [← Option.some.inj hback]
  refine ⟨?_, hlast _⟩
  have hsamples : (s.component.update args.1 args.2).samples =
      ((s.component.removeExpired args.2).endLastSample args.2).samples ++
        [⟨args.1, args.2, 0⟩] := rfl
  rw [hsamples]
  rcases h.expired_cases (args.2 - s.component.windowNs) with
    hnil | ⟨rest, back, hexpired, hcutoff, hbefore⟩
  · have hkept : (s.component.removeExpired args.2).endLastSample args.2 =
        s.component.removeExpired args.2 := by
      rw [endLastSample, if_neg fun hne => hne.1 hnil]
    rw [hkept]
    show (expire PriceSample.timestampNs _ s.component.samples ++ _).IsChain Lasted
    rw [hnil]
    exact .singleton _
  · have htimed := h.timed.expire (args.2 - s.component.windowNs)
    rw [hexpired] at htimed
    have hlastTimestamp : s.component.lastTimestampNs = back.timestampNs :=
      h.lastTimestamp _ hbefore
    have hle : back.timestampNs ≤ args.2 := henabled _ (List.mem_of_mem_getLast? hbefore)
    by_cases hzero : back.timestampNs = 0
    · -- the cutoff is zero, so this update comes at the width of the window
      have hwidth : args.2 = s.component.windowNs := by
        rw [hzero, UInt64.le_zero_iff] at hcutoff
        simpa using UInt64.sub_eq_iff_eq_add.mp hcutoff
      have hnow : args.2 = 0 := hcond ⟨quote back, hbefore, hzero⟩ hwidth
      have hduration : back = { back with durationNs := 0 } := by
        rw [← htimed.last back (by simp)]
      have hkept : (s.component.removeExpired args.2).endLastSample args.2 =
          s.component.removeExpired args.2 :=
        endLastSample_of_zero (s.component.removeExpired args.2) (hlastTimestamp.trans hzero) _
      rw [hkept]
      show (expire PriceSample.timestampNs _ s.component.samples ++ _).IsChain Lasted
      rw [hexpired, hduration]
      refine (isChain_concat_concat htimed.durations 0 _).mpr ?_
      simp [Lasted, hnow, hzero]
    · rw [endLastSample_of_pos hexpired (hlastTimestamp ▸ UInt64.pos_iff_ne_zero.mpr hzero)]
      refine (isChain_concat_concat htimed.durations _ _).mpr ?_
      have hsub : (args.2 - back.timestampNs).toNat = args.2.toNat - back.timestampNs.toNat :=
        UInt64.toNat_sub_of_le _ _ hle
      have hnat := UInt64.le_iff_toNat_le.mp hle
      show ((args.2 - s.component.lastTimestampNs).toNat : ℤ) = _
      rw [hlastTimestamp, hsub]
      push_cast [Nat.cast_sub hnat]
      rfl

/-- A step that passes over no sample at time zero keeps the durations. -/
theorem Inv.step (h : Inv s) (hcond : EndsNoZero s call) (hstep : windowed.Step s call t) :
    Inv t ∧ TimeWeighted t.component := by
  obtain ⟨henabled, rfl⟩ := hstep
  cases call with
  | reset =>
    have hreset := inv_reset s.component
    exact ⟨hreset, hreset.timed.timeWeighted⟩
  | update args =>
    have htimed := h.timed_update henabled hcond
    refine ⟨⟨htimed, ?_, ?_⟩, htimed.timeWeighted⟩
    · show Option.map quote (_ ++ [_]).getLast? = (s.past ++ [args]).getLast?
      rw [List.getLast?_concat, List.getLast?_concat]
      rfl
    · intro before hbefore
      obtain rfl : args = before := Option.some.inj ((List.getLast?_concat).symm.trans hbefore)
      rfl

/-- A sample at time zero that the next update keeps has no duration. -/
theorem Inv.not_timeWeighted (h : Inv s) (hcond : ¬ EndsNoZero s call)
    (hstep : windowed.Step s call t) : ¬ TimeWeighted t.component := by
  obtain ⟨-, rfl⟩ := hstep
  cases call with
  | reset => exact absurd trivial hcond
  | update args =>
    simp only [EndsNoZero, Classical.not_imp] at hcond
    obtain ⟨⟨before, hbefore, hzero⟩, hwidth, hnow⟩ := hcond
    obtain ⟨back, hback, hquote⟩ : ∃ back ∈ s.component.samples.getLast?, quote back = before := by
      have hlatest := h.latest.trans (Option.mem_def.mp hbefore)
      exact Option.map_eq_some_iff.mp hlatest
    obtain ⟨rest, hrest⟩ := List.getLast?_eq_some_iff.mp hback
    have hexpired : (s.component.removeExpired args.2).samples = rest ++ [back] := by
      show expire _ (args.2 - s.component.windowNs) s.component.samples = rest ++ [back]
      rw [hwidth, UInt64.sub_self, expire_zero, hrest]
    have hkept : (s.component.removeExpired args.2).endLastSample args.2 =
        s.component.removeExpired args.2 :=
      endLastSample_of_zero (s.component.removeExpired args.2)
        ((h.lastTimestamp before hbefore).trans hzero) _
    intro hweighted
    have hchain : (((s.component.removeExpired args.2).endLastSample args.2).samples ++
        [(⟨args.1, args.2, 0⟩ : PriceSample)]).IsChain Lasted := hweighted.durations
    have hduration : back = { back with durationNs := 0 } := by
      rw [← h.timed.last back hback]
    have htime : back.timestampNs = 0 := by rw [← hzero, ← hquote]; rfl
    have hbefore' := h.timed.durations
    rw [hrest] at hbefore'
    rw [hkept, hexpired, hduration] at hchain
    have hlasted := (isChain_concat_concat hbefore' 0 _).mp hchain
    simp only [Lasted, htime, UInt64.toNat_zero] at hlasted
    refine hnow (UInt64.toNat_inj.mp ?_)
    rw [UInt64.toNat_zero]
    omega

/-- In runs with ordered times the price is the time-weighted average in every state
exactly as long as no update at the width of the window, unless that is zero, directly
follows an update at time zero. -/
theorem timeWeighted_iff_endsNoZero (w : UInt64)
    (tr : List (Call (ℚ × UInt64) × SlidingWindow.Logged TWAPCalculator (ℚ × UInt64)))
    (hrun : IsRun windowed.Step ⟨.construct w, []⟩ tr) :
    Throughout (fun s => TimeWeighted s.component) ⟨.construct w, []⟩ tr ↔
      Guarded EndsNoZero ⟨.construct w, []⟩ tr :=
  hrun.always_iff_guarded (Q := fun _ _ t => TimeWeighted t.component) Inv
    (fun _ _ _ hs hcond hstep => hs.step hcond hstep)
    (fun _ _ _ hs hcond hstep => hs.not_timeWeighted hcond hstep) (inv_reset (.construct w))

/-- A price at time zero, and another when the window of ten nanoseconds has passed. -/
def fromZero : List (Call (ℚ × UInt64)) := [.update (42000, 0), .update (42100, 10)]

theorem timeWeighted_iff_endsNoZero_fromZero :
    Throughout (fun s => TimeWeighted s.component) ⟨.construct 10, []⟩
        (runOf windowed.next ⟨.construct 10, []⟩ fromZero) ↔
      Guarded EndsNoZero ⟨.construct 10, []⟩ (runOf windowed.next ⟨.construct 10, []⟩ fromZero) :=
  timeWeighted_iff_endsNoZero 10 _ (isRun_runOf_of_enabled (by decide +kernel))

/-- The first price was valid all the time, and the second is returned. -/
theorem fromZero_not_timeWeighted :
    IsRun windowed.Step ⟨.construct 10, []⟩ (runOf windowed.next ⟨.construct 10, []⟩ fromZero) ∧
      ¬ Throughout (fun s => TimeWeighted s.component) ⟨.construct 10, []⟩
        (runOf windowed.next ⟨.construct 10, []⟩ fromZero) ∧
      (windowed.after (.construct 10) fromZero).samples.map quote = [(42000, 0), (42100, 10)] ∧
      (windowed.after (.construct 10) fromZero).getTwap = 42100 := by
  refine ⟨isRun_runOf_of_enabled (by decide +kernel), fun h => ?_, by decide +kernel,
    by decide +kernel⟩
  have hdurations := h.2.1.durations
  have hlasted : Lasted ⟨42000, 0, 0⟩ ⟨42100, 10, 0⟩ := List.isChain_pair.mp hdurations
  simp [Lasted] at hlasted

end Run

end OrderbookEngine.TWAPCalculator
