import OrderbookEngine.Persistence.Replayer

/-!
# Pacing

The elapsed time of the data is an unsigned difference to the first timestamp that is
not zero. It wraps around as soon as a timestamp is below that one, and the sleep is
then longer than the recording, unless it is so long that the signed nanoseconds come
out negative.
-/

namespace OrderbookEngine

open Bytes MarketDataRecorder MarketDataReplayer BinaryFormat

namespace ReplayPacing

/-- The largest of some timestamps. -/
def latest : List UInt64 → Nat
  | [] => 0
  | t :: timestamps => max t.toNat (latest timestamps)

/-- The time from the first of some timestamps to the largest. -/
def span (timestamps : List UInt64) : Nat := latest timestamps - (timestamps.headD 0).toNat

/-- A replay of any recording with these timestamps requests no sleep that is longer
than their span at its speed. -/
def NeverOversleeps (timestamps : List UInt64) (playback : Playback) : Prop :=
  ∀ updates : List RecordedUpdate, (∀ u ∈ updates, Fits u) →
    updates.map (·.timestamp) = timestamps → ∀ header locals,
      ∃ r, openFile header .binary (recordedFile updates) = some r ∧
        ∃ fuel delivered r', replay fuel locals playback r = some (delivered, r') ∧
          ∀ d ∈ delivered, ∀ ns, d.sleep = some ns →
            (ns.toInt : ℚ) ≤ span timestamps / playback.speed

/-- The first of some timestamps that is not zero. -/
def firstNonzero : List UInt64 → UInt64
  | [] => 0
  | t :: timestamps => if t = 0 then firstNonzero timestamps else t

/-- An elapsed time at a speed, in whole nanoseconds of 64 bits. -/
def atSpeed (speed : ℚ) (elapsed : Nat) : Nat := ⌊elapsed / speed⌋₊ % 2 ^ 64

/-- The real time that has passed before the update of some number. -/
def realElapsed (playback : Playback) (count : Nat) : Nat :=
  (playback.clock (count + 1) - playback.clock 0).toNat

/-- An elapsed time at a speed exceeds the real time by no more than the span, or by so much
that the signed nanoseconds are negative. -/
def Harmless (span : Nat) (speed : ℚ) (real elapsed : Nat) : Prop :=
  atSpeed speed elapsed ≤ real + span / speed ∨ real + 2 ^ 63 ≤ atSpeed speed elapsed

instance (span : Nat) (speed : ℚ) (real elapsed : Nat) :
    Decidable (Harmless span speed real elapsed) :=
  inferInstanceAs (Decidable (_ ∨ _))

/-- No timestamp after one that is not zero is below the first that is not zero, unless
the difference that wraps around does no harm. -/
def PacesForward (timestamps : List UInt64) (playback : Playback) : Prop :=
  ∀ pre last t post, timestamps = pre ++ last :: t :: post → last ≠ 0 →
    firstNonzero (pre ++ [last]) ≤ t ∨
      Harmless (span timestamps) playback.speed (realElapsed playback (pre.length + 1))
        (2 ^ 64 + t.toNat - (firstNonzero (pre ++ [last])).toNat)

section Timestamps

theorem le_latest {t : UInt64} {timestamps : List UInt64} (h : t ∈ timestamps) :
    t.toNat ≤ latest timestamps := by
  induction timestamps with
  | nil => cases h
  | cons t' timestamps ih =>
    rw [latest]
    rcases List.mem_cons.mp h with rfl | h
    · exact le_max_left _ _
    · exact (ih h).trans (le_max_right _ _)

theorem firstNonzero_concat (timestamps : List UInt64) (t : UInt64) :
    firstNonzero (timestamps ++ [t]) =
      if firstNonzero timestamps = 0 then t else firstNonzero timestamps := by
  induction timestamps with
  | nil =>
    rw [List.nil_append, firstNonzero, firstNonzero, if_pos rfl]
    split
    · rename_i h
      exact h.symm
    · rfl
  | cons t' timestamps ih =>
    rw [List.cons_append, firstNonzero, firstNonzero, ih]
    by_cases h : t' = 0
    · rw [if_pos h, if_pos h]
    · rw [if_neg h, if_neg h, if_neg h]

/-- After a timestamp that is not zero the first such timestamp stays. -/
theorem firstNonzero_ne_zero (pre : List UInt64) {last : UInt64} (h : last ≠ 0) :
    firstNonzero (pre ++ [last]) ≠ 0 := by
  rw [firstNonzero_concat]
  split
  · exact h
  · assumption

theorem head_le_firstNonzero (pre : List UInt64) (last : UInt64) (post : List UInt64) :
    ((pre ++ last :: post).headD 0).toNat ≤ (firstNonzero (pre ++ [last])).toNat := by
  cases pre with
  | nil =>
    rw [List.nil_append, List.nil_append, List.headD_cons, firstNonzero, firstNonzero]
    split
    · rename_i h
      rw [h]
    · rfl
  | cons t pre =>
    rw [List.cons_append, List.cons_append, List.headD_cons, firstNonzero]
    split
    · rename_i h
      rw [h]
      exact Nat.zero_le _
    · rfl

/-- Without a wrap the elapsed time of the data stays within the span. -/
theorem elapsed_le_span {timestamps pre post : List UInt64} {last t : UInt64}
    (h : timestamps = pre ++ last :: t :: post) (hle : firstNonzero (pre ++ [last]) ≤ t) :
    (t - firstNonzero (pre ++ [last])).toNat ≤ span timestamps := by
  have ht : t.toNat ≤ latest timestamps := le_latest (by simp [h])
  have hfirst := head_le_firstNonzero pre last (t :: post)
  rw [← h] at hfirst
  rw [UInt64.toNat_sub_of_le _ _ hle, span]
  omega

/-- The elapsed time of the data when it wraps around. -/
theorem elapsed_of_lt {start t : UInt64} (hlt : t < start) :
    (t - start).toNat = 2 ^ 64 + t.toNat - start.toNat := by
  have hstart := start.toNat_lt
  have hlt := UInt64.lt_iff_toNat_lt.mp hlt
  rw [UInt64.toNat_sub]
  omega

end Timestamps

section Sleeps

variable {speed : ℚ} {startRealTime now lastTimestamp startDataTime timestamp : UInt64}

/-- The conversion to a signed count. -/
theorem toInt_toInt64 (n : UInt64) :
    n.toInt64.toInt = if n.toNat < 2 ^ 63 then (n.toNat : Int) else n.toNat - 2 ^ 64 := by
  have hcond := BitVec.toInt_eq_toNat_cond n.toBitVec
  rw [UInt64.toNat_toBitVec] at hcond
  change n.toBitVec.toInt = _
  rw [hcond]
  split <;> split <;> omega

/-- What an elapsed time within the span leads to. -/
theorem harmless_of_le {span real elapsed : Nat} (hspeed : 0 < speed) (hle : elapsed ≤ span) :
    Harmless span speed real elapsed := by
  left
  have hmod : (atSpeed speed elapsed : ℚ) ≤ ⌊elapsed / speed⌋₊ := Nat.cast_le.mpr (Nat.mod_le _ _)
  have hfloor : (⌊elapsed / speed⌋₊ : ℚ) ≤ elapsed / speed :=
    Nat.floor_le (div_nonneg (Nat.cast_nonneg _) hspeed.le)
  have hspan : (elapsed : ℚ) / speed ≤ span / speed :=
    div_le_div_of_nonneg_right (Nat.cast_le.mpr hle) hspeed.le
  have hreal : (0 : ℚ) ≤ real := Nat.cast_nonneg real
  linarith

/-- The request before an update is within the span exactly when the elapsed time of the data
does no harm. -/
theorem sleepFor_le_iff {span : Nat} (hlast : lastTimestamp ≠ 0) (hspeed : 0 < speed) :
    (∀ ns, sleepFor speed startRealTime now lastTimestamp startDataTime timestamp = some ns →
      (ns.toInt : ℚ) ≤ span / speed) ↔
    Harmless span speed (now - startRealTime).toNat (timestamp - startDataTime).toNat := by
  have hpaced : lastTimestamp > 0 ∧ speed > 0 := ⟨UInt64.pos_iff_ne_zero.mpr hlast, hspeed⟩
  have hbound : (0 : ℚ) ≤ span / speed := div_nonneg (Nat.cast_nonneg _) hspeed.le
  simp only [sleepFor, if_pos hpaced, Harmless]
  generalize hexpected : ⌊(timestamp - startDataTime).toNat / speed⌋₊.toUInt64 = expected
  have hatSpeed : atSpeed speed (timestamp - startDataTime).toNat = expected.toNat := by
    rw [← hexpected, Nat.toUInt64_eq, UInt64.toNat_ofNat', atSpeed]
  generalize now - startRealTime = real
  rw [hatSpeed]
  have hcast : ∀ {a b : Nat}, (a : ℚ) ≤ b ↔ a ≤ b := Nat.cast_le
  split
  · rename_i hlong
    have hlt := UInt64.lt_iff_toNat_lt.mp hlong
    have hsub : (expected - real).toNat = expected.toNat - real.toNat :=
      UInt64.toNat_sub_of_le _ _ (UInt64.le_of_lt hlong)
    simp only [Option.some.injEq, forall_eq', toInt_toInt64, hsub]
    split
    · rename_i hsmall
      rw [or_iff_left (by omega), Int.cast_natCast, Nat.cast_sub hlt.le, sub_le_iff_le_add']
    · rename_i hlarge
      refine iff_of_true (le_trans ?_ hbound) (.inr (by omega))
      have hexpectedlt := expected.toNat_lt
      have hnegative : ((expected.toNat - real.toNat : Nat) : Int) - 2 ^ 64 ≤ 0 := by omega
      exact_mod_cast hnegative
  · rename_i hlate
    refine iff_of_true (fun ns hns => by cases hns) (.inl ?_)
    have hle : (expected.toNat : ℚ) ≤ real.toNat :=
      Nat.cast_le.mpr (UInt64.le_iff_toNat_le.mp (UInt64.not_lt.mp hlate))
    linarith

/-- Before the first update that follows a nonzero timestamp nothing is slept. -/
theorem sleepFor_of_last (speed : ℚ) :
    sleepFor speed startRealTime now 0 startDataTime timestamp = none := by
  rw [sleepFor, if_neg]
  rintro ⟨hlast, -⟩
  exact absurd hlast (by decide)

/-- The invocation of the callback for an update, after the ones before it. -/
def deliveryAfter (playback : Playback) (done : List RecordedUpdate) (update : RecordedUpdate) :
    Delivery :=
  ⟨sleepFor playback.speed (playback.clock 0) (playback.clock (done.length + 1))
    ((done.map (·.timestamp)).getLastD 0)
    (firstNonzero ((done ++ [update]).map (·.timestamp))) update.timestamp, update⟩

/-- The replay of an update depends on the updates before it. -/
theorem mem_paced (playback : Playback) {d : Delivery} (done updates : List RecordedUpdate) :
    d ∈ paced playback done.length ((done.map (·.timestamp)).getLastD 0)
        (firstNonzero (done.map (·.timestamp))) updates ↔
      ∃ pre update post, updates = pre ++ update :: post ∧
        d = deliveryAfter playback (done ++ pre) update := by
  induction updates generalizing done with
  | nil => simp [paced]
  | cons update updates ih =>
    have hdone := ih (done ++ [update])
    rw [List.map_append, List.map_singleton, List.getLastD_concat, firstNonzero_concat,
      List.length_append, List.length_singleton] at hdone
    rw [paced, List.mem_cons, hdone]
    constructor
    · rintro (rfl | ⟨pre, update', post, rfl, rfl⟩)
      · refine ⟨[], update, updates, rfl, ?_⟩
        rw [List.append_nil, deliveryAfter, List.map_append, List.map_singleton,
          firstNonzero_concat]
      · exact ⟨update :: pre, update', post, rfl, by rw [← List.append_cons]⟩
    · rintro ⟨pre, update', post, hsplit, rfl⟩
      rcases List.cons_eq_append_iff.mp hsplit with ⟨rfl, h⟩ | ⟨pre', rfl, rfl⟩
      · left
        obtain ⟨rfl, rfl⟩ := List.cons_eq_cons.mp h
        rw [List.append_nil, deliveryAfter, List.map_append, List.map_singleton,
          firstNonzero_concat]
      · exact Or.inr ⟨pre', update', post, rfl, by rw [List.append_cons]⟩

end Sleeps

section Recordings

variable {timestamps : List UInt64}

theorem map_timestamp_emptyRecord (timestamps : List UInt64) :
    (timestamps.map emptyRecord).map (·.timestamp) = timestamps := by
  rw [List.map_map]
  exact List.map_id timestamps

/-- What is slept before the update that follows some others. -/
theorem sleep_deliveryAfter (playback : Playback) {done : List RecordedUpdate} {pre : List UInt64}
    {last : UInt64} (hdone : done.map (·.timestamp) = pre ++ [last]) (hlast : last ≠ 0)
    (update : RecordedUpdate) :
    (deliveryAfter playback done update).sleep =
      sleepFor playback.speed (playback.clock 0) (playback.clock (pre.length + 1 + 1)) last
        (firstNonzero (pre ++ [last])) update.timestamp := by
  have hlength : done.length = pre.length + 1 := by
    have hsame := congrArg List.length hdone
    rwa [List.length_map, List.length_append, List.length_singleton] at hsame
  have hstart : firstNonzero (pre ++ [last] ++ [update.timestamp]) =
      firstNonzero (pre ++ [last]) := by
    rw [firstNonzero_concat, if_neg (firstNonzero_ne_zero pre hlast)]
  rw [deliveryAfter, List.map_append, hdone, List.getLastD_concat, List.map_singleton, hstart,
    hlength]

/-- The requests before the update that follows some others are within the span. -/
theorem sleep_deliveryAfter_le_iff {playback : Playback} (hspeed : 0 < playback.speed)
    {done : List RecordedUpdate} {pre post : List UInt64} {last : UInt64} {update : RecordedUpdate}
    (hsplit : timestamps = pre ++ last :: update.timestamp :: post)
    (hdone : done.map (·.timestamp) = pre ++ [last]) (hlast : last ≠ 0) :
    (∀ ns, (deliveryAfter playback done update).sleep = some ns →
      (ns.toInt : ℚ) ≤ span timestamps / playback.speed) ↔
    (firstNonzero (pre ++ [last]) ≤ update.timestamp ∨
      Harmless (span timestamps) playback.speed (realElapsed playback (pre.length + 1))
        (2 ^ 64 + update.timestamp.toNat - (firstNonzero (pre ++ [last])).toNat)) := by
  rw [sleep_deliveryAfter playback hdone hlast, sleepFor_le_iff hlast hspeed]
  rcases UInt64.le_or_lt (firstNonzero (pre ++ [last])) update.timestamp with hle | hlt
  · exact iff_of_true (harmless_of_le hspeed (elapsed_le_span hsplit hle)) (.inl hle)
  · rw [or_iff_right (UInt64.not_le.mpr hlt), elapsed_of_lt hlt]
    rfl

/-- A timestamp that falls behind and does harm makes the replay sleep too long. -/
theorem pacesForward_of_neverOversleeps {playback : Playback} (hspeed : 0 < playback.speed)
    (h : NeverOversleeps timestamps playback) : PacesForward timestamps playback := by
  intro pre last t post hsplit hlast
  have hfits : ∀ u ∈ timestamps.map emptyRecord, Fits u := by
    intro u hu
    obtain ⟨t', -, rfl⟩ := List.mem_map.mp hu
    exact fits_emptyRecord t'
  obtain ⟨r, hr, fuel, delivered, r', hout, hbound⟩ := h _ hfits (map_timestamp_emptyRecord _)
    default (fun _ => default)
  obtain ⟨r₀, hr₀, fuel₀, r₀', hout₀⟩ :=
    replay_recording hfits default (fun _ => default) playback
  obtain rfl : r = r₀ := Option.some.inj (hr.symm.trans hr₀)
  obtain rfl : delivered = _ := congrArg Prod.fst (replay_unique hout hout₀)
  have hrecords : (timestamps.map emptyRecord).map content =
      (pre ++ [last]).map emptyRecord ++ emptyRecord t :: post.map emptyRecord := by
    rw [List.map_map, hsplit, List.append_cons, List.map_append, List.map_cons]
    rfl
  have hmem := (mem_paced playback [] _).mpr ⟨_, _, _, hrecords, rfl⟩
  have hdone : ((pre ++ [last]).map emptyRecord).map (·.timestamp) = pre ++ [last] :=
    map_timestamp_emptyRecord _
  exact (sleep_deliveryAfter_le_iff hspeed hsplit hdone hlast).mp (hbound _ hmem)

theorem neverOversleeps_of_pacesForward {playback : Playback} (hspeed : 0 < playback.speed)
    (h : PacesForward timestamps playback) : NeverOversleeps timestamps playback := by
  intro updates hfits htimestamps header locals
  obtain ⟨r, hr, fuel, r', hout⟩ := replay_recording hfits header locals playback
  refine ⟨r, hr, fuel, _, r', hout, ?_⟩
  intro d hd
  obtain ⟨pre, update, post, hsplit, rfl⟩ := (mem_paced playback [] (updates.map content)).mp hd
  rw [List.nil_append]
  rcases List.eq_nil_or_concat' pre with rfl | ⟨pre, previous, rfl⟩
  · intro ns hns
    rw [deliveryAfter, List.map_nil, List.getLastD_nil, sleepFor_of_last] at hns
    cases hns
  · by_cases hlast : previous.timestamp = 0
    · intro ns hns
      rw [deliveryAfter, List.map_append, List.map_singleton, List.getLastD_concat, hlast,
        sleepFor_of_last] at hns
      cases hns
    · have hcontent : timestamps = pre.map (·.timestamp) ++
          previous.timestamp :: update.timestamp :: post.map (·.timestamp) := by
        have hmap : (updates.map content).map (·.timestamp) = timestamps := by
          rw [List.map_map, ← htimestamps]
          rfl
        rw [← hmap, hsplit]
        simp
      have hdone : (pre ++ [previous]).map (·.timestamp) =
          pre.map (·.timestamp) ++ [previous.timestamp] := by simp
      exact (sleep_deliveryAfter_le_iff hspeed hcontent hdone hlast).mpr (h _ _ _ _ hcontent hlast)

/-- No replay of a recording at a speed sleeps longer than the span of its timestamps exactly
when no timestamp falls behind the first one that is not zero and does harm. -/
theorem neverOversleeps_iff {playback : Playback} (hspeed : 0 < playback.speed) :
    NeverOversleeps timestamps playback ↔ PacesForward timestamps playback :=
  ⟨pacesForward_of_neverOversleeps hspeed, neverOversleeps_of_pacesForward hspeed⟩

/-- The last timestamp is below the first, and the sleep that it asks for is negative. -/
theorem neverOversleeps_iff_behind : NeverOversleeps [5, 7, 6, 4] ⟨1, fun _ => 0⟩ := by
  refine (neverOversleeps_iff one_pos).mpr ?_
  rintro (_ | ⟨a, _ | ⟨b, _ | ⟨c, pre⟩⟩⟩) last t post hsplit -
  · obtain ⟨rfl, rfl, -⟩ := by simpa using hsplit
    exact .inl (by decide)
  · obtain ⟨rfl, rfl, rfl, -⟩ := by simpa using hsplit
    exact .inl (by decide)
  · obtain ⟨rfl, rfl, rfl, rfl, -⟩ := by simpa using hsplit
    exact .inr (.inr (by decide +kernel))
  · have hlength := congrArg List.length hsplit
    simp only [List.length_cons, List.length_append, List.length_nil] at hlength
    omega

/-- A timestamp below the first. -/
theorem neverOversleeps_fails : ¬ NeverOversleeps [2, 1] ⟨4, fun _ => 0⟩ := by
  intro h
  have hspeed : (0 : ℚ) < 4 := by norm_num
  obtain hle | hharmless := pacesForward_of_neverOversleeps hspeed h [] 2 1 [] rfl (by decide)
  · exact absurd hle (by decide)
  · exact absurd hharmless (by decide +kernel)

/-- At every speed and with every clock no replay sleeps too long exactly when no timestamp falls
behind the first one that is not zero, unless the difference that wraps around fits the span. -/
theorem neverOversleeps_always_iff :
    (∀ playback, 0 < playback.speed → NeverOversleeps timestamps playback) ↔
      ∀ pre last t post, timestamps = pre ++ last :: t :: post → last ≠ 0 →
        firstNonzero (pre ++ [last]) ≤ t ∨
          2 ^ 64 + t.toNat - (firstNonzero (pre ++ [last])).toNat ≤ span timestamps := by
  constructor
  · intro h pre last t post hsplit hlast
    refine or_iff_not_imp_left.mpr fun hbehind => ?_
    generalize hstart : firstNonzero (pre ++ [last]) = start at hbehind ⊢
    have hstartlt := start.toNat_lt
    set elapsed := 2 ^ 64 + t.toNat - start.toNat with helapsed
    -- at this speed the difference is one nanosecond
    have hspeed : (0 : ℚ) < elapsed := by exact_mod_cast (show 0 < elapsed by omega)
    have hforward := pacesForward_of_neverOversleeps hspeed (h ⟨elapsed, fun _ => 0⟩ hspeed)
      pre last t post hsplit hlast
    rw [hstart] at hforward
    have hone : atSpeed elapsed elapsed = 1 := by
      rw [atSpeed, div_self hspeed.ne', Nat.floor_one, Nat.mod_eq_of_lt (by decide)]
    have hstill : realElapsed ⟨elapsed, fun _ => 0⟩ (pre.length + 1) = 0 := by
      rw [realElapsed, UInt64.sub_self, UInt64.toNat_zero]
    obtain hle | hsmall | hlarge := hforward
    · exact absurd hle hbehind
    · rw [hone, hstill, Nat.cast_one, Nat.cast_zero, zero_add, one_le_div hspeed] at hsmall
      exact_mod_cast hsmall
    · rw [hone, hstill] at hlarge
      omega
  · intro h playback hspeed
    refine neverOversleeps_of_pacesForward hspeed fun pre last t post hsplit hlast => ?_
    exact (h pre last t post hsplit hlast).imp_right (harmless_of_le hspeed)

end Recordings

end ReplayPacing

end OrderbookEngine
