import Mathlib.Algebra.GroupWithZero.Nat
import MetricFanout.Telemetry.Bucket
/-!
# Latency buckets are exact

The bounds of buckets are words, and a bound that does not fit loses its high bits. No latency notices: the
longest duration ends in a bucket whose bounds are far below the first one that does not fit. So the bucket of a
duration is the one that exact bounds ask for, however many buckets there are, and its label shows these bounds.

Buckets are tried in order, and the first with a bound above the latency is taken. What a wrapped bound would do
is of no interest as long as the search has stopped before it.
-/

namespace MetricFanout

/-- A duration: seconds of 64 bits, and nanoseconds of the next one. -/
structure Duration where
  secs : UInt64
  nanos : Nat
  nanos_lt : nanos < 1000000000

namespace Duration

/-- The whole milliseconds. -/
def millis (d : Duration) : Nat := Bucket.millis d.secs.toNat d.nanos

/-- One duration is not longer than another one. -/
instance : LE Duration := ⟨fun d e => d.secs < e.secs ∨ (d.secs = e.secs ∧ d.nanos ≤ e.nanos)⟩

theorem millis_lt (d : Duration) : d.millis < 1000 * 2 ^ 64 := by
  have hsecs := d.secs.toNat_lt
  have hnanos := d.nanos_lt
  rw [millis, Bucket.millis]
  omega

theorem millis_le {d e : Duration} (h : d ≤ e) : d.millis ≤ e.millis := by
  refine Nat.div_le_div_right ?_
  rcases h with hsecs | ⟨hsecs, hnanos⟩
  · have hless := UInt64.lt_iff_toNat_lt.1 hsecs
    have hd := d.nanos_lt
    omega
  · rw [hsecs]
    exact Nat.add_le_add_left hnanos _

end Duration

namespace Bucket

variable {ms ms' buckets i j : Nat}

/-! ## Bounds -/

/-- No bits of a bound are lost below index 123. -/
theorem upper_eq_of_lt (h : i < 123) : upper i = 50 * 2 ^ i := by
  have hfit : 50 * 2 ^ i < words :=
    calc 50 * 2 ^ i
        ≤ 50 * 2 ^ 122 := Nat.mul_le_mul_left _ (Nat.pow_le_pow_right (by decide) (by omega))
      _ < words := by decide
  have hwidth : i < width := Nat.lt_trans h (by decide)
  rw [upper, if_pos hwidth, Nat.shiftLeft_eq, base, Nat.mod_eq_of_lt hfit]

/-! ## The search -/

theorem find_le (ms : Nat) : ∀ count i : Nat, find ms count i ≤ i + count
  | 0, i => Nat.le_refl i
  | count + 1, i => by
      have hrest := find_le ms count (i + 1)
      rw [find]
      split
      · omega
      · omega

/-- The buckets before the one that is found end at the latency or before it. -/
theorem upper_le_of_lt_find (ms : Nat) : ∀ {count i k : Nat}, i ≤ k → k < find ms count i → upper k ≤ ms
  | 0, i, k, hk, hfound => absurd hfound (Nat.not_lt.2 hk)
  | count + 1, i, k, hk, hfound => by
      rw [find] at hfound
      split at hfound
      · exact absurd hfound (Nat.not_lt.2 hk)
      · rename_i hbelow
        rcases Nat.eq_or_lt_of_le hk with rfl | hk
        · exact Nat.not_lt.1 hbelow
        · exact upper_le_of_lt_find ms hk hfound

/-- The bucket that is found ends behind the latency, unless there is none. -/
theorem lt_upper_find (ms : Nat) : ∀ {count i : Nat}, find ms count i < i + count → ms < upper (find ms count i)
  | 0, i, hfound => absurd hfound (Nat.lt_irrefl i)
  | count + 1, i, hfound => by
      rw [find] at hfound ⊢
      split
      · assumption
      · rename_i hbelow
        rw [if_neg hbelow] at hfound
        exact lt_upper_find ms (by omega)

/-! ## The bucket of a latency -/

/-- A bucket is the one of a latency by exact bounds. The last one has no upper bound. -/
structure Covers (buckets ms i : Nat) : Prop where
  le : i ≤ buckets
  below : i < buckets → ms < 50 * 2 ^ i
  above : 0 < i → 50 * 2 ^ (i - 1) ≤ ms

/-- A latency that is not longer is in a bucket that is not behind. -/
theorem Covers.le_of_le (h : Covers buckets ms i) (h' : Covers buckets ms' j) (hms : ms ≤ ms') : i ≤ j := by
  refine Nat.le_of_not_lt fun hij => ?_
  have hbelow := h'.below (Nat.lt_of_lt_of_le hij h.le)
  have habove := h.above (by omega)
  have hpow : 50 * 2 ^ j ≤ 50 * 2 ^ (i - 1) := Nat.mul_le_mul_left _ (Nat.pow_le_pow_right (by decide) (by omega))
  omega

/-- The last bucket is that of the latencies from its lower bound on. -/
theorem Covers.eq_last_iff (h : Covers buckets ms i) :
    i = buckets ↔ buckets = 0 ∨ 50 * 2 ^ (buckets - 1) ≤ ms := by
  constructor
  · rintro rfl
    exact (Nat.eq_zero_or_pos i).imp_right h.above
  · intro hlast
    refine Nat.le_antisymm h.le ?_
    have hcovers : Covers buckets ms buckets :=
      ⟨Nat.le_refl _, fun hlt => absurd hlt (Nat.lt_irrefl _), fun hpos => hlast.resolve_left (Nat.ne_of_gt hpos)⟩
    exact hcovers.le_of_le h (Nat.le_refl _)

/-- The search ends before the bounds that lose bits. -/
theorem ofMillis_lt (hms : ms < 1000 * 2 ^ 64) : ofMillis ms buckets < 70 := by
  -- behind bucket 69 its bound has been passed, which is longer than any latency
  refine Nat.lt_of_not_le fun hfar => ?_
  have hpassed : upper 69 ≤ ms := upper_le_of_lt_find ms (Nat.zero_le _) hfar
  rw [upper_eq_of_lt (by decide)] at hpassed
  omega

/-- The bucket of a latency is the one by exact bounds. -/
theorem covers_ofMillis (hms : ms < 1000 * 2 ^ 64) : Covers buckets ms (ofMillis ms buckets) := by
  have hsmall : ofMillis ms buckets < 70 := ofMillis_lt hms
  refine ⟨Nat.le_trans (find_le ms buckets 0) (Nat.le_of_eq (Nat.zero_add _)), fun hlt => ?_, fun hpos => ?_⟩
  · rw [← upper_eq_of_lt (by omega)]
    exact lt_upper_find ms (by rwa [Nat.zero_add])
  · rw [← upper_eq_of_lt (by omega)]
    exact upper_le_of_lt_find ms (Nat.zero_le _) (Nat.sub_one_lt_of_lt hpos)

/-! ## Labels -/

/-- The numbers in a text: what its runs of decimal digits denote. -/
def numbersIn (s : List Char) : List Nat :=
  ((s.splitOnP fun c => !c.isDigit).filter fun ds => !ds.isEmpty).map fun ds => Nat.ofDigitChars 10 ds 0

theorem numbersIn_nil : numbersIn [] = [] := rfl

/-- Digits up to a character that is not one are a number. -/
theorem numbersIn_digits {ds s : List Char} {c : Char} (hds : ∀ d ∈ ds, d.isDigit = true) (hne : ds ≠ [])
    (hc : c.isDigit = false) : numbersIn (ds ++ c :: s) = Nat.ofDigitChars 10 ds 0 :: numbersIn s := by
  have hsplit : (ds ++ c :: s).splitOnP (fun c => !c.isDigit) = ds :: s.splitOnP fun c => !c.isDigit :=
    List.splitOnP_append_cons_of_forall_mem (fun d hd => by simp [hds d hd]) c (by simp [hc]) s
  simp [numbersIn, hsplit, hne]

theorem numbersIn_cons {s : List Char} {c : Char} (hc : c.isDigit = false) : numbersIn (c :: s) = numbersIn s := by
  have hsplit : ([] ++ c :: s).splitOnP (fun c => !c.isDigit) = [] :: s.splitOnP fun c => !c.isDigit :=
    List.splitOnP_append_cons_of_forall_mem (List.forall_mem_nil _) c (by simp [hc]) s
  rw [List.nil_append] at hsplit
  simp [numbersIn, hsplit]

/-- A padded number is zeros and digits. -/
theorem toList_padded (n : Nat) :
    (padded n).toList = List.replicate (5 - (Nat.toDigits 10 n).length) '0' ++ Nat.toDigits 10 n := by
  simp [padded, String.toList_ofList]

/-- A padded number is read back. -/
theorem numbersIn_padded {s : List Char} {c : Char} (n : Nat) (hc : c.isDigit = false) :
    numbersIn ((padded n).toList ++ c :: s) = n :: numbersIn s := by
  have hdigits : ∀ d ∈ (padded n).toList, d.isDigit = true := by
    intro d hd
    rw [toList_padded] at hd
    rcases List.mem_append.1 hd with hzero | hdigit
    · rw [List.eq_of_mem_replicate hzero]
      rfl
    · exact Nat.isDigit_of_mem_toDigits (by decide) (by decide) hdigit
  have hne : (padded n).toList ≠ [] := by simp [toList_padded]
  have hvalue : Nat.ofDigitChars 10 (padded n).toList 0 = n := by
    rw [toList_padded, Nat.ofDigitChars_append, Nat.ofDigitChars_replicate_zero, Nat.mul_zero,
      Nat.ofDigitChars_ten_toDigits]
  rw [numbersIn_digits hdigits hne hc, hvalue]

/-- A label shows the bounds of its bucket. -/
theorem numbersIn_label (i : Nat) :
    numbersIn (label i).toList = [if i = 0 then 0 else upper (i - 1), upper i] := by
  have hbetween : "ms_to_".toList = ['m', 's', '_', 't', 'o', '_'] := rfl
  have hunit : "ms".toList = ['m', 's'] := rfl
  simp only [label, String.toList_append, hbetween, hunit, List.append_assoc, List.cons_append, List.nil_append]
  rw [numbersIn_padded _ rfl]
  iterate 5 rw [numbersIn_cons rfl]
  rw [numbersIn_padded _ rfl, numbersIn_cons rfl, numbersIn_nil]

/-! ## Durations -/

/-- **Buckets are exact.** However long a duration is and however many buckets there are, its bucket is the only
one whose exact bounds are around the milliseconds. It is the last one exactly from the lower bound of that on,
and it does not fall as durations grow. The label of any other one shows its exact bounds. -/
theorem bucket_exact (d : Duration) (buckets : Nat) :
    let i := ofMillis d.millis buckets
    (∀ j, Covers buckets d.millis j ↔ j = i) ∧
      (i = buckets ↔ buckets = 0 ∨ 50 * 2 ^ (buckets - 1) ≤ d.millis) ∧
      (∀ e : Duration, d ≤ e → i ≤ ofMillis e.millis buckets) ∧
      (i < buckets → numbersIn (label i).toList = [if i = 0 then 0 else 50 * 2 ^ (i - 1), 50 * 2 ^ i] ∧
        (if i = 0 then 0 else 50 * 2 ^ (i - 1)) ≤ d.millis ∧ d.millis < 50 * 2 ^ i) := by
  intro i
  have hcovers : Covers buckets d.millis i := covers_ofMillis d.millis_lt
  have hsmall : i < 70 := ofMillis_lt d.millis_lt
  refine ⟨fun j => ⟨fun hj => ?_, fun hj => hj ▸ hcovers⟩, hcovers.eq_last_iff, fun e he => ?_, fun hlt => ?_⟩
  · exact Nat.le_antisymm (hj.le_of_le hcovers (Nat.le_refl _)) (hcovers.le_of_le hj (Nat.le_refl _))
  · exact hcovers.le_of_le (covers_ofMillis e.millis_lt) (Duration.millis_le he)
  · refine ⟨?_, ?_, hcovers.below hlt⟩
    · rw [numbersIn_label, upper_eq_of_lt (by omega), upper_eq_of_lt (by omega)]
    · split
      · exact Nat.zero_le _
      · exact hcovers.above (by omega)

/-- The longest duration is in bucket 69 of 200, and the label of that is right. -/
theorem bucket_exact_longest :
    let d : Duration := ⟨18446744073709551615, 999999999, by decide⟩
    ofMillis d.millis 200 = 69 ∧ numbersIn (label 69).toList = [50 * 2 ^ 68, 50 * 2 ^ 69] := by
  intro d
  have hbucket : ofMillis d.millis 200 = 69 := by decide +kernel
  have hlabel := ((bucket_exact d 200).2.2.2 (by rw [hbucket]; decide)).1
  rw [hbucket] at hlabel
  exact ⟨hbucket, hlabel⟩

end Bucket

end MetricFanout
