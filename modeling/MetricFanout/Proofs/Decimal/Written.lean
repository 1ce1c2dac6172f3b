import Mathlib.Data.List.DropRight
import MetricFanout.Decimal.Numeral
/-!
# Numerals that are written

The numerals that are written for integers and for finite values are well formed: digits are decimal, a whole
part is a lone zero or does not start with one, and a fraction or an exponent has at least one digit. The
numeral of an integer denotes that integer.

The shortest digits of a value never start with a zero: a grid point that is found for a positive value lies
in its interval, which zero does not. The digits of zero are written as they are and not searched for.
-/

namespace MetricFanout

/-- Decimal digits, at least one. -/
def IsDigits (ds : List Nat) : Prop := ds ≠ [] ∧ ∀ d ∈ ds, d < 10

/-- Decimal digits, at least one, of which the first is not zero. -/
structure IsLeading (ds : List Nat) : Prop where
  digits : IsDigits ds
  head : ds.head? ≠ some 0

theorem IsDigits.cons {d : Nat} {ds : List Nat} (hd : d < 10) (h : ∀ e ∈ ds, e < 10) :
    IsDigits (d :: ds) :=
  ⟨List.cons_ne_nil _ _, List.forall_mem_cons.2 ⟨hd, h⟩⟩

theorem isDigits_zero : IsDigits [0] := .cons (by decide) (by simp)

/-! ## Digits of a number -/

namespace Shortest

/-- The digits of a positive number are the last one behind those of its tenth. -/
theorem digitsOf_eq {n : Nat} (h : n ≠ 0) : digitsOf n = digitsOf (n / 10) ++ [n % 10] := by
  rw [digitsOf, if_neg h]

theorem digitsOf_zero : digitsOf 0 = [] := by rw [digitsOf, if_pos rfl]

/-- The digits of a positive number are decimal and do not start with a zero. -/
theorem isLeading_digitsOf {n : Nat} (h : n ≠ 0) : IsLeading (digitsOf n) := by
  induction n using Nat.strongRecOn with
  | ind n ih =>
      rw [digitsOf_eq h]
      by_cases hsmall : n / 10 = 0
      · have hn : n % 10 = n := by omega
        rw [hsmall, digitsOf_zero, List.nil_append, hn]
        exact ⟨.cons (by omega) (by simp), by simpa using h⟩
      · obtain ⟨⟨hne, hlt⟩, hhead⟩ := ih (n / 10) (by omega) hsmall
        refine ⟨⟨by simp, ?_⟩, ?_⟩
        · intro d hd
          rcases List.mem_append.1 hd with hd | hd
          · exact hlt d hd
          · rw [List.mem_singleton.1 hd]; omega
        · rwa [List.head?_append_of_ne_nil _ hne]

theorem valueOf_digitsOf (n : Nat) : Numeral.valueOf (digitsOf n) = n := by
  induction n using Nat.strongRecOn with
  | ind n ih =>
      by_cases h : n = 0
      · rw [h, digitsOf_zero]; rfl
      · have hfront := ih (n / 10) (by omega)
        rw [Numeral.valueOf] at hfront ⊢
        rw [digitsOf_eq h, List.foldl_append, hfront]
        simp only [List.foldl_cons, List.foldl_nil]
        omega

/-! ## Shortest digits -/

/-- A decimal whose digits are decimal and do not start with a zero. -/
abbrev Decimal.Proper (d : Decimal) : Prop := IsLeading d.digits

/-- Without the zeros at its end a number has still the same first digit. -/
theorem isLeading_dropZeros {ds : List Nat} (h : IsLeading ds) :
    IsLeading (ds.reverse.dropWhile (· = 0)).reverse := by
  obtain ⟨⟨hne, hlt⟩, hhead⟩ := h
  change IsLeading (ds.rdropWhile (· = 0))
  have hfront : ds.rdropWhile (· = 0) <+: ds := List.rdropWhile_prefix _ _
  cases ds with
  | nil => exact absurd rfl hne
  | cons d rest =>
      have hd : d ≠ 0 := by simpa using hhead
      have hkept : (d :: rest).rdropWhile (· = 0) ≠ [] := fun hnil =>
        hd (by simpa using List.rdropWhile_eq_nil_iff.1 hnil d List.mem_cons_self)
      refine ⟨⟨hkept, fun e he => hlt e (hfront.subset he)⟩, ?_⟩
      obtain ⟨behind, hsplit⟩ := hfront
      rw [← List.head?_append_of_ne_nil _ hkept, hsplit]
      exact hhead

/-- Zero is in no interval whose lower end is positive. -/
theorem Interval.not_holds_zero {i : Interval} {den : Nat} (hlow : 0 < i.low) (hunit : 0 < i.unitNum)
    (hden : 0 < den) (num : Nat) : i.holds 0 num den = false := by
  have hpos : 0 < i.low * i.unitNum * den := Nat.mul_pos (Nat.mul_pos hlow hunit) hden
  rw [Interval.holds]
  simp only [Nat.zero_mul]
  split
  · simp only [Bool.and_eq_false_iff, decide_eq_false_iff_not]
    exact .inl (by omega)
  · simp only [Bool.and_eq_false_iff, decide_eq_false_iff_not]
    exact .inl (by omega)

theorem onGrid_ne_zero {i : Interval} {p : Int} {d : Nat} (hlow : 0 < i.low) (hunit : 0 < i.unitNum)
    (h : onGrid i p = some d) : d ≠ 0 := by
  have hden : 0 < if 0 ≤ p then 1 else Nat.pow 10 (-p).toNat := by
    split
    · exact Nat.one_pos
    · exact Nat.pow_pos (by decide)
  have hzero := Interval.not_holds_zero hlow hunit hden (if 0 ≤ p then Nat.pow 10 p.toNat else 1)
  rintro rfl
  unfold onGrid at h
  dsimp only at h
  generalize (if 0 ≤ p then Nat.pow 10 p.toNat else 1) = num at hzero h
  generalize (if 0 ≤ p then 1 else Nat.pow 10 (-p).toNat) = den at hzero h
  -- in every case the point below is zero and was hit, or a successor is zero
  split at h
  · rename_i hboth
    rw [Bool.and_eq_true] at hboth
    split at h
    · rw [Option.some.inj h, hzero] at hboth
      exact absurd hboth.1 (by decide)
    · exact absurd (Option.some.inj h) (Nat.succ_ne_zero _)
  · split at h
    · rename_i hbelow
      rw [Option.some.inj h, hzero] at hbelow
      exact absurd hbelow (by decide)
    · split at h
      · exact absurd (Option.some.inj h) (Nat.succ_ne_zero _)
      · exact absurd h (by simp)

theorem proper_search {i : Interval} {scale : Int} {fuel n : Nat} {d : Decimal} (hlow : 0 < i.low)
    (hunit : 0 < i.unitNum) (h : search i scale fuel n = some d) : d.Proper := by
  induction fuel generalizing n with
  | zero => exact absurd h (by simp [search])
  | succ fuel ih =>
      rw [search] at h
      split at h
      · rename_i found hfound
        rw [← Option.some.inj h]
        exact isLeading_dropZeros (isLeading_digitsOf (onGrid_ne_zero hlow hunit hfound))
      · exact ih h

theorem hidden_pos (f : BinaryFormat) : 0 < f.hidden := Nat.pow_pos (by decide)

/-- The significand of a positive code is positive. -/
theorem parts_pos {f : BinaryFormat} {code : Nat} (h : code ≠ 0) : 0 < (f.parts code).1 := by
  have hhidden := hidden_pos f
  unfold BinaryFormat.parts
  simp only
  split
  · rename_i hfield
    rw [Nat.mod_eq_of_lt ((Nat.div_eq_zero_iff_lt hhidden).1 hfield)]
    exact Nat.pos_of_ne_zero h
  · exact Nat.lt_of_lt_of_le hhidden (Nat.le_add_right _ _)

theorem scaled_pos (e : Int) : 0 < (BinaryFormat.scaled 1 e).1 := by
  unfold BinaryFormat.scaled
  split
  · exact Nat.mul_pos Nat.one_pos (Nat.pow_pos (by decide))
  · exact Nat.one_pos

/-- The shortest decimal of a positive code is proper. -/
theorem proper_ofCode {f : BinaryFormat} {code : Nat} {d : Decimal} (hcode : code ≠ 0)
    (h : ofCode f code = some d) : d.Proper := by
  have hpos : 0 < (f.parts code).1 := parts_pos hcode
  refine proper_search (i := Interval.of f (f.parts code).1 (f.parts code).2) ?_ (scaled_pos _) h
  unfold Interval.of
  dsimp only
  split <;> omega

end Shortest

/-! ## Numerals -/

namespace Numeral

/-- A numeral as it may be written. -/
structure Written (n : Numeral) : Prop where
  whole : IsDigits n.whole
  /-- A whole part that starts with a zero is a lone zero. -/
  lead : n.whole.head? = some 0 → n.whole = [0]
  fraction : ∀ ds ∈ n.fraction, IsDigits ds
  exponent : ∀ x ∈ n.exponent, IsDigits x.2

theorem isDigits_digitsOf (n : Nat) : IsDigits (digitsOf n) := by
  rw [digitsOf]
  split
  · exact isDigits_zero
  · rename_i h
    exact (Shortest.isLeading_digitsOf h).digits

theorem valueOf_digitsOf (n : Nat) : valueOf (digitsOf n) = n := by
  rw [digitsOf]
  split
  · rename_i h
    rw [h]
    rfl
  · exact Shortest.valueOf_digitsOf n

theorem written_ofInt (i : Int) : (ofInt i).Written where
  whole := isDigits_digitsOf i.natAbs
  lead h := by
    change (digitsOf i.natAbs).head? = some 0 at h
    change digitsOf i.natAbs = [0]
    rw [digitsOf] at h ⊢
    split
    · rfl
    · rename_i hne
      rw [if_neg hne] at h
      exact absurd h (Shortest.isLeading_digitsOf hne).head
  fraction ds h := by cases h
  exponent x h := by cases h

/-- The numeral of an integer denotes it. -/
theorem toInt?_ofInt (i : Int) : (ofInt i).toInt? = some i := by
  rw [ofInt, toInt?]
  simp only [Option.isSome_none, Bool.or_self, Bool.false_eq_true, if_false, valueOf_digitsOf,
    decide_eq_true_eq, Int.natAbs_eq_zero]
  split
  · rw [if_neg (by omega), Option.some_inj]
    omega
  · rw [Option.some_inj]
    omega

theorem isDigits_fill {ds : List Nat} (h : IsDigits ds) (n : Nat) :
    IsDigits (List.replicate n 0 ++ ds) := by
  refine ⟨by simp [h.1], fun d hd => ?_⟩
  rcases List.mem_append.1 hd with hd | hd
  · rw [List.eq_of_mem_replicate hd]
    decide
  · exact h.2 d hd

/-- Digits behind others, or a zero in their place. -/
theorem isDigits_orZero {ds : List Nat} (h : ∀ d ∈ ds, d < 10) :
    IsDigits (if ds.isEmpty then [0] else ds) := by
  split
  · exact isDigits_zero
  · rename_i hne
    exact ⟨by simpa using hne, h⟩

/-- A proper decimal is laid out as a numeral may be written. -/
theorem written_numeral (l : Layout) (negative : Bool) {d : Shortest.Decimal} (h : d.Proper) :
    (l.numeral negative d).Written := by
  obtain ⟨⟨hne, hlt⟩, hhead⟩ := h
  have htake : ∀ n, ∀ e ∈ d.digits.take n, e < 10 := fun n e he => hlt e (List.mem_of_mem_take he)
  have hdrop : ∀ n, ∀ e ∈ d.digits.drop n, e < 10 := fun n e he => hlt e (List.mem_of_mem_drop he)
  -- as many leading digits as are wanted, if any are, start as all of them do
  have hlead : ∀ n ≠ 0, d.digits.take n ≠ [] ∧ (d.digits.take n).head? ≠ some 0 := by
    intro n hn
    have htaken : d.digits.take n ≠ [] := by simp [hn, hne]
    have hsame : (d.digits.take n ++ d.digits.drop n).head? = (d.digits.take n).head? :=
      List.head?_append_of_ne_nil _ htaken
    rw [List.take_append_drop] at hsame
    exact ⟨htaken, hsame ▸ hhead⟩
  unfold Layout.numeral
  simp only
  split
  · split
    · exact {
        whole := isDigits_zero
        lead := fun _ => rfl
        fraction := fun ds hds => Option.some.inj hds ▸ isDigits_fill ⟨hne, hlt⟩ _
        exponent := fun x hx => by cases hx }
    · rename_i hscale
      obtain ⟨hwhole, hfirst⟩ := hlead d.scale.toNat (by omega)
      refine ⟨⟨by simp [hwhole], fun e he => ?_⟩, fun hzero => ?_, fun ds hds => ?_, fun x hx => ?_⟩
      · rcases List.mem_append.1 he with he | he
        · exact htake _ e he
        · rw [List.eq_of_mem_replicate he]
          decide
      · rw [List.head?_append_of_ne_nil _ hwhole] at hzero
        exact absurd hzero hfirst
      · exact Option.some.inj hds ▸ isDigits_orZero (hdrop _)
      · cases hx
  · obtain ⟨hwhole, hfirst⟩ := hlead 1 (by decide)
    refine ⟨⟨hwhole, htake 1⟩, fun hzero => absurd hzero hfirst, fun ds hds => ?_, fun x hx => ?_⟩
    · by_cases hrest : (d.digits.drop 1).isEmpty
      · rw [if_pos hrest] at hds
        cases hds
      · rw [if_neg hrest] at hds
        rw [← Option.some.inj hds]
        exact ⟨by simpa using hrest, hdrop 1⟩
    · rw [← Option.some.inj hx]
      exact isDigits_digitsOf _

theorem written_ofCode {f : BinaryFormat} {l : Layout} {negative : Bool} {code : Nat} {n : Numeral}
    (h : ofCode f l negative code = some n) : n.Written := by
  unfold ofCode at h
  split at h
  · cases h
  · split at h
    · rw [← Option.some.inj h]
      exact ⟨isDigits_zero, fun _ => rfl, fun ds hds => Option.some.inj hds ▸ isDigits_zero,
        fun x hx => by cases hx⟩
    · rename_i hcode
      obtain ⟨d, hd, rfl⟩ := Option.map_eq_some_iff.1 h
      exact written_numeral l negative (Shortest.proper_ofCode hcode hd)

theorem written_ofBinary64 {x : Binary64} {n : Numeral} (h : ofBinary64 x = some n) : n.Written :=
  written_ofCode h

theorem written_ofBinary32 {x : Binary32} {n : Numeral} (h : ofBinary32 x = some n) : n.Written :=
  written_ofCode h

end Numeral

end MetricFanout
