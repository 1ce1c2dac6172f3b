import Mathlib.Data.List.Induction
import Mathlib.Data.List.TakeWhile
import Mathlib.Data.Nat.Digits.Defs
import MetricFanout.FrontEnd.Params
/-!
# Times in a query string

A time is a decimal integer of 32 bits, perhaps with a sign and with white space around it. What is accepted as a
time is stated here as a grammar in which every text denotes one integer at most, and a time is read if and only
if its text denotes it.

A digit counts for its position, in numbers without a bound. The range of 32 bits is looked at when the integer
is known, so that leading zeros do not matter, nor does it that one more integer is negative than positive.
-/

namespace MetricFanout

/-! ## White space -/

namespace Blank

/-- Decimal digits are no white space. -/
theorem isBlank_of_isDigit {c : Char} (h : c.isDigit = true) : isBlank c = false := by
  simp only [Char.isDigit, Bool.and_eq_true, decide_eq_true_eq, UInt32.le_iff_toNat_le, ge_iff_le] at h
  change 48 ≤ c.toNat ∧ c.toNat ≤ 57 at h
  simp only [isBlank, Bool.or_eq_false_iff, Bool.and_eq_false_iff, decide_eq_false_iff_not]
  omega

/-- White space is removed around what has none. -/
theorem trim_append {left core right : List Char} (hleft : ∀ c ∈ left, isBlank c = true)
    (hcore : ∀ c ∈ core, isBlank c = false) (hright : ∀ c ∈ right, isBlank c = true) :
    trim (left ++ core ++ right) = core := by
  have hkeep : ∀ cs : List Char, (∀ c ∈ cs, isBlank c = false) → cs.dropWhile isBlank = cs := by
    intro cs hcs
    cases cs with
    | nil => rfl
    | cons c rest => rw [List.dropWhile_cons_of_neg (by simp [hcs c List.mem_cons_self])]
  -- Without a core, the white space behind it is removed together with that in front.
  rw [trim, List.append_assoc, List.dropWhile_append_of_pos hleft]
  cases core with
  | nil => rw [List.nil_append, List.dropWhile_eq_nil_iff.2 hright]; rfl
  | cons c rest =>
      have hfront : (c :: rest ++ right).dropWhile isBlank = c :: rest ++ right := by
        rw [List.cons_append, List.dropWhile_cons_of_neg (by simp [hcore c List.mem_cons_self])]
      have hback : ∀ d ∈ right.reverse, isBlank d = true := fun d hd => hright d (List.mem_reverse.1 hd)
      rw [hfront, dropEnd, List.reverse_append, List.dropWhile_append_of_pos hback,
        hkeep _ fun d hd => hcore d (List.mem_reverse.1 hd), List.reverse_reverse]

/-- What is removed is white space. -/
theorem exists_trim (cs : List Char) : ∃ left right, cs = left ++ trim cs ++ right ∧
    (∀ c ∈ left, isBlank c = true) ∧ ∀ c ∈ right, isBlank c = true := by
  refine ⟨cs.takeWhile isBlank, ((cs.dropWhile isBlank).reverse.takeWhile isBlank).reverse, ?_,
    fun c hc => List.mem_takeWhile_imp hc, fun c hc => List.mem_takeWhile_imp (List.mem_reverse.1 hc)⟩
  rw [trim, dropEnd, List.append_assoc, ← List.reverse_append, List.takeWhile_append_dropWhile,
    List.reverse_reverse, List.takeWhile_append_dropWhile]

end Blank

namespace Time

/-! ## Decimal integers -/

/-- One or more decimal digits. -/
def IsDigits (ds : List Char) : Prop := ds ≠ [] ∧ ∀ c ∈ ds, c.isDigit = true

/-- The number that digits denote, each of them according to its position. -/
def decimal (ds : List Char) : Nat := Nat.ofDigits 10 (ds.reverse.map fun c => c.toNat - 48)

/-- Digits, perhaps behind a sign, denote an integer. -/
inductive Denotes : List Char → Int → Prop
  | unsigned {ds : List Char} (h : IsDigits ds) : Denotes ds (decimal ds)
  | plus {ds : List Char} (h : IsDigits ds) : Denotes ('+' :: ds) (decimal ds)
  | minus {ds : List Char} (h : IsDigits ds) : Denotes ('-' :: ds) (-decimal ds)

/-- One more digit at the end multiplies the number by ten. -/
theorem decimal_snoc (ds : List Char) (c : Char) :
    decimal (ds ++ [c]) = decimal ds * 10 + (c.toNat - 48) := by
  calc decimal (ds ++ [c])
      = Nat.ofDigits 10 ((c.toNat - 48) :: ds.reverse.map fun c => c.toNat - 48) := by
        rw [decimal, List.reverse_append]
        rfl
    _ = (c.toNat - 48) + 10 * decimal ds := Nat.ofDigits_cons
    _ = decimal ds * 10 + (c.toNat - 48) := by omega

theorem foldl_eq_decimal (ds : List Char) :
    ds.foldl (fun n c => n * 10 + (c.toNat - 48)) 0 = decimal ds := by
  induction ds using List.reverseRecOn with
  | nil => rfl
  | append_singleton ds c ih => rw [List.foldl_append, List.foldl_cons, List.foldl_nil, ih, decimal_snoc]

/-- The digits of a number denote it. -/
theorem decimal_toDigits (n : Nat) : decimal (Nat.toDigits 10 n) = n := by
  have hvalue := Nat.ofDigitChars_ten_toDigits (n := n)
  rw [Nat.ofDigitChars_eq_foldl] at hvalue
  simp only [Nat.mul_comm 10] at hvalue
  rw [← foldl_eq_decimal]
  exact hvalue

theorem isDigits_toDigits (n : Nat) : IsDigits (Nat.toDigits 10 n) :=
  ⟨Nat.toDigits_ne_nil, fun _ hc => Nat.isDigit_of_mem_toDigits (by decide) (by decide) hc⟩

theorem isDigits_iff {ds : List Char} : IsDigits ds ↔ (ds.isEmpty || !ds.all Char.isDigit) = false := by
  rw [IsDigits, Bool.or_eq_false_iff, List.isEmpty_eq_false_iff, Bool.not_eq_false', List.all_eq_true]

/-- No sign is a digit. -/
theorem IsDigits.not_mem {ds : List Char} (h : IsDigits ds) {c : Char} (hc : c.isDigit = false) : c ∉ ds :=
  fun hmem => Bool.false_ne_true (hc.symm.trans (h.2 c hmem))

/-- There is no white space in an integer. -/
theorem Denotes.not_blank {cs : List Char} {i : Int} (h : Denotes cs i) : ∀ c ∈ cs, Blank.isBlank c = false := by
  have hdigits : ∀ ds, IsDigits ds → ∀ c ∈ ds, Blank.isBlank c = false :=
    fun ds hds c hc => Blank.isBlank_of_isDigit (hds.2 c hc)
  cases h with
  | unsigned hds => exact hdigits _ hds
  | plus hds => exact List.forall_mem_cons.2 ⟨by decide, hdigits _ hds⟩
  | minus hds => exact List.forall_mem_cons.2 ⟨by decide, hdigits _ hds⟩

/-- An integer is written as its digits, behind a minus sign if it is negative. -/
theorem denotes_toString (i : Int) : Denotes (toString i).toList i := by
  rw [Int.toString_eq_repr, Int.repr_eq_if]
  split
  case isTrue hsign =>
    have h := Denotes.unsigned (isDigits_toDigits i.toNat)
    rw [decimal_toDigits, Int.toNat_of_nonneg hsign] at h
    rw [Nat.toList_repr]
    exact h
  case isFalse hsign =>
    have h := Denotes.minus (isDigits_toDigits (-i).toNat)
    have hopposite : -((-i).toNat : Int) = i := by omega
    rw [decimal_toDigits, hopposite] at h
    rw [String.toList_append, Nat.toList_repr]
    exact h

/-! ## Reading -/

/-- An integer in the range of 32 bits. -/
def inRange32? (i : Int) : Option Int32 :=
  if Int32.minValue.toInt ≤ i ∧ i ≤ Int32.maxValue.toInt then some (Int32.ofInt i) else none

theorem inRange32?_eq_some_iff {i : Int} {n : Int32} : inRange32? i = some n ↔ i = n.toInt := by
  constructor
  · intro h
    rw [inRange32?, Option.ite_none_right_eq_some] at h
    obtain ⟨⟨hlow, hhigh⟩, hn⟩ := h
    rw [← Option.some.inj hn, Int32.toInt_ofInt_of_le hlow (Int.lt_of_le_of_lt hhigh (by decide))]
  · rintro rfl
    rw [inRange32?, if_pos ⟨n.minValue_le_toInt, n.toInt_le⟩, Int32.ofInt_toInt]

/-- What is read of digits with a sign. -/
theorem readDigits_eq_some_iff {ds : List Char} {i : Int} {n : Int32} :
    (if (ds.isEmpty || !ds.all Char.isDigit) = true then none else inRange32? i) = some n ↔
      IsDigits ds ∧ i = n.toInt := by
  rw [Option.ite_none_left_eq_some, Bool.not_eq_true, ← isDigits_iff, inRange32?_eq_some_iff]

theorem parseInt32?_plus (ds : List Char) : parseInt32? ('+' :: ds) =
    if (ds.isEmpty || !ds.all Char.isDigit) = true then none else inRange32? (decimal ds) := by
  rw [← foldl_eq_decimal]
  rfl

theorem parseInt32?_minus (ds : List Char) : parseInt32? ('-' :: ds) =
    if (ds.isEmpty || !ds.all Char.isDigit) = true then none else inRange32? (-decimal ds) := by
  rw [← foldl_eq_decimal]
  rfl

theorem parseInt32?_unsigned {cs : List Char} (hminus : ∀ ds, cs ≠ '-' :: ds) (hplus : ∀ ds, cs ≠ '+' :: ds) :
    parseInt32? cs =
      if (cs.isEmpty || !cs.all Char.isDigit) = true then none else inRange32? (decimal cs) := by
  rw [← foldl_eq_decimal]
  unfold parseInt32?
  split
  rename_i negative digits heq
  split at heq
  · exact absurd rfl (hminus _)
  · exact absurd rfl (hplus _)
  · cases heq
    rfl

/-- An integer is read if and only if it is denoted. -/
theorem parseInt32?_eq_some_iff {cs : List Char} {n : Int32} :
    parseInt32? cs = some n ↔ Denotes cs n.toInt := by
  constructor
  · intro h
    by_cases hminus : ∃ ds, cs = '-' :: ds
    · obtain ⟨ds, rfl⟩ := hminus
      rw [parseInt32?_minus, readDigits_eq_some_iff] at h
      rw [← h.2]
      exact .minus h.1
    · by_cases hplus : ∃ ds, cs = '+' :: ds
      · obtain ⟨ds, rfl⟩ := hplus
        rw [parseInt32?_plus, readDigits_eq_some_iff] at h
        rw [← h.2]
        exact .plus h.1
      · rw [parseInt32?_unsigned (not_exists.1 hminus) (not_exists.1 hplus), readDigits_eq_some_iff] at h
        rw [← h.2]
        exact .unsigned h.1
  · intro h
    generalize hi : n.toInt = i at h
    cases h with
    | unsigned hds =>
        have hunsigned : ∀ {sign : Char}, sign.isDigit = false → ∀ ds, cs ≠ sign :: ds := by
          rintro sign hsign ds rfl
          exact hds.not_mem hsign List.mem_cons_self
        rw [parseInt32?_unsigned (hunsigned (by decide)) (hunsigned (by decide)), readDigits_eq_some_iff]
        exact ⟨hds, hi.symm⟩
    | plus hds =>
        rw [parseInt32?_plus, readDigits_eq_some_iff]
        exact ⟨hds, hi.symm⟩
    | minus hds =>
        rw [parseInt32?_minus, readDigits_eq_some_iff]
        exact ⟨hds, hi.symm⟩

end Time

/-- A text denotes a time: between white space at both ends it denotes an integer, which is in the range of 32
bits. -/
structure IsTime (text : String) (i : Int) : Prop where
  denotes : ∃ left core right, text.toList = left ++ core ++ right ∧ (∀ c ∈ left, Blank.isBlank c = true) ∧
    (∀ c ∈ right, Blank.isBlank c = true) ∧ Time.Denotes core i
  low : -2147483648 ≤ i
  high : i ≤ 2147483647

/-- A time is read if and only if the text denotes it. -/
theorem readTime_eq_some_iff {text : String} {n : Int32} :
    parseInt32? (Blank.trim text.toList) = some n ↔ IsTime text n.toInt := by
  rw [Time.parseInt32?_eq_some_iff]
  constructor
  · intro h
    obtain ⟨left, right, htext, hleft, hright⟩ := Blank.exists_trim text.toList
    exact ⟨⟨left, _, right, htext, hleft, hright, h⟩, n.minValue_le_toInt, n.toInt_le⟩
  · rintro ⟨⟨left, core, right, htext, hleft, hright, h⟩, -, -⟩
    rw [htext, Blank.trim_append hleft h.not_blank hright]
    exact h

/-- Nothing is read if and only if the text denotes no time. -/
theorem readTime_eq_none_iff {text : String} :
    parseInt32? (Blank.trim text.toList) = none ↔ ¬ ∃ i, IsTime text i := by
  rw [Option.eq_none_iff_forall_ne_some]
  constructor
  · rintro h ⟨i, hi⟩
    have hrange : (Int32.ofInt i).toInt = i :=
      Int32.toInt_ofInt_of_le hi.low (Int.lt_of_le_of_lt hi.high (by decide))
    exact h (Int32.ofInt i) (readTime_eq_some_iff.2 (hrange.symm ▸ hi))
  · exact fun h n hn => h ⟨n.toInt, readTime_eq_some_iff.1 hn⟩

/-- A time is read as it has been written. -/
theorem parseInt32?_toString (i : Int32) : parseInt32? (Blank.trim (toString i.toInt).toList) = some i :=
  readTime_eq_some_iff.2
    ⟨⟨[], _, [], (List.append_nil _).symm, fun _ hc => absurd hc List.not_mem_nil,
      fun _ hc => absurd hc List.not_mem_nil, Time.denotes_toString i.toInt⟩, i.minValue_le_toInt, i.toInt_le⟩

end MetricFanout
