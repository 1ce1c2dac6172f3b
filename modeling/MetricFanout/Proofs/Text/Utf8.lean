import MetricFanout.Text.Utf8
/-!
# UTF-8 is read back

The bytes of a text are read as that text again, strictly and leniently, whatever follows them.

A character is written in one of four lengths. For each of them the lead byte announces how many bytes
follow, the second byte is in its range because the character is neither written too long nor a surrogate,
and the others carry six bits each.
-/

namespace MetricFanout.Utf8

variable {d n acc used : Nat} {rest : List UInt8}

theorem toNat_ofNat (h : n < 256) : (UInt8.ofNat n).toNat = n :=
  UInt8.toNat_ofNat_of_lt' h

/-! ## Bytes of a character -/

theorem lead_one (h : n < 0x80) : lead (UInt8.ofNat n) = some (0, n) := by
  have hn : (UInt8.ofNat n).toNat = n := toNat_ofNat (by omega)
  simp only [lead, hn]
  rw [if_pos h]

theorem lead_two (h : 2 ≤ d) (h' : d < 0x20) : lead (UInt8.ofNat (d + 0xC0)) = some (1, d) := by
  have hn : (UInt8.ofNat (d + 0xC0)).toNat = d + 0xC0 := toNat_ofNat (by omega)
  simp only [lead, hn]
  rw [if_neg (by omega), if_neg (by omega), if_pos (by omega), Nat.add_sub_cancel]

theorem lead_three (h : d < 0x10) : lead (UInt8.ofNat (d + 0xE0)) = some (2, d) := by
  have hn : (UInt8.ofNat (d + 0xE0)).toNat = d + 0xE0 := toNat_ofNat (by omega)
  simp only [lead, hn]
  rw [if_neg (by omega), if_neg (by omega), if_neg (by omega), if_pos (by omega), Nat.add_sub_cancel]

theorem lead_four (h : d < 5) : lead (UInt8.ofNat (d + 0xF0)) = some (3, d) := by
  have hn : (UInt8.ofNat (d + 0xF0)).toNat = d + 0xF0 := toNat_ofNat (by omega)
  simp only [lead, hn]
  rw [if_neg (by omega), if_neg (by omega), if_neg (by omega), if_neg (by omega), if_pos (by omega),
    Nat.add_sub_cancel]

/-- A continuation byte carries six bits. -/
theorem tail_succ (left : Nat) (h : d < 0x40) :
    tail (left + 1) acc used (UInt8.ofNat (d + 0x80) :: rest) =
      tail left (acc * 64 + d) (used + 1) rest := by
  have hn : (UInt8.ofNat (d + 0x80)).toNat = d + 0x80 := toNat_ofNat (by omega)
  have hcontinues : continues (UInt8.ofNat (d + 0x80)) = true := by
    simp only [continues, hn, Bool.and_eq_true, decide_eq_true_eq]
    omega
  rw [tail, if_pos hcontinues, hn, Nat.add_sub_cancel]

theorem ofNat_eq_iff {k m : Nat} (hk : k < 256) (hm : m < 256) :
    UInt8.ofNat k = UInt8.ofNat m ↔ k = m := by
  rw [← UInt8.toNat_inj, toNat_ofNat hk, toNat_ofNat hm]

/-- The byte behind a lead byte carries six bits, too, if it is in its range. -/
theorem leading_succ {k left value : Nat} (hk : k < 256)
    (hlead : lead (UInt8.ofNat k) = some (left + 1, value)) (h : d < 0x40)
    (hlow : k = 0xE0 → 0x20 ≤ d) (hlow' : k = 0xF0 → 0x10 ≤ d) (hhigh : k = 0xED → d < 0x20)
    (hhigh' : k = 0xF4 → d < 0x10) :
    leading (UInt8.ofNat k) (UInt8.ofNat (d + 0x80) :: rest) =
      tail left (value * 64 + d) 1 rest := by
  have hn : (UInt8.ofNat (d + 0x80)).toNat = d + 0x80 := toNat_ofNat (by omega)
  have he0 : UInt8.ofNat k = 0xE0 ↔ k = 0xE0 := ofNat_eq_iff hk (by decide)
  have hf0 : UInt8.ofNat k = 0xF0 ↔ k = 0xF0 := ofNat_eq_iff hk (by decide)
  have hed : UInt8.ofNat k = 0xED ↔ k = 0xED := ofNat_eq_iff hk (by decide)
  have hf4 : UInt8.ofNat k = 0xF4 ↔ k = 0xF4 := ofNat_eq_iff hk (by decide)
  have hsecond : second (UInt8.ofNat k) (UInt8.ofNat (d + 0x80)) = true := by
    simp only [second, hn, he0, hf0, hed, hf4, Bool.and_eq_true, decide_eq_true_eq]
    constructor
    · split
      · omega
      · split <;> omega
    · split
      · omega
      · split <;> omega
  simp only [leading, hlead, if_pos hsecond, hn, Nat.add_sub_cancel]

/-! ## Characters -/

/-- A character is found at the front of its bytes, and they are used up. -/
theorem leading_encodeChar (c : Char) (rest : List UInt8) :
    ∃ b bs, encodeChar c = b :: bs ∧ leading b (bs ++ rest) = (some c, bs.length) := by
  have hchar : Char.ofNat c.val.toNat = c := Char.ofNat_toNat c
  have hvalid : c.val.toNat < 0xD800 ∨ 0xDFFF < c.val.toNat ∧ c.val.toNat < 0x110000 := c.valid
  simp only [encodeChar, String.utf8EncodeChar]
  generalize c.val.toNat = v at hchar hvalid ⊢
  split
  case isTrue h =>
    refine ⟨_, [], rfl, ?_⟩
    simp only [leading, lead_one (Nat.lt_succ_of_le h), hchar]
    rfl
  case isFalse h1 =>
    split
    case isTrue h =>
      have hlead : lead (UInt8.ofNat (v / 64 % 0x20 + 0xC0)) = some (1, v / 64 % 0x20) :=
        lead_two (by omega) (by omega)
      have hvalue : v / 64 % 0x20 * 64 + v % 0x40 = v := by omega
      refine ⟨_, _, rfl, ?_⟩
      rw [List.cons_append, leading_succ (by omega) hlead (by omega) (by omega) (by omega) (by omega)
        (by omega), hvalue, tail, hchar]
      rfl
    case isFalse h2 =>
      split
      case isTrue h =>
        have hlead : lead (UInt8.ofNat (v / 4096 % 0x10 + 0xE0)) = some (2, v / 4096 % 0x10) :=
          lead_three (by omega)
        have hvalue : (v / 4096 % 0x10 * 64 + v / 64 % 0x40) * 64 + v % 0x40 = v := by omega
        refine ⟨_, _, rfl, ?_⟩
        rw [List.cons_append, List.cons_append, leading_succ (by omega) hlead (by omega) (by omega)
          (by omega) (by omega) (by omega), tail_succ 0 (by omega), hvalue, tail, hchar]
        rfl
      case isFalse h3 =>
        have hlead : lead (UInt8.ofNat (v / 262144 % 0x08 + 0xF0)) = some (3, v / 262144 % 0x08) :=
          lead_four (by omega)
        have hvalue : ((v / 262144 % 0x08 * 64 + v / 4096 % 0x40) * 64 + v / 64 % 0x40) * 64 +
            v % 0x40 = v := by omega
        refine ⟨_, _, rfl, ?_⟩
        rw [List.cons_append, List.cons_append, List.cons_append, leading_succ (by omega) hlead
          (by omega) (by omega) (by omega) (by omega) (by omega), tail_succ 1 (by omega),
          tail_succ 0 (by omega), hvalue, tail, hchar]
        rfl

/-! ## Texts -/

theorem encode_append (cs ds : List Char) : encode (cs ++ ds) = encode cs ++ encode ds :=
  List.flatMap_append

/-- A character of ASCII is one byte. -/
theorem encodeChar_of_ascii {c : Char} (h : c.toNat < 0x80) : encodeChar c = [UInt8.ofNat c.toNat] := by
  have hle : c.val.toNat ≤ 0x7F := Nat.le_of_lt_succ h
  simp only [encodeChar, String.utf8EncodeChar]
  rw [if_pos hle]
  rfl

theorem decode?_encodeChar (c : Char) (rest : List UInt8) :
    decode? (encodeChar c ++ rest) = (decode? rest).map (c :: ·) := by
  obtain ⟨b, bs, hbytes, hleading⟩ := leading_encodeChar c rest
  rw [hbytes, List.cons_append, decode?, hleading]
  simp only [List.drop_left]

/-- Strict reading undoes writing. -/
theorem decode?_encode (cs : List Char) : decode? (encode cs) = some cs := by
  induction cs with
  | nil => rw [encode, List.flatMap_nil, decode?]
  | cons c rest ih =>
      rw [encode, List.flatMap_cons, decode?_encodeChar]
      rw [encode] at ih
      rw [ih, Option.map_some]

theorem toString?_ofString (s : String) : toString? (ofString s) = some s := by
  rw [toString?, ofString, decode?_encode, Option.map_some, String.ofList_toList]

theorem decodeLossy_encodeChar (c : Char) (rest : List UInt8) :
    decodeLossy (encodeChar c ++ rest) = c :: decodeLossy rest := by
  obtain ⟨b, bs, hbytes, hleading⟩ := leading_encodeChar c rest
  rw [hbytes, List.cons_append, decodeLossy, hleading]
  simp only [List.drop_left, Option.getD_some]

/-- So does lenient reading. -/
theorem decodeLossy_encode (cs : List Char) : decodeLossy (encode cs) = cs := by
  induction cs with
  | nil => rw [encode, List.flatMap_nil, decodeLossy]
  | cons c rest ih =>
      rw [encode, List.flatMap_cons, decodeLossy_encodeChar]
      rw [encode] at ih
      rw [ih]

end MetricFanout.Utf8
