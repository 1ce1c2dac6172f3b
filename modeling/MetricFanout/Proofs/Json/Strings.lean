import MetricFanout.Json.Reader
import MetricFanout.Proofs.Text.Utf8
/-!
# JSON strings are read back

A string is escaped character by character, and its token is read piece by piece. The pieces of an escaped
text denote that text, whatever its characters are.

What stands for a character is told by the pieces that are read for it, in front of any further bytes, and
by the bytes that these pieces come to, in front of any further pieces. Both compose, so a text is read as
its characters are.
-/

namespace MetricFanout.Json

/-- Characters that are read as some pieces, which come to some bytes, whatever follows. -/
structure ReadAs (cs : List Char) (ps : List Piece) (bytes : List UInt8) : Prop where
  pieces : ∀ rest, pieces (Utf8.encode cs ++ rest) =
    (Json.pieces rest).map fun p => (ps ++ p.1, p.2)
  bytes : ∀ more, bytesOfPieces (ps ++ more) = (bytesOfPieces more).map (bytes ++ ·)

namespace ReadAs

theorem nil : ReadAs [] [] [] where
  pieces rest := by simp [Utf8.encode]
  bytes more := by simp

theorem append {cs ds : List Char} {ps qs : List Piece} {bs es : List UInt8} (h : ReadAs cs ps bs)
    (h' : ReadAs ds qs es) : ReadAs (cs ++ ds) (ps ++ qs) (bs ++ es) where
  pieces rest := by
    rw [Utf8.encode_append, List.append_assoc, h.pieces, h'.pieces, Option.map_map]
    simp only [Function.comp_def, List.append_assoc]
  bytes more := by
    rw [List.append_assoc, h.bytes, h'.bytes, Option.map_map]
    simp only [Function.comp_def, List.append_assoc]

end ReadAs

/-! ## Characters that stand for themselves -/

/-- A byte that is neither a control nor opens an escape nor ends a string. -/
def StandsForItself (b : UInt8) : Prop := ¬ b < 0x20 ∧ b ≠ 0x22 ∧ b ≠ 0x5C

theorem pieces_cons {b : UInt8} (h : StandsForItself b) (rest : List UInt8) :
    pieces (b :: rest) = (pieces rest).map fun p => (.byte b :: p.1, p.2) := by
  rw [pieces.eq_def]
  simp only [if_neg h.2.1, if_neg h.2.2, if_neg h.1]

theorem pieces_append {bs : List UInt8} (h : ∀ b ∈ bs, StandsForItself b) (rest : List UInt8) :
    pieces (bs ++ rest) = (pieces rest).map fun p => (bs.map .byte ++ p.1, p.2) := by
  induction bs with
  | nil => simp
  | cons b bs ih =>
      rw [List.cons_append, pieces_cons (h b List.mem_cons_self),
        ih fun c hc => h c (List.mem_cons_of_mem _ hc), Option.map_map]
      rfl

theorem bytesOfPieces_append (bs : List UInt8) (more : List Piece) :
    bytesOfPieces (bs.map .byte ++ more) = (bytesOfPieces more).map (bs ++ ·) := by
  induction bs with
  | nil => simp
  | cons b bs ih =>
      rw [List.map_cons, List.cons_append, bytesOfPieces, ih, Option.map_map]
      rfl

/-- The bytes of a character beyond ASCII are beyond ASCII. -/
theorem le_of_mem_encodeChar {c : Char} (h : 0x80 ≤ c.toNat) {b : UInt8} (hb : b ∈ Utf8.encodeChar c) :
    0x80 ≤ b.toNat := by
  have hvalue : 0x80 ≤ c.val.toNat := h
  simp only [Utf8.encodeChar, String.utf8EncodeChar] at hb
  generalize c.val.toNat = v at hvalue hb
  have hcontinuation : ∀ n, 0x80 ≤ (UInt8.ofNat (n % 0x40 + 0x80)).toNat := fun n => by
    rw [Utf8.toNat_ofNat (by omega)]
    omega
  split at hb
  · omega
  split at hb
  · simp only [List.mem_cons, List.not_mem_nil, or_false] at hb
    rcases hb with rfl | rfl
    · rw [Utf8.toNat_ofNat (by omega)]; omega
    · exact hcontinuation _
  split at hb
  · simp only [List.mem_cons, List.not_mem_nil, or_false] at hb
    rcases hb with rfl | rfl | rfl
    · rw [Utf8.toNat_ofNat (by omega)]; omega
    · exact hcontinuation _
    · exact hcontinuation _
  · simp only [List.mem_cons, List.not_mem_nil, or_false] at hb
    rcases hb with rfl | rfl | rfl | rfl
    · rw [Utf8.toNat_ofNat (by omega)]; omega
    · exact hcontinuation _
    · exact hcontinuation _
    · exact hcontinuation _

theorem standsForItself_of_mem {c : Char} (hcontrol : ¬ c.toNat < 0x20) (hquote : c ≠ '"')
    (hescape : c ≠ '\\') : ∀ b ∈ Utf8.encodeChar c, StandsForItself b := by
  intro b hb
  rw [StandsForItself, UInt8.lt_iff_toNat_lt, ne_eq, ne_eq, ← UInt8.toNat_inj, ← UInt8.toNat_inj]
  change ¬ b.toNat < 32 ∧ ¬ b.toNat = 34 ∧ ¬ b.toNat = 92
  by_cases hascii : c.toNat < 0x80
  · have hnum : ∀ d : Char, c ≠ d → c.toNat ≠ d.toNat := fun d hne heq => hne (Char.toNat_inj.1 heq)
    have h34 : c.toNat ≠ 34 := hnum '"' hquote
    have h92 : c.toNat ≠ 92 := hnum '\\' hescape
    rw [Utf8.encodeChar_of_ascii hascii, List.mem_singleton] at hb
    rw [hb, Utf8.toNat_ofNat (by omega)]
    exact ⟨hcontrol, h34, h92⟩
  · have hle := le_of_mem_encodeChar (by omega) hb
    omega

theorem readAs_self {c : Char} (h : ∀ b ∈ Utf8.encodeChar c, StandsForItself b) :
    ReadAs [c] ((Utf8.encodeChar c).map .byte) (Utf8.encodeChar c) where
  pieces rest := by
    rw [Utf8.encode, List.flatMap_cons, List.flatMap_nil, List.append_nil, pieces_append h]
  bytes more := bytesOfPieces_append _ more

/-! ## Escapes -/

/-- A character behind a backslash. -/
theorem readAs_short {c : Char} {b d : UInt8} (hb : Utf8.encodeChar c = [b]) (hunit : b ≠ 0x75)
    (h : shortEscape? b = some d) : ReadAs ['\\', c] [.byte d] [d] where
  pieces rest := by
    have hbytes : Utf8.encode ['\\', c] ++ rest = 0x5C :: b :: rest := by
      simp only [Utf8.encode, List.flatMap_cons, List.flatMap_nil, List.append_nil, hb]
      rfl
    rw [hbytes, pieces.eq_def]
    simp only [if_neg (show ¬ (0x5C : UInt8) = 0x22 by decide), if_true]
    split
    · rename_i heq
      exact absurd (List.cons.inj heq).1 hunit
    · rename_i heq
      obtain ⟨rfl, rfl⟩ := List.cons.inj heq
      simp only [h]
      rfl
    · rename_i heq
      exact absurd heq (List.cons_ne_nil _ _)
  bytes more := rfl

/-- The digits of a small escaped unit. -/
theorem unitValue?_hexDigit : ∀ n < 32,
    unitValue? 0x30 0x30 (UInt8.ofNat (hexDigit (n / 16)).toNat) (UInt8.ofNat (hexDigit (n % 16)).toNat) =
      some n := by decide

theorem encodeChar_hexDigit : ∀ n < 16,
    Utf8.encodeChar (hexDigit n) = [UInt8.ofNat (hexDigit n).toNat] := by decide

/-- A control that is written by its number. -/
theorem readAs_unit {c : Char} (h : c.toNat < 0x20) :
    ReadAs ['\\', 'u', '0', '0', hexDigit (c.toNat / 16), hexDigit (c.toNat % 16)] [.unit c.toNat]
      (Utf8.encodeChar c) where
  pieces rest := by
    have hbytes : Utf8.encode ['\\', 'u', '0', '0', hexDigit (c.toNat / 16), hexDigit (c.toNat % 16)] ++
        rest = 0x5C :: 0x75 :: 0x30 :: 0x30 :: UInt8.ofNat (hexDigit (c.toNat / 16)).toNat ::
          UInt8.ofNat (hexDigit (c.toNat % 16)).toNat :: rest := by
      simp only [Utf8.encode, List.flatMap_cons, List.flatMap_nil, List.append_nil,
        encodeChar_hexDigit (c.toNat / 16) (by omega), encodeChar_hexDigit (c.toNat % 16) (by omega)]
      rfl
    rw [hbytes, pieces.eq_def]
    simp only [if_neg (show ¬ (0x5C : UInt8) = 0x22 by decide), if_true, unitValue?_hexDigit c.toNat h]
    rfl
  bytes more := by
    have hhigh : (decide (0xD800 ≤ c.toNat) && decide (c.toNat ≤ 0xDBFF)) = false := by
      simp only [Bool.and_eq_false_iff, decide_eq_false_iff_not]
      omega
    have hlow : (decide (0xDC00 ≤ c.toNat) && decide (c.toNat ≤ 0xDFFF)) = false := by
      simp only [Bool.and_eq_false_iff, decide_eq_false_iff_not]
      omega
    rw [List.singleton_append, bytesOfPieces.eq_def]
    simp only [hhigh, hlow, Bool.false_eq_true, if_false, Char.ofNat_toNat]

/-- An escaped character is read as that character. -/
theorem readAs_escape (c : Char) : ∃ ps, ReadAs (escape c) ps (Utf8.encodeChar c) := by
  unfold escape
  split
  · exact ⟨_, readAs_short (b := 0x22) (d := 0x22) rfl (by decide) rfl⟩
  · exact ⟨_, readAs_short (b := 0x5C) (d := 0x5C) rfl (by decide) rfl⟩
  · exact ⟨_, readAs_short (b := 0x62) (d := 0x08) rfl (by decide) rfl⟩
  · exact ⟨_, readAs_short (b := 0x74) (d := 0x09) rfl (by decide) rfl⟩
  · exact ⟨_, readAs_short (b := 0x6E) (d := 0x0A) rfl (by decide) rfl⟩
  · exact ⟨_, readAs_short (b := 0x66) (d := 0x0C) rfl (by decide) rfl⟩
  · exact ⟨_, readAs_short (b := 0x72) (d := 0x0D) rfl (by decide) rfl⟩
  · rename_i hquote hescape _ _ _ _ _
    split
    case isTrue hcontrol => exact ⟨_, readAs_unit hcontrol⟩
    case isFalse hcontrol =>
      exact ⟨_, readAs_self (standsForItself_of_mem hcontrol hquote hescape)⟩

/-- So is a text. -/
theorem readAs_flatMap_escape (cs : List Char) :
    ∃ ps, ReadAs (cs.flatMap escape) ps (Utf8.encode cs) := by
  induction cs with
  | nil => exact ⟨[], .nil⟩
  | cons c cs ih =>
      obtain ⟨ps, hc⟩ := readAs_escape c
      obtain ⟨qs, hcs⟩ := ih
      exact ⟨ps ++ qs, hc.append hcs⟩

/-! ## String tokens -/

/-- The token of a text is read as that text, up to its closing quote. -/
theorem stringToken_append (s : String) (rest : List UInt8) :
    stringToken (Utf8.encode (s.toList.flatMap escape ++ ['"']) ++ rest) =
      some (.string (some s), rest) := by
  obtain ⟨ps, h⟩ := readAs_flatMap_escape s.toList
  have hquote : Utf8.encode ['"'] ++ rest = 0x22 :: rest := rfl
  have hend : pieces (0x22 :: rest) = some ([], rest) := by
    rw [pieces.eq_def]
    rfl
  have hcontent : contentOf ps = some s := by
    have hbytes : bytesOfPieces ps = some (Utf8.encode s.toList) := by
      have := h.bytes []
      rwa [List.append_nil, bytesOfPieces, Option.map_some, List.append_nil] at this
    rw [contentOf, hbytes, Option.bind_some]
    exact Utf8.toString?_ofString s
  rw [Utf8.encode_append, List.append_assoc, hquote, stringToken, h.pieces, hend, Option.map_some,
    Option.map_some, List.append_nil]
  simp only [hcontent]

/-- A string without text is half a surrogate pair, and stays one. -/
theorem stringToken_none (rest : List UInt8) :
    stringToken (Utf8.encode ['\\', 'u', 'd', '8', '0', '0', '"'] ++ rest) =
      some (.string none, rest) := by
  have hunit : unitValue? 0x64 0x38 0x30 0x30 = some 0xD800 := by decide
  have hbytes : Utf8.encode ['\\', 'u', 'd', '8', '0', '0', '"'] ++ rest =
      0x5C :: 0x75 :: 0x64 :: 0x38 :: 0x30 :: 0x30 :: 0x22 :: rest := rfl
  have hend : pieces (0x22 :: rest) = some ([], rest) := by
    rw [pieces.eq_def]
    rfl
  rw [hbytes, stringToken, pieces.eq_def]
  simp only [if_neg (show ¬ (0x5C : UInt8) = 0x22 by decide), if_true, hunit, hend]
  rfl

end MetricFanout.Json
