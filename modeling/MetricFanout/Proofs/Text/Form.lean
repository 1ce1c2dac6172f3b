import MetricFanout.Proofs.Text.Utf8
import MetricFanout.Text.Form
/-!
# Form-encoded pairs are read back

Pairs that are encoded and joined are decoded to the same pairs, whatever characters they hold.

What is encoded consists of plain characters, plus signs and escapes. All of these are in ASCII, and no
separator is among them, so that separators are found where they were put. Plus signs are replaced before
escapes are, which is right because a plus sign that was there at first has been escaped.
-/

namespace MetricFanout

namespace Percent

/-- Hexadecimal digits are read back. -/
theorem value?_digit : ∀ n < 16, value? (UInt8.ofNat (digit n).toNat).toNat = some n := by decide

theorem decode_cons_of_ne {b : UInt8} (h : b ≠ 0x25) (rest : List UInt8) :
    decode (b :: rest) = b :: decode rest := by
  rw [decode.eq_def]
  simp only [if_neg h]

theorem decode_escape {h l : UInt8} {hi lo : Nat} (hhi : value? h.toNat = some hi)
    (hlo : value? l.toNat = some lo) (rest : List UInt8) :
    decode (0x25 :: h :: l :: rest) = UInt8.ofNat (hi * 16 + lo) :: decode rest := by
  rw [decode.eq_def]
  simp only [if_true, hhi, hlo]

end Percent

namespace Form

/-- A plus sign stands for a blank. -/
def unplus (b : UInt8) : UInt8 := if b = 0x2B then 0x20 else b

/-- The byte of a character of ASCII. -/
def byte (c : Char) : UInt8 := UInt8.ofNat c.toNat

/-! ## What is encoded -/

/-- What encoded parts consist of. -/
def isWritten (c : Char) : Bool := isPlain c || c = '+' || c = '%'

theorem isPlain_bounds {c : Char} (h : isPlain c = true) :
    c.toNat < 0x80 ∧ c.toNat ≠ 0x25 ∧ c.toNat ≠ 0x26 ∧ c.toNat ≠ 0x2B ∧ c.toNat ≠ 0x3D := by
  have halphanum : c.isAlphanum = ((decide (65 ≤ c.val ∧ c.val ≤ 90) ||
      (decide (97 ≤ c.val) && decide (c.val ≤ 122))) ||
      (decide (48 ≤ c.val) && decide (c.val ≤ 57))) := rfl
  simp only [isPlain, halphanum, Bool.or_eq_true, Bool.and_eq_true, decide_eq_true_eq,
    UInt32.le_iff_toNat_le] at h
  change ((((((65 ≤ c.toNat ∧ c.toNat ≤ 90) ∨ (97 ≤ c.toNat ∧ c.toNat ≤ 122)) ∨
    (48 ≤ c.toNat ∧ c.toNat ≤ 57)) ∨ c = '*') ∨ c = '-') ∨ c = '.') ∨ c = '_' at h
  rcases h with (((h | rfl) | rfl) | rfl) | rfl
  · omega
  · decide
  · decide
  · decide
  · decide

theorem isWritten_bounds {c : Char} (h : isWritten c = true) :
    c.toNat < 0x80 ∧ c.toNat ≠ 0x26 ∧ c.toNat ≠ 0x3D := by
  simp only [isWritten, Bool.or_eq_true, decide_eq_true_eq] at h
  rcases h with (h | rfl) | rfl
  · obtain ⟨hascii, _, hamp, _, heq⟩ := isPlain_bounds h
    exact ⟨hascii, hamp, heq⟩
  · decide
  · decide

theorem isWritten_escapeByte (b : UInt8) : ∀ c ∈ Percent.escapeByte b, isWritten c = true := by
  have hb : b.toNat < 256 := b.toNat_lt
  have hdigit : ∀ n < 16, isWritten (Percent.digit n) = true := by decide
  intro c hc
  simp only [Percent.escapeByte, List.mem_cons, List.not_mem_nil, or_false] at hc
  rcases hc with rfl | rfl | rfl
  · decide
  · exact hdigit _ (by omega)
  · exact hdigit _ (by omega)

theorem isWritten_encodePart (cs : List Char) : ∀ c ∈ encodePart cs, isWritten c = true := by
  intro c hc
  obtain ⟨d, _, hd⟩ := List.mem_flatMap.1 hc
  split at hd
  · rw [List.mem_singleton.1 hd]
    decide
  · split at hd
    · rename_i hplain
      rw [List.mem_singleton.1 hd, isWritten, hplain]
      rfl
    · obtain ⟨b, _, hb⟩ := List.mem_flatMap.1 hd
      exact isWritten_escapeByte b c hb

/-- Text in ASCII has a byte for each character. -/
theorem encode_of_ascii {cs : List Char} (h : ∀ c ∈ cs, c.toNat < 0x80) :
    Utf8.encode cs = cs.map byte := by
  induction cs with
  | nil => rfl
  | cons c rest ih =>
      obtain ⟨hc, hrest⟩ := List.forall_mem_cons.1 h
      rw [Utf8.encode, List.flatMap_cons, Utf8.encodeChar_of_ascii hc, ← Utf8.encode, ih hrest]
      rfl

/-! ## Parts -/

/-- An escape is undone. -/
theorem decode_escapeByte (b : UInt8) (rest : List UInt8) :
    Percent.decode ((Percent.escapeByte b).map (unplus ∘ byte) ++ rest) =
      b :: Percent.decode rest := by
  have hb : b.toNat < 256 := b.toNat_lt
  have hdigit : ∀ n < 16, unplus (byte (Percent.digit n)) = byte (Percent.digit n) := by decide
  have hhi := hdigit (b.toNat / 16) (by omega)
  have hlo := hdigit (b.toNat % 16) (by omega)
  have hvalue : UInt8.ofNat (b.toNat / 16 * 16 + b.toNat % 16) = b := by
    rw [Nat.div_add_mod', UInt8.ofNat_toNat]
  simp only [Percent.escapeByte, List.map_cons, List.map_nil, Function.comp_apply, hhi, hlo,
    List.cons_append, List.nil_append]
  exact (Percent.decode_escape (Percent.value?_digit _ (by omega))
    (Percent.value?_digit _ (by omega)) rest).trans (congrArg (· :: _) hvalue)

theorem decode_escapeBytes (bytes rest : List UInt8) :
    Percent.decode ((bytes.flatMap Percent.escapeByte).map (unplus ∘ byte) ++ rest) =
      bytes ++ Percent.decode rest := by
  induction bytes with
  | nil => rfl
  | cons b bytes ih =>
      rw [List.flatMap_cons, List.map_append, List.append_assoc, decode_escapeByte, ih]
      rfl

/-- The bytes of a character are read back from its encoded form. -/
theorem decode_encodePart_singleton (c : Char) (rest : List UInt8) :
    Percent.decode ((encodePart [c]).map (unplus ∘ byte) ++ rest) =
      Utf8.encodeChar c ++ Percent.decode rest := by
  simp only [encodePart, List.flatMap_singleton]
  split
  · rename_i hblank
    subst hblank
    exact Percent.decode_cons_of_ne (by decide) rest
  · split
    · rename_i hplain
      obtain ⟨hascii, hpercent, _, hplus, _⟩ := isPlain_bounds hplain
      have hn : (byte c).toNat = c.toNat := Utf8.toNat_ofNat (by omega)
      have hkeep : unplus (byte c) = byte c := by
        refine if_neg fun h => hplus ?_
        rw [← hn, h]
        rfl
      have hne : byte c ≠ 0x25 := by
        intro h
        rw [← hn, h] at hpercent
        exact hpercent rfl
      rw [Utf8.encodeChar_of_ascii hascii, List.map_singleton, Function.comp_apply, hkeep]
      exact Percent.decode_cons_of_ne hne rest
    · exact decode_escapeBytes _ rest

theorem decode_encodePart (cs : List Char) :
    Percent.decode ((encodePart cs).map (unplus ∘ byte)) = Utf8.encode cs := by
  induction cs with
  | nil => rw [encodePart, List.flatMap_nil, List.map_nil, Percent.decode]; rfl
  | cons c rest ih =>
      have hsplit : encodePart (c :: rest) = encodePart [c] ++ encodePart rest := by
        simp only [encodePart, List.flatMap_cons, List.flatMap_nil, List.append_nil]
      rw [hsplit, List.map_append, decode_encodePart_singleton, ih]
      rfl

/-- The bytes of an encoded part. -/
def partBytes (s : String) : List UInt8 := (encodePart s.toList).map byte

theorem decodePart_partBytes (s : String) : decodePart (partBytes s) = s := by
  have hdecode : Percent.decode ((partBytes s).map unplus) = Utf8.encode s.toList := by
    rw [partBytes, List.map_map]
    exact decode_encodePart s.toList
  have hpart : decodePart (partBytes s) =
      String.ofList (Utf8.decodeLossy (Percent.decode ((partBytes s).map unplus))) := rfl
  rw [hpart, hdecode, Utf8.decodeLossy_encode, String.ofList_toList]

/-- No separator is in an encoded part. -/
theorem partBytes_ne {s : String} {b : UInt8} (hb : b ∈ partBytes s) : b ≠ 0x26 ∧ b ≠ 0x3D := by
  obtain ⟨c, hc, rfl⟩ := List.mem_map.1 hb
  obtain ⟨hascii, hamp, heq⟩ := isWritten_bounds (isWritten_encodePart _ c hc)
  have hn : (byte c).toNat = c.toNat := Utf8.toNat_ofNat (by omega)
  rw [← hn] at hamp heq
  constructor
  · exact fun h => hamp (by rw [h]; rfl)
  · exact fun h => heq (by rw [h]; rfl)

/-! ## Pairs -/

/-- The bytes of an encoded pair. -/
def pairBytes (p : String × String) : List UInt8 := partBytes p.1 ++ 0x3D :: partBytes p.2

theorem decodePair_pairBytes (p : String × String) : decodePair (pairBytes p) = p := by
  have hname : ∀ b ∈ partBytes p.1, (b != 0x3D) = true :=
    fun b hb => bne_iff_ne.2 (partBytes_ne hb).2
  have htake : (pairBytes p).takeWhile (· != 0x3D) = partBytes p.1 := by
    rw [pairBytes, List.takeWhile_append_of_pos hname]
    simp
  have hdrop : ((pairBytes p).dropWhile (· != 0x3D)).drop 1 = partBytes p.2 := by
    rw [pairBytes, List.dropWhile_append_of_pos hname]
    simp
  rw [decodePair, htake, hdrop, decodePart_partBytes, decodePart_partBytes]

theorem pairBytes_ne {p : String × String} {b : UInt8} (hb : b ∈ pairBytes p) : b ≠ 0x26 := by
  rcases List.mem_append.1 hb with hb | hb
  · exact (partBytes_ne hb).1
  · rcases List.mem_cons.1 hb with rfl | hb
    · decide
    · exact (partBytes_ne hb).1

theorem sequences_ne_nil (bytes : List UInt8) : sequences bytes ≠ [] := by
  cases bytes with
  | nil => exact List.cons_ne_nil _ _
  | cons b rest =>
      rw [sequences]
      split
      · exact List.cons_ne_nil _ _
      · split <;> exact List.cons_ne_nil _ _

/-- No sequence goes on across an ampersand. -/
theorem sequences_append (front rest : List UInt8) :
    sequences (front ++ 0x26 :: rest) = sequences front ++ sequences rest := by
  induction front with
  | nil => rfl
  | cons b front ih =>
      rw [List.cons_append, sequences, sequences, ih]
      split
      · rfl
      · cases hfront : sequences front with
        | nil => exact absurd hfront (sequences_ne_nil front)
        | cons s more => rfl

theorem sequences_of_ne {bytes : List UInt8} (h : ∀ b ∈ bytes, b ≠ 0x26) : sequences bytes = [bytes] := by
  induction bytes with
  | nil => rfl
  | cons b bytes ih =>
      obtain ⟨hb, hbytes⟩ := List.forall_mem_cons.1 h
      rw [sequences, if_neg hb, ih hbytes]

/-- The pairs of query strings that are joined by an ampersand, whatever these strings look like. -/
theorem decode_append (front rest : String) :
    decode (front ++ "&" ++ rest) = decode front ++ decode rest := by
  have hamp : Utf8.ofString "&" = [0x26] := rfl
  have hbytes : Utf8.ofString (front ++ "&" ++ rest) =
      Utf8.ofString front ++ 0x26 :: Utf8.ofString rest := by
    rw [Utf8.ofString, String.toList_append, String.toList_append, Utf8.encode_append, Utf8.encode_append,
      List.append_assoc, ← Utf8.ofString, ← Utf8.ofString, ← Utf8.ofString, hamp]
    rfl
  rw [decode, hbytes, sequences_append, List.filter_append, List.map_append]
  rfl

/-- The bytes of encoded pairs, joined. -/
def bytes : List (String × String) → List UInt8
  | [] => []
  | [p] => pairBytes p
  | p :: rest => pairBytes p ++ 0x26 :: bytes rest

theorem encode_encodePart (s : String) : Utf8.encode (encodePart s.toList) = partBytes s :=
  encode_of_ascii fun c hc => (isWritten_bounds (isWritten_encodePart _ c hc)).1

theorem encode_encodePair (p : String × String) : Utf8.encode (encodePair p) = pairBytes p := by
  have hequals : Utf8.encode ['='] = [0x3D] := rfl
  rw [encodePair, ← List.singleton_append, Utf8.encode_append, Utf8.encode_append, hequals,
    encode_encodePart, encode_encodePart]
  rfl

theorem encode_encode (pairs : List (String × String)) : Utf8.encode (encode pairs) = bytes pairs := by
  have hamp : Utf8.encode ['&'] = [0x26] := rfl
  fun_induction bytes pairs with
  | case1 => rfl
  | case2 p => exact encode_encodePair p
  | case3 p rest hne ih =>
      rw [encode, ← List.singleton_append, Utf8.encode_append, Utf8.encode_append, hamp,
        encode_encodePair, ih]
      · rfl
      · exact hne

/-- Sequences of bytes that are not empty. -/
theorem sequences_bytes {pairs : List (String × String)} (h : pairs ≠ []) :
    sequences (bytes pairs) = pairs.map pairBytes := by
  fun_induction bytes pairs with
  | case1 => exact absurd rfl h
  | case2 p => exact sequences_of_ne fun _ hb => pairBytes_ne hb
  | case3 p rest hne ih =>
      rw [sequences_append, sequences_of_ne fun _ hb => pairBytes_ne hb, ih hne]
      rfl

/-- Decoding undoes encoding. -/
theorem decode_encode (pairs : List (String × String)) :
    decode (String.ofList (encode pairs)) = pairs := by
  have hbytes : Utf8.ofString (String.ofList (encode pairs)) = bytes pairs := by
    rw [Utf8.ofString, String.toList_ofList, encode_encode]
  have hpair : ∀ p : String × String, (!(pairBytes p).isEmpty) = true := by
    intro p
    rw [pairBytes]
    simp
  cases pairs with
  | nil => rfl
  | cons p rest =>
      have hfilter : ((p :: rest).map pairBytes).filter (fun s => !s.isEmpty) =
          (p :: rest).map pairBytes := by
        refine List.filter_eq_self.2 fun s hs => ?_
        obtain ⟨q, _, rfl⟩ := List.mem_map.1 hs
        exact hpair q
      have hback : ∀ q ∈ p :: rest, (decodePair ∘ pairBytes) q = id q :=
        fun q _ => decodePair_pairBytes q
      rw [decode, hbytes, sequences_bytes (List.cons_ne_nil _ _), hfilter, List.map_map,
        List.map_congr_left hback, List.map_id]

end Form

end MetricFanout
