import MetricFanout.Proofs.Text.Utf8
import MetricFanout.Text.Percent
/-!
# What has been escaped needs no more escapes

Each part of a URL has a class of characters that are escaped in it. Escapes consist of percent signs and
digits, which belong to none of these classes, so that what has been escaped once is left alone.
-/

namespace MetricFanout.Percent

/-- No character of a text belongs to a class. -/
def Clean (p : Char → Bool) (cs : List Char) : Prop := ∀ c ∈ cs, p c = false

instance (p : Char → Bool) : DecidablePred (Clean p) := fun cs =>
  decidable_of_iff ((cs.all fun c => !p c) = true) (by simp [Clean])

/-- A class that holds no character of an escape. -/
structure Spares (p : Char → Bool) : Prop where
  percent : p '%' = false
  digit : ∀ n < 16, p (digit n) = false

variable {p q : Char → Bool}

theorem Clean.append {cs ds : List Char} (hcs : Clean p cs) (hds : Clean p ds) : Clean p (cs ++ ds) := by
  intro c hc
  rcases List.mem_append.1 hc with hc | hc
  · exact hcs c hc
  · exact hds c hc

theorem Clean.mono {cs : List Char} (h : Clean p cs) (hsub : ∀ c, p c = false → q c = false) :
    Clean q cs :=
  fun c hc => hsub c (h c hc)

theorem clean_escapeByte (h : Spares p) (b : UInt8) : Clean p (escapeByte b) := by
  have hb : b.toNat < 256 := b.toNat_lt
  intro c hc
  simp only [escapeByte, List.mem_cons, List.not_mem_nil, or_false] at hc
  rcases hc with rfl | rfl | rfl
  · exact h.percent
  · exact h.digit _ (by omega)
  · exact h.digit _ (by omega)

/-- Escaping keeps a character that it spares, and puts the escapes of bytes in the place of all others. -/
theorem mem_encodeWith {cs : List Char} {c : Char} (h : c ∈ encodeWith p cs) :
    (c ∈ cs ∧ p c = false) ∨ ∃ b, c ∈ escapeByte b := by
  obtain ⟨d, hmem, hd⟩ := List.mem_flatMap.1 h
  split at hd
  · obtain ⟨b, _, hb⟩ := List.mem_flatMap.1 hd
    exact .inr ⟨b, hb⟩
  · rename_i hkept
    rw [List.mem_singleton.1 hd]
    exact .inl ⟨hmem, Bool.eq_false_iff.2 hkept⟩

theorem clean_encodeWith (h : Spares p) (cs : List Char) : Clean p (encodeWith p cs) := by
  intro c hc
  rcases mem_encodeWith hc with ⟨_, hkept⟩ | ⟨b, hb⟩
  · exact hkept
  · exact clean_escapeByte h b c hb

/-- Escaping adds no characters of a class that holds none of an escape. -/
theorem Clean.encodeWith (hq : Spares q) {cs : List Char} (h : Clean q cs) : Clean q (encodeWith p cs) := by
  intro c hc
  rcases mem_encodeWith hc with ⟨hmem, _⟩ | ⟨b, hb⟩
  · exact h c hmem
  · exact clean_escapeByte hq b c hb

/-- A text in which nothing is to be escaped stays as it is. -/
theorem encodeWith_of_clean {cs : List Char} (h : Clean p cs) : encodeWith p cs = cs := by
  induction cs with
  | nil => rfl
  | cons c rest ih =>
      obtain ⟨hc, hrest⟩ := List.forall_mem_cons.1 h
      rw [encodeWith, List.flatMap_cons, if_neg (Bool.eq_false_iff.1 hc), ← encodeWith, ih hrest]
      rfl

/-! ## The front of a text -/

/-- A byte of ASCII is the whole of its character. -/
theorem toNat_of_mem_encodeChar {c : Char} {b : UInt8} (hb : b ∈ Utf8.encodeChar c) (hascii : b.toNat < 0x80) :
    b.toNat = c.toNat := by
  have hlow : ∀ k, 0x80 ≤ k → k < 0x100 → b ≠ UInt8.ofNat k := by
    rintro k hk hk' rfl
    rw [Utf8.toNat_ofNat hk'] at hascii
    omega
  simp only [Utf8.encodeChar, String.utf8EncodeChar] at hb
  split at hb
  · rw [List.mem_singleton.1 hb, Utf8.toNat_ofNat (by omega)]
    rfl
  · -- all bytes of a longer form are beyond ASCII
    exfalso
    split at hb
    · simp only [List.mem_cons, List.not_mem_nil, or_false] at hb
      rcases hb with hb | hb
      · exact hlow _ (by omega) (by omega) hb
      · exact hlow _ (by omega) (by omega) hb
    · split at hb
      · simp only [List.mem_cons, List.not_mem_nil, or_false] at hb
        rcases hb with hb | hb | hb
        · exact hlow _ (by omega) (by omega) hb
        · exact hlow _ (by omega) (by omega) hb
        · exact hlow _ (by omega) (by omega) hb
      · simp only [List.mem_cons, List.not_mem_nil, or_false] at hb
        rcases hb with hb | hb | hb | hb
        · exact hlow _ (by omega) (by omega) hb
        · exact hlow _ (by omega) (by omega) hb
        · exact hlow _ (by omega) (by omega) hb
        · exact hlow _ (by omega) (by omega) hb

/-- The escape of a character starts with that of a byte, which is the character if it is in ASCII. -/
theorem exists_escapeChar (c : Char) : ∃ b rest,
    escapeChar c = escapeByte b ++ rest ∧ (b.toNat < 0x80 → b.toNat = c.toNat) := by
  obtain ⟨b, bytes, hbytes, _⟩ := Utf8.leading_encodeChar c []
  refine ⟨b, bytes.flatMap escapeByte, ?_, toNat_of_mem_encodeChar (hbytes ▸ List.mem_cons_self)⟩
  rw [escapeChar, hbytes, List.flatMap_cons]

/-- Escaping leaves nothing out. -/
theorem encodeWith_eq_nil {cs : List Char} (h : encodeWith p cs = []) : cs = [] := by
  cases cs with
  | nil => rfl
  | cons c rest =>
      rw [encodeWith, List.flatMap_cons, List.append_eq_nil_iff] at h
      obtain ⟨hfirst, _⟩ := h
      split at hfirst
      · obtain ⟨b, more, hescape, _⟩ := exists_escapeChar c
        rw [hescape] at hfirst
        cases hfirst
      · cases hfirst

/-- A text that is escaped starts as before unless it starts with an escape. -/
theorem exists_of_encodeWith_eq_cons {cs rest : List Char} {c : Char} (h : encodeWith p cs = c :: rest)
    (hc : c ≠ '%') : ∃ cs', cs = c :: cs' ∧ encodeWith p cs' = rest := by
  cases cs with
  | nil => cases h
  | cons d cs' =>
      rw [encodeWith, List.flatMap_cons, ← encodeWith] at h
      split at h
      · obtain ⟨b, more, hescape, _⟩ := exists_escapeChar d
        rw [hescape] at h
        exact absurd (List.cons.inj h).1.symm hc
      · obtain ⟨rfl, hrest⟩ := List.cons.inj h
        exact ⟨cs', rfl, hrest⟩

/-- A text that starts with an escape has had it from the start, or has got it for its first character. -/
theorem exists_of_encodeWith_eq_percent {cs rest : List Char} (h : encodeWith p cs = '%' :: rest) :
    (∃ cs', cs = '%' :: cs' ∧ encodeWith p cs' = rest) ∨
      ∃ b : UInt8, ∃ more, '%' :: rest = escapeByte b ++ more ∧
        (b.toNat < 0x80 → p (Char.ofNat b.toNat) = true) := by
  cases cs with
  | nil => cases h
  | cons d cs' =>
      rw [encodeWith, List.flatMap_cons, ← encodeWith] at h
      split at h
      · rename_i hd
        obtain ⟨b, more, hescape, hascii⟩ := exists_escapeChar d
        rw [hescape, List.append_assoc] at h
        refine .inr ⟨b, _, h.symm, fun hb => ?_⟩
        rw [hascii hb, Char.ofNat_toNat]
        exact hd
      · obtain ⟨rfl, hrest⟩ := List.cons.inj h
        exact .inl ⟨cs', rfl, hrest⟩

end MetricFanout.Percent
