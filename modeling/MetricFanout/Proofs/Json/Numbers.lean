import MetricFanout.Json.Reader
import MetricFanout.Proofs.Decimal.Written
import MetricFanout.Proofs.Text.Utf8
/-!
# JSON numbers are read back

A numeral that may be written is read as it stands, digit by digit, provided that what follows it cannot
belong to it.

A numeral has no end of its own: a further digit, a point or the letter of an exponent would go on with it.
None of these begins a token that stands behind a number in a text.
-/

namespace MetricFanout.Json

open Numeral (digitChar Written)

variable {ds : List Nat} {rest : List UInt8}

/-! ## Digits -/

/-- A digit as a byte. -/
def digitByte (d : Nat) : UInt8 := UInt8.ofNat (48 + d)

theorem digit?_digitByte : ∀ d < 10, digit? (digitByte d) = some d := by decide

theorem encodeChar_digitChar : ∀ d < 10, Utf8.encodeChar (digitChar d) = [digitByte d] := by decide

theorem digitByte_ne : ∀ d < 10, digitByte d ≠ 0x2B ∧ digitByte d ≠ 0x2D ∧ digitByte d ≠ 0x2E := by decide

theorem encode_digits (h : ∀ d ∈ ds, d < 10) : Utf8.encode (ds.map digitChar) = ds.map digitByte := by
  induction ds with
  | nil => rfl
  | cons d ds ih =>
      rw [List.map_cons, List.map_cons, Utf8.encode, List.flatMap_cons,
        encodeChar_digitChar d (h d List.mem_cons_self), ← Utf8.encode,
        ih fun e he => h e (List.mem_cons_of_mem _ he), List.singleton_append]

/-- Bytes that do not go on with digits. -/
def EndsDigits (rest : List UInt8) : Prop := ∀ b ∈ rest.head?, digit? b = none

/-- Bytes that do not go on with a numeral. -/
def EndsNumeral (rest : List UInt8) : Prop :=
  ∀ b ∈ rest.head?, digit? b = none ∧ b ≠ 0x2E ∧ b ≠ 0x65 ∧ b ≠ 0x45

theorem EndsNumeral.endsDigits (h : EndsNumeral rest) : EndsDigits rest := fun b hb => (h b hb).1

theorem digits_append (h : ∀ d ∈ ds, d < 10) (hrest : EndsDigits rest) :
    digits (ds.map digitByte ++ rest) = (ds, rest) := by
  induction ds with
  | nil =>
      cases rest with
      | nil => rfl
      | cons b rest =>
          rw [List.map_nil, List.nil_append, digits, hrest b rfl]
  | cons d ds ih =>
      rw [List.map_cons, List.cons_append, digits, digit?_digitByte d (h d List.mem_cons_self),
        ih fun e he => h e (List.mem_cons_of_mem _ he)]

/-! ## Parts of a numeral -/

theorem wholePart_append (h : IsDigits ds) (hlead : ds.head? = some 0 → ds = [0])
    (hrest : EndsDigits rest) : wholePart (ds.map digitByte ++ rest) = some (ds, rest) := by
  rw [wholePart, digits_append h.2 hrest]
  split
  · rename_i heq
    exact absurd (Prod.mk.inj heq).1 h.1
  · rename_i heq
    rw [(Prod.mk.inj heq).1] at hlead
    rw [(Prod.mk.inj heq).1, hlead rfl]
    rfl
  · rename_i heq
    rw [(Prod.mk.inj heq).1, (Prod.mk.inj heq).2]

/-- A fraction with its point. -/
def fractionBytes : Option (List Nat) → List UInt8
  | none => []
  | some ds => 0x2E :: ds.map digitByte

theorem fractionPart_append {fraction : Option (List Nat)} (h : ∀ ds ∈ fraction, IsDigits ds)
    (hrest : EndsDigits rest) (hpoint : rest.head? ≠ some 0x2E) :
    fractionPart (fractionBytes fraction ++ rest) = some (fraction, rest) := by
  cases fraction with
  | none =>
      rw [fractionBytes, List.nil_append, fractionPart]
      intro behind heq
      rw [heq] at hpoint
      exact hpoint rfl
  | some ds =>
      have hds := h ds rfl
      rw [fractionBytes, List.cons_append, fractionPart, digits_append hds.2 hrest]
      split
      · rename_i heq
        exact absurd (Prod.mk.inj heq).1 hds.1
      · rename_i heq
        rw [(Prod.mk.inj heq).1, (Prod.mk.inj heq).2]

/-- The sign of an exponent. -/
def signBytes : Option Sign → List UInt8
  | none => []
  | some .plus => [0x2B]
  | some .minus => [0x2D]

/-- An exponent with its letter. -/
def exponentBytes : Option (Option Sign × List Nat) → List UInt8
  | none => []
  | some (sign, ds) => 0x65 :: (signBytes sign ++ ds.map digitByte)

theorem signPart_append (sign : Option Sign) (h : IsDigits ds) (rest : List UInt8) :
    signPart (signBytes sign ++ (ds.map digitByte ++ rest)) = (sign, ds.map digitByte ++ rest) := by
  cases sign with
  | none =>
      cases ds with
      | nil => exact absurd rfl h.1
      | cons d ds =>
          obtain ⟨hplus, hminus, _⟩ := digitByte_ne d (h.2 d List.mem_cons_self)
          rw [signBytes, List.nil_append, List.map_cons, List.cons_append, signPart]
          · exact fun behind heq => hplus (List.cons.inj heq).1
          · exact fun behind heq => hminus (List.cons.inj heq).1
  | some sign => cases sign <;> rfl

theorem exponentPart_append {exponent : Option (Option Sign × List Nat)}
    (h : ∀ x ∈ exponent, IsDigits x.2) (hrest : EndsNumeral rest) :
    exponentPart (exponentBytes exponent ++ rest) = some (exponent, rest) := by
  cases exponent with
  | none =>
      rw [exponentBytes, List.nil_append, exponentPart.eq_def]
      cases rest with
      | nil => rfl
      | cons b behind =>
          obtain ⟨_, _, hsmall, hcapital⟩ := hrest b rfl
          simp only [hsmall, hcapital, decide_false, Bool.or_self, Bool.false_eq_true, if_false]
  | some x =>
      obtain ⟨sign, ds⟩ := x
      have hds : IsDigits ds := h _ rfl
      have hletter : (decide ((0x65 : UInt8) = 0x65) || decide ((0x65 : UInt8) = 0x45)) = true := rfl
      rw [exponentBytes, List.cons_append, List.append_assoc, exponentPart.eq_def]
      dsimp only
      rw [if_pos hletter, signPart_append sign hds]
      dsimp only
      rw [digits_append hds.2 hrest.endsDigits]
      split
      · rename_i heq
        exact absurd (Prod.mk.inj heq).1 hds.1
      · rename_i heq
        rw [(Prod.mk.inj heq).1, (Prod.mk.inj heq).2]

/-! ## Numerals -/

/-- The bytes of a numeral behind its sign. -/
def magnitudeBytes (n : Numeral) : List UInt8 :=
  n.whole.map digitByte ++ (fractionBytes n.fraction ++ exponentBytes n.exponent)

theorem encode_fraction (fraction : Option (List Nat)) : (∀ ds ∈ fraction, IsDigits ds) →
    Utf8.encode (match fraction with
      | none => []
      | some ds => '.' :: ds.map digitChar) = fractionBytes fraction := by
  intro h
  cases fraction with
  | none => rfl
  | some ds =>
      rw [fractionBytes, ← encode_digits (h ds rfl).2]
      rfl

theorem encode_exponent (exponent : Option (Option Sign × List Nat)) : (∀ x ∈ exponent, IsDigits x.2) →
    Utf8.encode (match exponent with
      | none => []
      | some (none, ds) => 'e' :: ds.map digitChar
      | some (some .plus, ds) => 'e' :: '+' :: ds.map digitChar
      | some (some .minus, ds) => 'e' :: '-' :: ds.map digitChar) = exponentBytes exponent := by
  intro h
  cases exponent with
  | none => rfl
  | some x =>
      obtain ⟨sign, ds⟩ := x
      rw [exponentBytes, ← encode_digits (h _ rfl).2]
      cases sign with
      | none => rfl
      | some sign => cases sign <;> rfl

theorem encode_text {n : Numeral} (h : n.Written) :
    Utf8.encode n.text = (if n.negative then [0x2D] else []) ++ magnitudeBytes n := by
  have hsign : Utf8.encode (if n.negative then ['-'] else []) = if n.negative then [0x2D] else [] := by
    cases n.negative <;> rfl
  have htext : Utf8.encode n.text = Utf8.encode (if n.negative then ['-'] else []) ++
      Utf8.encode (n.whole.map digitChar) ++ fractionBytes n.fraction ++ exponentBytes n.exponent := by
    rw [← encode_fraction n.fraction h.fraction, ← encode_exponent n.exponent h.exponent,
      ← Utf8.encode_append, ← Utf8.encode_append, ← Utf8.encode_append]
    rfl
  rw [htext, hsign, encode_digits h.whole.2, magnitudeBytes, List.append_assoc, List.append_assoc]

/-- Neither a fraction nor an exponent goes on with digits. -/
theorem endsDigits_fraction (fraction : Option (List Nat)) (h : EndsDigits rest) :
    EndsDigits (fractionBytes fraction ++ rest) := by
  intro b hb
  cases fraction with
  | none => exact h b hb
  | some ds => obtain rfl := Option.some.inj hb; rfl

theorem endsDigits_exponent (exponent : Option (Option Sign × List Nat)) (h : EndsDigits rest) :
    EndsDigits (exponentBytes exponent ++ rest) := by
  intro b hb
  cases exponent with
  | none => exact h b hb
  | some x => obtain rfl := Option.some.inj hb; rfl

theorem head_exponent_ne (exponent : Option (Option Sign × List Nat)) (hrest : EndsNumeral rest) :
    (exponentBytes exponent ++ rest).head? ≠ some 0x2E := by
  intro hb
  cases exponent with
  | some x => exact absurd (Option.some.inj hb) (by decide)
  | none => exact absurd rfl (hrest _ hb).2.1

theorem magnitude_append {n : Numeral} (h : n.Written) (hrest : EndsNumeral rest) :
    magnitude n.negative (magnitudeBytes n ++ rest) = some (n, rest) := by
  have hexponent := endsDigits_exponent n.exponent hrest.endsDigits
  have hfraction := endsDigits_fraction n.fraction hexponent
  rw [magnitudeBytes, List.append_assoc, List.append_assoc, magnitude,
    wholePart_append h.whole h.lead hfraction]
  dsimp only
  rw [fractionPart_append h.fraction hexponent (head_exponent_ne n.exponent hrest)]
  dsimp only
  rw [exponentPart_append h.exponent hrest]

/-- A digit begins a number. -/
theorem token_digitByte {d : Nat} (h : d < 10) (rest : List UInt8) :
    token (digitByte d) rest = numberToken false (digitByte d :: rest) := by
  have hne : ∀ d < 10, ∀ b ∈ [0x5B, 0x5D, 0x7B, 0x7D, 0x2C, 0x3A, 0x22, 0x2D, 0x6E, 0x74, 0x66],
      digitByte d ≠ b := by decide +kernel
  simp only [List.forall_mem_cons] at hne
  obtain ⟨h1, h2, h3, h4, h5, h6, h7, h8, h9, h10, h11, -⟩ := hne d h
  rw [token, if_neg h1, if_neg h2, if_neg h3, if_neg h4, if_neg h5, if_neg h6, if_neg h7, if_neg h8,
    if_neg h9, if_neg h10, if_neg h11]

/-- The token of a numeral is read as that numeral. -/
theorem token_text {n : Numeral} (h : n.Written) (hrest : EndsNumeral rest) :
    ∃ b bytes, Utf8.encode n.text ++ rest = b :: bytes ∧ isSpace b = false ∧
      token b bytes = some (.number n, rest) := by
  have hmagnitude := magnitude_append h hrest
  rw [encode_text h]
  cases hsign : n.negative with
  | true =>
      rw [hsign] at hmagnitude
      refine ⟨0x2D, magnitudeBytes n ++ rest, rfl, rfl, ?_⟩
      change numberToken true (magnitudeBytes n ++ rest) = _
      rw [numberToken, hmagnitude, Option.map_some]
  | false =>
      rw [hsign] at hmagnitude
      obtain ⟨d, ds, hwhole⟩ := List.exists_cons_of_ne_nil h.whole.1
      have hd : d < 10 := h.whole.2 d (hwhole ▸ List.mem_cons_self)
      have hbytes : magnitudeBytes n ++ rest = digitByte d ::
          (ds.map digitByte ++ (fractionBytes n.fraction ++ exponentBytes n.exponent) ++ rest) := by
        rw [magnitudeBytes, hwhole]
        rfl
      have hspace : ∀ d < 10, isSpace (digitByte d) = false := by decide
      refine ⟨digitByte d, _, hbytes, hspace d hd, ?_⟩
      rw [token_digitByte hd, ← hbytes, numberToken, hmagnitude, Option.map_some]

end MetricFanout.Json
