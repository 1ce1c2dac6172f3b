import MetricFanout.Proofs.Text.Form
import MetricFanout.Proofs.Url.Escapes
import MetricFanout.Url.Idna
/-!
# Laws of mapping names

A mapping of names yields names in ASCII, in lower case and without characters that cannot stand in a name. It maps
such a name to itself if it has yielded it, or if no label of it is encoded.

## Implementation notes

The laws are a class beside the mapping: what is read from an address needs none of them, but that it is read back
needs them all. They hold of the mapping without tables, and still hold when it is told some names beyond ASCII.
-/

namespace MetricFanout

open Percent (Clean)

namespace Host

/-- A name in its one form: in ASCII, in lower case, and with allowed characters only. -/
structure IsForm (name : List Char) : Prop where
  ascii : ∀ c ∈ name, c.toNat < 0x80
  lower : ∀ c ∈ name, c.toLower = c
  allowed : Clean isForbidden name

/-- A form is spelled with one byte for each character. -/
theorem IsForm.toNat_byte {name : List Char} (h : IsForm name) : ∀ c ∈ name, (Form.byte c).toNat = c.toNat :=
  fun c hc => Utf8.toNat_ofNat (Nat.lt_trans (h.ascii c hc) (by decide))

end Host

/-- The laws of a mapping of names. -/
class LawfulIdna [Idna] : Prop where
  /-- What a name is mapped to is a form. -/
  form : ∀ {bytes : List UInt8} {name : List Char}, Idna.toAscii? bytes = some name → Host.IsForm name
  /-- What a name is mapped to is mapped to itself. -/
  again : ∀ {bytes : List UInt8} {name : List Char}, Idna.toAscii? bytes = some name →
    Idna.toAscii? (Utf8.encode name) = some name
  /-- A form without encoded labels is mapped to itself. -/
  plain : ∀ {name : List Char}, Host.IsForm name → (∀ label ∈ splitAt (· == '.') name, ¬ Idna.mark <+: label) →
    Idna.toAscii? (Utf8.encode name) = some name

namespace Idna

/-! ## Without tables -/

theorem isLabel_of_not_prefix {label : List Char} (h : ¬ mark <+: label) : isLabel label = true := by
  unfold isLabel
  split
  · rename_i digits
    exact absurd (List.prefix_append mark digits) h
  · rfl

theorem lower?_encode {name : List Char} (h : Host.IsForm name)
    (hlabels : ∀ label ∈ splitAt (· == '.') name, isLabel label = true) :
    lower? (Utf8.encode name) = some name := by
  have hascii : (name.map Form.byte).all (· < 0x80) = true := by
    refine List.all_eq_true.2 fun b hb => ?_
    obtain ⟨c, hc, rfl⟩ := List.mem_map.1 hb
    refine decide_eq_true (UInt8.lt_iff_toNat_lt.2 ?_)
    rw [h.toNat_byte c hc]
    exact h.ascii c hc
  have hname : (name.map Form.byte).map (fun b => (Char.ofNat b.toNat).toLower) = name := by
    have hsame : ∀ c ∈ name, ((fun b : UInt8 => (Char.ofNat b.toNat).toLower) ∘ Form.byte) c = id c := by
      intro c hc
      rw [Function.comp_apply, h.toNat_byte c hc, Char.ofNat_toNat, h.lower c hc]
      rfl
    rw [List.map_map, List.map_congr_left hsame, List.map_id]
  have hallowed : name.any Host.isForbidden = false := List.any_eq_false.2 fun c hc => by simp [h.allowed c hc]
  have hall : (splitAt (· == '.') name).all isLabel = true := List.all_eq_true.2 hlabels
  rw [Form.encode_of_ascii h.ascii]
  simp only [lower?, hascii, hname, hallowed, hall, if_true, Bool.not_true, Bool.or_false, Bool.false_eq_true,
    if_false]

theorem form_of_lower? {bytes : List UInt8} {name : List Char} (h : lower? bytes = some name) :
    Host.IsForm name ∧ ∀ label ∈ splitAt (· == '.') name, isLabel label = true := by
  have hlower : ∀ n < 0x80, (Char.ofNat n).toLower.toNat < 0x80 ∧
      (Char.ofNat n).toLower.toLower = (Char.ofNat n).toLower := by
    decide
  simp only [lower?] at h
  split at h
  · rename_i hascii
    split at h
    · cases h
    · rename_i hfine
      obtain rfl := Option.some.inj h
      simp only [Bool.or_eq_true, Bool.not_eq_true', not_or, Bool.not_eq_true, Bool.not_eq_false] at hfine
      have hbytes : ∀ b ∈ bytes, b.toNat < 0x80 := fun b hb =>
        UInt8.lt_iff_toNat_lt.1 (of_decide_eq_true (List.all_eq_true.1 hascii b hb))
      refine ⟨⟨fun c hc => ?_, fun c hc => ?_, fun c hc => ?_⟩, List.all_eq_true.1 hfine.2⟩
      · obtain ⟨b, hb, rfl⟩ := List.mem_map.1 hc
        exact (hlower _ (hbytes b hb)).1
      · obtain ⟨b, hb, rfl⟩ := List.mem_map.1 hc
        exact (hlower _ (hbytes b hb)).2
      · exact Bool.eq_false_iff.2 (List.any_eq_false.1 hfine.1 c hc)
  · cases h

instance lawful_ascii : @LawfulIdna ascii :=
  @LawfulIdna.mk ascii (fun h => (form_of_lower? h).1)
    (fun h => lower?_encode (form_of_lower? h).1 (form_of_lower? h).2)
    (fun h hplain => lower?_encode h fun label hlabel => isLabel_of_not_prefix (hplain label hlabel))

/-! ## Names that are told -/

/-- The mapping that is told some names, each by its bytes and its form. -/
@[reducible]
def knowing (names : List (List UInt8 × List Char)) (idna : Idna) : Idna :=
  ⟨fun bytes => (names.lookup bytes).or (idna.toAscii? bytes)⟩

section Knowing

variable {names : List (List UInt8 × List Char)} {idna : Idna}

theorem lookup_of_isForm (hnames : ∀ entry ∈ names, ∃ b ∈ entry.1, 0x80 ≤ b) {name : List Char}
    (h : Host.IsForm name) : names.lookup (Utf8.encode name) = none := by
  refine List.lookup_eq_none_iff.2 fun entry hentry => bne_iff_ne.2 fun heq => ?_
  obtain ⟨b, hb, hlarge⟩ := hnames entry hentry
  rw [← heq, Form.encode_of_ascii h.ascii] at hb
  obtain ⟨c, hc, rfl⟩ := List.mem_map.1 hb
  have hle := UInt8.le_iff_toNat_le.1 hlarge
  rw [h.toNat_byte c hc] at hle
  exact absurd (h.ascii c hc) (Nat.not_lt.2 hle)

/-- A lawful mapping stays so when it is told names beyond ASCII by forms that it maps to themselves. -/
theorem lawful_knowing [hlawful : LawfulIdna] (hnames : ∀ entry ∈ names, ∃ b ∈ entry.1, 0x80 ≤ b)
    (hforms : ∀ entry ∈ names, idna.toAscii? (Utf8.encode entry.2) = some entry.2) :
    @LawfulIdna (knowing names idna) := by
  have hknown : ∀ {bytes : List UInt8} {name : List Char}, (knowing names idna).toAscii? bytes = some name →
      idna.toAscii? (Utf8.encode name) = some name := by
    intro bytes name h
    rcases Option.or_eq_some_iff.1 h with hlookup | ⟨_, hmapped⟩
    · obtain ⟨_, _, rfl, _⟩ := List.lookup_eq_some_iff.1 hlookup
      exact hforms (bytes, name) List.mem_append_cons_self
    · exact hlawful.again hmapped
  have hsame : ∀ {name : List Char}, Host.IsForm name →
      (knowing names idna).toAscii? (Utf8.encode name) = idna.toAscii? (Utf8.encode name) := by
    intro name h
    change (names.lookup (Utf8.encode name)).or _ = _
    rw [lookup_of_isForm hnames h, Option.none_or]
  refine @LawfulIdna.mk (knowing names idna) ?form ?again ?plain
  case form => exact fun h => hlawful.form (hknown h)
  case again => exact fun h => (hsame (hlawful.form (hknown h))).trans (hknown h)
  case plain => exact fun h hplain => (hsame h).trans (hlawful.plain h hplain)

end Knowing

end Idna

namespace Umlaut

/-- A mapping that is told a name with an umlaut. -/
scoped instance idna : Idna :=
  .knowing [(Utf8.encode "bücher.example".toList, "xn--bcher-kva.example".toList)] .ascii

scoped instance lawful : LawfulIdna :=
  Idna.lawful_knowing (by decide +kernel) (by decide +kernel)

end Umlaut

end MetricFanout
