import MetricFanout.Proofs.Json.Numbers
import MetricFanout.Proofs.Json.Strings
/-!
# JSON values are read back

The text of a value is cut into the tokens of that value, and these make up the value again. This holds for
every value whose numerals may be written, also where a string denotes no text.

Tokens are written without blanks between them. They are told apart because no number stands directly in
front of another: behind an item or a field there is a comma or the end of the array or object.
-/

namespace MetricFanout.Json

/-! ## Values that may be written -/

mutual
/-- A value whose numerals may be written. -/
def Written : Json → Prop
  | .number n => n.Written
  | .array items => AllWritten items
  | .object fields => FieldsWritten fields
  | .null | .bool _ | .string _ => True

/-- Values that may all be written. -/
def AllWritten : List Json → Prop
  | [] => True
  | v :: rest => v.Written ∧ AllWritten rest

/-- Fields whose values may all be written. -/
def FieldsWritten : List (Option String × Json) → Prop
  | [] => True
  | (_, v) :: rest => v.Written ∧ FieldsWritten rest
end

theorem allWritten_iff {items : List Json} : AllWritten items ↔ ∀ v ∈ items, v.Written := by
  induction items with
  | nil => simp [AllWritten]
  | cons v rest ih => simp [AllWritten, ih]

theorem written_int (i : Int) : (Json.int i).Written := Numeral.written_ofInt i

theorem written_double (x : Binary64) : (double x).Written := by
  rw [double]
  cases h : Numeral.ofBinary64 x with
  | none => trivial
  | some n => exact Numeral.written_ofBinary64 h

theorem written_single (x : Binary32) : (single x).Written := by
  rw [single]
  cases h : Numeral.ofBinary32 x with
  | none => trivial
  | some n => exact Numeral.written_ofBinary32 h

theorem written_map {α : Type} {toJson : α → Json} (h : ∀ a, (toJson a).Written) (items : List α) :
    (Json.array (items.map toJson)).Written := by
  refine allWritten_iff.2 fun v hv => ?_
  obtain ⟨a, _, rfl⟩ := List.mem_map.1 hv
  exact h a

/-! ## Tokens -/

/-- The bytes of a token. -/
def Token.bytes (t : Token) : List UInt8 := Utf8.encode t.chars

/-- Bytes behind a token that cannot belong to it. -/
def Token.Ends (rest : List UInt8) : Token → Prop
  | .number n => n.Written ∧ EndsNumeral rest
  | _ => True

/-- A token is read as it has been written. -/
theorem token_bytes {t : Token} {rest : List UInt8} (h : t.Ends rest) :
    ∃ b bytes, t.bytes ++ rest = b :: bytes ∧ isSpace b = false ∧ token b bytes = some (t, rest) := by
  cases t with
  | openArray => exact ⟨0x5B, rest, rfl, rfl, rfl⟩
  | closeArray => exact ⟨0x5D, rest, rfl, rfl, rfl⟩
  | openObject => exact ⟨0x7B, rest, rfl, rfl, rfl⟩
  | closeObject => exact ⟨0x7D, rest, rfl, rfl, rfl⟩
  | comma => exact ⟨0x2C, rest, rfl, rfl, rfl⟩
  | colon => exact ⟨0x3A, rest, rfl, rfl, rfl⟩
  | null => exact ⟨0x6E, 0x75 :: 0x6C :: 0x6C :: rest, rfl, rfl, rfl⟩
  | bool b =>
      cases b with
      | true => exact ⟨0x74, 0x72 :: 0x75 :: 0x65 :: rest, rfl, rfl, rfl⟩
      | false => exact ⟨0x66, 0x61 :: 0x6C :: 0x73 :: 0x65 :: rest, rfl, rfl, rfl⟩
  | number n => exact token_text h.1 h.2
  | string content =>
      cases content with
      | none => exact ⟨0x22, _, rfl, rfl, stringToken_none rest⟩
      | some s => exact ⟨0x22, _, rfl, rfl, stringToken_append s rest⟩

theorem scan_bytes {t : Token} {rest : List UInt8} (h : t.Ends rest) :
    scan (t.bytes ++ rest) = (scan rest).map (t :: ·) := by
  obtain ⟨b, bytes, hbytes, hspace, htoken⟩ := token_bytes h
  rw [hbytes, scan.eq_def]
  dsimp only
  rw [if_neg (by simp [hspace])]
  split
  · rename_i hnone
    exact absurd (htoken.symm.trans hnone) (by simp)
  · rename_i u more hsome
    obtain ⟨rfl, rfl⟩ := Prod.mk.inj (Option.some.inj (htoken.symm.trans hsome))
    rfl

/-- Tokens, one after the other. -/
def bytesOf (ts : List Token) : List UInt8 := ts.flatMap Token.bytes

theorem bytesOf_cons (t : Token) (ts : List Token) : bytesOf (t :: ts) = t.bytes ++ bytesOf ts :=
  List.flatMap_cons

theorem bytesOf_append (ts us : List Token) : bytesOf (ts ++ us) = bytesOf ts ++ bytesOf us :=
  List.flatMap_append

/-- Behind an item there is a comma or the end of the array. -/
theorem endsNumeral_restItems (items : List Json) (rest : List UInt8) :
    EndsNumeral (bytesOf (restItems items) ++ rest) := by
  intro b hb
  cases items with
  | nil => obtain rfl := Option.some.inj hb; decide
  | cons v items => obtain rfl := Option.some.inj hb; decide

/-- Behind a field there is a comma or the end of the object. -/
theorem endsNumeral_restFields (fields : List (Option String × Json)) (rest : List UInt8) :
    EndsNumeral (bytesOf (restFields fields) ++ rest) := by
  intro b hb
  cases fields with
  | nil => obtain rfl := Option.some.inj hb; decide
  | cons f fields => obtain rfl := Option.some.inj hb; decide

/-- A token in front of others. -/
theorem scan_cons {t : Token} {ts : List Token} {rest : List UInt8} (ht : t.Ends (bytesOf ts ++ rest))
    (h : scan (bytesOf ts ++ rest) = (scan rest).map (ts ++ ·)) :
    scan (bytesOf (t :: ts) ++ rest) = (scan rest).map (t :: ts ++ ·) := by
  rw [bytesOf_cons, List.append_assoc, scan_bytes ht, h, Option.map_map]
  rfl

/-- Tokens in front of others. -/
theorem scan_append {ts us : List Token} {rest : List UInt8}
    (h : scan (bytesOf ts ++ (bytesOf us ++ rest)) = (scan (bytesOf us ++ rest)).map (ts ++ ·))
    (h' : scan (bytesOf us ++ rest) = (scan rest).map (us ++ ·)) :
    scan (bytesOf (ts ++ us) ++ rest) = (scan rest).map (ts ++ us ++ ·) := by
  rw [bytesOf_append, List.append_assoc, h, h', Option.map_map]
  simp only [Function.comp_def, List.append_assoc]

mutual
/-- The text of a value is cut into its tokens. -/
theorem scan_tokens : ∀ {v : Json}, v.Written → ∀ {rest : List UInt8}, EndsNumeral rest →
    scan (bytesOf v.tokens ++ rest) = (scan rest).map (v.tokens ++ ·)
  | .null, _, rest, _ => scan_cons trivial (by simp [bytesOf])
  | .bool b, _, rest, _ => scan_cons trivial (by simp [bytesOf])
  | .number n, h, rest, hrest => scan_cons ⟨h, hrest⟩ (by simp [bytesOf])
  | .string s, _, rest, _ => scan_cons trivial (by simp [bytesOf])
  | .array items, h, rest, _ => by
      rw [tokens]
      exact scan_cons trivial (scan_itemTokens h rest)
  | .object fields, h, rest, _ => by
      rw [tokens]
      exact scan_cons trivial (scan_fieldTokens h rest)

theorem scan_itemTokens : ∀ {items : List Json}, AllWritten items → ∀ rest : List UInt8,
    scan (bytesOf (itemTokens items) ++ rest) = (scan rest).map (itemTokens items ++ ·)
  | [], _, rest => scan_cons trivial (by simp [bytesOf])
  | v :: items, h, rest => by
      rw [itemTokens]
      exact scan_append (scan_tokens h.1 (endsNumeral_restItems items rest)) (scan_restItems h.2 rest)

theorem scan_restItems : ∀ {items : List Json}, AllWritten items → ∀ rest : List UInt8,
    scan (bytesOf (restItems items) ++ rest) = (scan rest).map (restItems items ++ ·)
  | [], _, rest => scan_cons trivial (by simp [bytesOf])
  | v :: items, h, rest => by
      rw [restItems]
      exact scan_cons trivial
        (scan_append (scan_tokens h.1 (endsNumeral_restItems items rest)) (scan_restItems h.2 rest))

theorem scan_fieldTokens : ∀ {fields : List (Option String × Json)}, FieldsWritten fields →
    ∀ rest : List UInt8,
      scan (bytesOf (fieldTokens fields) ++ rest) = (scan rest).map (fieldTokens fields ++ ·)
  | [], _, rest => scan_cons trivial (by simp [bytesOf])
  | (k, v) :: fields, h, rest => by
      rw [fieldTokens]
      exact scan_cons trivial (scan_cons trivial (scan_append
        (scan_tokens h.1 (endsNumeral_restFields fields rest)) (scan_restFields h.2 rest)))

theorem scan_restFields : ∀ {fields : List (Option String × Json)}, FieldsWritten fields →
    ∀ rest : List UInt8,
      scan (bytesOf (restFields fields) ++ rest) = (scan rest).map (restFields fields ++ ·)
  | [], _, rest => scan_cons trivial (by simp [bytesOf])
  | (k, v) :: fields, h, rest => by
      rw [restFields]
      exact scan_cons trivial (scan_cons trivial (scan_cons trivial (scan_append
        (scan_tokens h.1 (endsNumeral_restFields fields rest)) (scan_restFields h.2 rest))))
end

/-! ## Values -/

/-- A value does not begin with the end of an array. -/
theorem run_arrayStart (v : Json) (stack : List Frame) (rest : List Token) :
    (Position.arrayStart stack).run (v.tokens ++ rest) =
      (Position.value (.array [] :: stack)).run (v.tokens ++ rest) := by
  cases v with
  | null => rfl
  | bool b => rfl
  | number n => rfl
  | string s => rfl
  | array items => rfl
  | object fields => rfl

mutual
/-- The tokens of a value, where a value must come, lead behind that value. -/
theorem run_tokens : ∀ (v : Json) (stack : List Frame) (rest : List Token),
    (Position.value stack).run (v.tokens ++ rest) = (Position.ended v stack).run rest
  | .null, _, _ => rfl
  | .bool _, _, _ => rfl
  | .number _, _, _ => rfl
  | .string _, _, _ => rfl
  | .array items, stack, rest => run_itemTokens items stack rest
  | .object fields, stack, rest => run_fieldTokens fields stack rest

theorem run_itemTokens : ∀ (items : List Json) (stack : List Frame) (rest : List Token),
    (Position.arrayStart stack).run (itemTokens items ++ rest) =
      (Position.ended (.array items) stack).run rest
  | [], stack, rest => rfl
  | v :: items, stack, rest => by
      rw [itemTokens, List.append_assoc, run_arrayStart, run_tokens v]
      exact run_restItems items v [] stack rest

/-- Further items are added to those in front of them, of which the latest stands first. -/
theorem run_restItems : ∀ (items : List Json) (v : Json) (front : List Json) (stack : List Frame)
    (rest : List Token),
      (Position.ended v (.array front :: stack)).run (restItems items ++ rest) =
        (Position.ended (.array ((v :: front).reverse ++ items)) stack).run rest
  | [], v, front, stack, rest => by rw [List.append_nil]; rfl
  | w :: items, v, front, stack, rest => by
      have hstep : (Position.ended v (.array front :: stack)).run (restItems (w :: items) ++ rest) =
          (Position.value (.array (v :: front) :: stack)).run
            (w.tokens ++ (restItems items ++ rest)) := by
        rw [restItems, List.cons_append, List.append_assoc]
        rfl
      rw [hstep, run_tokens w, run_restItems items w (v :: front) stack rest, List.reverse_cons,
        List.append_assoc, List.singleton_append]

theorem run_fieldTokens : ∀ (fields : List (Option String × Json)) (stack : List Frame)
    (rest : List Token),
      (Position.objectStart stack).run (fieldTokens fields ++ rest) =
        (Position.ended (.object fields) stack).run rest
  | [], stack, rest => rfl
  | (k, v) :: fields, stack, rest => by
      have hstep : (Position.objectStart stack).run (fieldTokens ((k, v) :: fields) ++ rest) =
          (Position.value (.object [] k :: stack)).run (v.tokens ++ (restFields fields ++ rest)) := by
        rw [fieldTokens, List.cons_append, List.cons_append, List.append_assoc]
        rfl
      rw [hstep, run_tokens v]
      exact run_restFields fields k v [] stack rest

/-- Further fields are added to those in front of them, of which the latest stands first. -/
theorem run_restFields : ∀ (fields : List (Option String × Json)) (k : Option String) (v : Json)
    (front : List (Option String × Json)) (stack : List Frame) (rest : List Token),
      (Position.ended v (.object front k :: stack)).run (restFields fields ++ rest) =
        (Position.ended (.object (((k, v) :: front).reverse ++ fields)) stack).run rest
  | [], k, v, front, stack, rest => by rw [List.append_nil]; rfl
  | (l, w) :: fields, k, v, front, stack, rest => by
      have hstep : (Position.ended v (.object front k :: stack)).run
          (restFields ((l, w) :: fields) ++ rest) =
          (Position.value (.object ((k, v) :: front) l :: stack)).run
            (w.tokens ++ (restFields fields ++ rest)) := by
        rw [restFields, List.cons_append, List.cons_append, List.cons_append, List.append_assoc]
        rfl
      rw [hstep, run_tokens w, run_restFields fields l w ((k, v) :: front) stack rest,
        List.reverse_cons, List.append_assoc, List.singleton_append]
end

/-- The tokens of a value make up that value. -/
theorem ofTokens?_tokens (v : Json) : ofTokens? v.tokens = some v := by
  have hrun := run_tokens v [] []
  rw [List.append_nil] at hrun
  rw [ofTokens?, hrun]
  rfl

/-! ## Texts -/

/-- The bytes of the compact text of a value. -/
def encode (v : Json) : List UInt8 := Utf8.ofString v.render

theorem encode_eq (v : Json) : v.encode = bytesOf v.tokens := by
  rw [encode, Utf8.ofString, render, String.toList_ofList, Utf8.encode, List.flatMap_assoc]
  rfl

/-- A value is read back from its text. -/
theorem parse_encode {v : Json} (h : v.Written) : parse v.encode = some v := by
  have hend : EndsNumeral [] := fun b hb => absurd hb (by simp)
  have hscan := scan_tokens h hend
  have hnil : scan [] = some [] := by rw [scan]
  rw [List.append_nil, hnil, Option.map_some, List.append_nil] at hscan
  rw [parse, encode_eq, hscan, Option.bind_some, ofTokens?_tokens]

end MetricFanout.Json
