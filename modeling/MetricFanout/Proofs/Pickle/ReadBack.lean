import MetricFanout.Proofs.Pickle.Machine
/-!
# Pickled values are read back

The program that is written for a value pushes this value, whatever the stack is and whatever follows.

A value is told by its pickle if its integers have 64 bits, its texts fit a length of 32 bits, and the keys
of a dictionary are distinct. The items of a long list are appended in batches, so what is shown of a list is
shown for the items that are left, behind some that have been appended and some that wait on the stack.
-/

namespace MetricFanout

namespace Unpickle

open Pickle

/-! ## Values that fit -/

/-- The largest number of bytes of a text, and one more. -/
def textLimit : Nat := UInt32.size

/-- A text whose length can be told. -/
def FitsText (s : String) : Prop := (Utf8.ofString s).length < textLimit

instance (s : String) : Decidable (FitsText s) := inferInstanceAs (Decidable (_ < _))

/-- An integer of 64 bits. -/
def FitsInt (i : Int) : Prop := Int64.minValue.toInt ≤ i ∧ i ≤ Int64.maxValue.toInt

mutual
/-- A value that its pickle tells. -/
def Fits : Pickle → Prop
  | .int i => FitsInt i
  | .text s => FitsText s
  | .list items => AllFit items
  | .tuple items => AllFit items
  | .dict fields => (fields.map Prod.fst).Nodup ∧ FieldsFit fields
  | .none | .bool _ | .float _ => True

/-- Values that all fit. -/
def AllFit : List Pickle → Prop
  | [] => True
  | v :: rest => Fits v ∧ AllFit rest

/-- Keys and values that all fit. -/
def FieldsFit : List (String × Pickle) → Prop
  | [] => True
  | (k, v) :: rest => FitsText k ∧ Fits v ∧ FieldsFit rest
end

theorem allFit_iff {items : List Pickle} : AllFit items ↔ ∀ v ∈ items, Fits v := by
  induction items with
  | nil => simp [AllFit]
  | cons v rest ih => simp [AllFit, ih]

/-! ## Instructions with an operand -/

theorem split?_append {count : Nat} {first : List UInt8} (h : first.length = count)
    (rest : List UInt8) : split? count (first ++ rest) = some (first, rest) := by
  rw [split?, if_pos (by rw [List.length_append]; omega), ← h, List.take_left, List.drop_left]

theorem operand?_append {count : Nat} {first : List UInt8} (h : first.length = count)
    (rest : List UInt8) (meaning : List UInt8 → Pickle) :
    operand? count (first ++ rest) meaning = some (.push (meaning first), rest) := by
  rw [operand?, split?_append h]
  rfl

theorem run_push {m : Machine} {bytes rest : List UInt8} {v : Pickle}
    (hread : Instruction.read? bytes = some (.push v, rest)) : m.run bytes = (m.push v).run rest :=
  Machine.run_of_exec hread rfl

/-- Bytes in two's complement, at the front of a program. -/
theorem operand?_signed (count : Nat) {size : Nat} {i : Int} (hsize : Nat.pow 256 count = size)
    (hlow : -(size : Int) ≤ 2 * i) (hhigh : 2 * i < size) (rest : List UInt8) :
    operand? count (littleEndian count (i % size).toNat ++ rest) (fun bytes => .int (signed bytes)) =
      some (.push (.int i), rest) := by
  rw [operand?_append (length_littleEndian _ _), signed_littleEndian hsize hlow hhigh]

theorem run_int {i : Int} (h : FitsInt i) (m : Machine) (rest : List UInt8) :
    m.run (intBytes i ++ rest) = (m.push (.int i)).run rest := by
  have h32 : (UInt32.size : Int) = 2 * 2 ^ 31 := rfl
  have h64 : (UInt64.size : Int) = 2 * 2 ^ 63 := rfl
  rw [FitsInt, Int64.toInt_minValue, Int64.toInt_maxValue] at h
  rw [intBytes, Int32.toInt_minValue, Int32.toInt_maxValue]
  refine run_push ?_
  split
  · exact operand?_signed 4 (by decide) (by omega) (by omega) rest
  · exact operand?_signed 8 (by decide) (by omega) (by omega) rest

theorem run_float (x : Binary64) (m : Machine) (rest : List UInt8) :
    m.run (floatBytes x ++ rest) = (m.push (.float x)).run rest := by
  have hlength : (littleEndian 8 x.bits.toNat).reverse.length = 8 := by
    rw [List.length_reverse, length_littleEndian]
  have hlt : x.bits.toNat < Nat.pow 256 8 := x.bits.toNat_lt
  have hvalue : UInt64.ofNat (unsigned (littleEndian 8 x.bits.toNat).reverse.reverse) = x.bits := by
    rw [List.reverse_reverse, unsigned_littleEndian, Nat.mod_eq_of_lt hlt, UInt64.ofNat_toNat]
  have hread := operand?_append hlength rest fun bytes => .float ⟨UInt64.ofNat (unsigned bytes.reverse)⟩
  rw [hvalue] at hread
  exact run_push hread

theorem text?_append {s : String} (h : FitsText s) (rest : List UInt8) :
    text? (littleEndian 4 (Utf8.ofString s).length ++ Utf8.ofString s ++ rest) = some (s, rest) := by
  have hlt : (Utf8.ofString s).length < Nat.pow 256 4 := h
  rw [text?, List.append_assoc, split?_append (length_littleEndian _ _), Option.bind_some]
  dsimp only
  rw [unsigned_littleEndian, Nat.mod_eq_of_lt hlt, split?_append rfl, Option.bind_some,
    Utf8.toString?_ofString]
  rfl

theorem run_text {s : String} (h : FitsText s) (m : Machine) (rest : List UInt8) :
    m.run (textBytes s ++ rest) = (m.push (.text s)).run rest := by
  have hread := congrArg (Option.map fun x => (Instruction.push (.text x.1), x.2)) (text?_append h rest)
  exact run_push hread

/-! ## Instructions without one -/

theorem run_mark (m : Machine) (rest : List UInt8) :
    m.run (0x28 :: rest) = Machine.run ⟨[], m.stack :: m.aside⟩ rest :=
  Machine.run_of_exec rfl rfl

theorem run_appends (pending items stack : List Pickle) (aside : List (List Pickle))
    (rest : List UInt8) :
    Machine.run ⟨pending, (.list items :: stack) :: aside⟩ (0x65 :: rest) =
      Machine.run ⟨.list (items ++ pending.reverse) :: stack, aside⟩ rest :=
  Machine.run_of_exec rfl rfl

theorem run_tuple (items stack : List Pickle) (aside : List (List Pickle)) (rest : List UInt8) :
    Machine.run ⟨items.reverse, stack :: aside⟩ (0x74 :: rest) =
      Machine.run ⟨.tuple items :: stack, aside⟩ rest := by
  refine Machine.run_of_exec rfl ?_
  rw [Machine.exec, List.reverse_reverse]

/-! ## Dictionaries -/

/-- Keys and values in turn, as they are pushed. -/
def pushed (fields : List (String × Pickle)) : List Pickle := fields.flatMap fun f => [.text f.1, f.2]

/-- Setting distinct keys lists them in their order. -/
theorem setAll?_pushed (old fields : List (String × Pickle))
    (h : ((old ++ fields).map Prod.fst).Nodup) : setAll? old (pushed fields) = some (old ++ fields) := by
  induction fields generalizing old with
  | nil => rw [List.append_nil]; rfl
  | cons f rest ih =>
      have hnew : old.any (fun g => g.1 == f.1) = false := by
        rw [List.map_append, List.nodup_append] at h
        refine List.any_eq_false.2 fun g hg hkey => ?_
        exact h.2.2 _ (List.mem_map_of_mem hg) _ List.mem_cons_self (beq_iff_eq.1 hkey)
      have hset : setField old f.1 f.2 = old ++ [f] := by rw [setField, hnew]; rfl
      have hstep : setAll? old (pushed (f :: rest)) = setAll? (setField old f.1 f.2) (pushed rest) := rfl
      rw [hstep, hset, ih _ (by rwa [List.append_assoc]), List.append_assoc]
      rfl

theorem run_setItems {fields : List (String × Pickle)} (h : (fields.map Prod.fst).Nodup)
    (stack : List Pickle) (aside : List (List Pickle)) (rest : List UInt8) :
    Machine.run ⟨(pushed fields).reverse, (.dict [] :: stack) :: aside⟩ (0x75 :: rest) =
      Machine.run ⟨.dict fields :: stack, aside⟩ rest := by
  refine Machine.run_of_exec rfl ?_
  rw [Machine.exec]
  dsimp only
  rw [List.reverse_reverse, setAll?_pushed [] fields h]
  rfl

/-! ## Values -/

mutual
/-- The program of a value pushes it. -/
theorem run_code : ∀ {v : Pickle}, Fits v → ∀ (m : Machine) (rest : List UInt8),
    m.run (v.code ++ rest) = (m.push v).run rest
  | .none, _, m, rest => run_push rfl
  | .bool true, _, m, rest => run_push rfl
  | .bool false, _, m, rest => run_push rfl
  | .int i, h, m, rest => by rw [code]; exact run_int h m rest
  | .float x, _, m, rest => by rw [code]; exact run_float x m rest
  | .text s, h, m, rest => by rw [code]; exact run_text h m rest
  | .list [], _, m, rest => run_push rfl
  | .list (v :: items), h, m, rest => by
      have hempty : m.run (0x5D :: 0x28 :: (batches 0 (v :: items) ++ rest)) =
          Machine.run ⟨[], (.list [] :: m.stack) :: m.aside⟩ (batches 0 (v :: items) ++ rest) :=
        (run_push rfl).trans (run_mark _ _)
      rw [code, List.cons_append, List.cons_append, hempty, run_batches h]
      rfl
  | .tuple items, h, m, rest => by
      rw [code, List.cons_append, List.append_assoc, run_mark, run_sequence h, List.append_nil]
      exact run_tuple items m.stack m.aside rest
  | .dict fields, h, m, rest => by
      have hempty : m.run (0x7D :: 0x28 :: (fieldCode fields ++ [0x75] ++ rest)) =
          Machine.run ⟨[], (.dict [] :: m.stack) :: m.aside⟩ (fieldCode fields ++ [0x75] ++ rest) :=
        (run_push rfl).trans (run_mark _ _)
      rw [code, List.cons_append, List.cons_append, hempty, List.append_assoc, run_fieldCode h.2,
        List.append_nil]
      exact run_setItems h.1 m.stack m.aside rest

/-- The batches of a list append the items that are pending, and then those that are left. -/
theorem run_batches : ∀ {items : List Pickle}, AllFit items →
    ∀ (done : Nat) (pending front stack : List Pickle) (aside : List (List Pickle)) (rest : List UInt8),
      Machine.run ⟨pending, (.list front :: stack) :: aside⟩ (batches done items ++ rest) =
        Machine.run ⟨.list (front ++ pending.reverse ++ items) :: stack, aside⟩ rest
  | [], _, done, pending, front, stack, aside, rest => by
      rw [batches, List.append_nil]
      exact run_appends pending front stack aside rest
  | v :: items, h, done, pending, front, stack, aside, rest => by
      have hitems : front ++ (v :: pending).reverse ++ items = front ++ pending.reverse ++ v :: items := by
        simp
      rw [batches, List.append_assoc, List.append_assoc, run_code h.1, ← hitems]
      split
      · -- the batch is full: what is pending is appended, and nothing is pending then
        have hflush : Machine.run ⟨v :: pending, (.list front :: stack) :: aside⟩
            ([0x65, 0x28] ++ (batches (done + 1) items ++ rest)) =
            Machine.run ⟨[], (.list (front ++ (v :: pending).reverse) :: stack) :: aside⟩
              (batches (done + 1) items ++ rest) :=
          (run_appends _ _ _ _ _).trans (run_mark _ _)
        rw [Machine.push, hflush, run_batches h.2, List.reverse_nil, List.append_nil]
      · exact run_batches h.2 (done + 1) (v :: pending) front stack aside rest

/-- Values one after the other are all pushed. -/
theorem run_sequence : ∀ {items : List Pickle}, AllFit items →
    ∀ (stack : List Pickle) (aside : List (List Pickle)) (rest : List UInt8),
      Machine.run ⟨stack, aside⟩ (Pickle.sequence items ++ rest) =
        Machine.run ⟨items.reverse ++ stack, aside⟩ rest
  | [], _, stack, aside, rest => by rw [Pickle.sequence]; rfl
  | v :: items, h, stack, aside, rest => by
      rw [Pickle.sequence, List.append_assoc, run_code h.1, Machine.push, run_sequence h.2,
        List.reverse_cons, List.append_assoc, List.singleton_append]

/-- Keys and values in turn are all pushed. -/
theorem run_fieldCode : ∀ {fields : List (String × Pickle)}, FieldsFit fields →
    ∀ (stack : List Pickle) (aside : List (List Pickle)) (rest : List UInt8),
      Machine.run ⟨stack, aside⟩ (fieldCode fields ++ rest) =
        Machine.run ⟨(pushed fields).reverse ++ stack, aside⟩ rest
  | [], _, stack, aside, rest => by rw [fieldCode]; rfl
  | (k, v) :: fields, h, stack, aside, rest => by
      have hpushed : (pushed ((k, v) :: fields)).reverse ++ stack =
          (pushed fields).reverse ++ v :: .text k :: stack := by
        simp [pushed]
      rw [fieldCode, List.append_assoc, List.append_assoc, run_text h.1, run_code h.2.1, hpushed]
      exact run_fieldCode h.2.2 (v :: .text k :: stack) aside rest
end

/-- A pickle is read back, to its last byte, and nothing else is left on the stack. -/
theorem run_encode {v : Pickle} (h : Fits v) : Machine.run {} v.encode = some (⟨[v], []⟩, []) := by
  have hversion : Machine.run {} v.encode = Machine.run {} (v.code ++ [0x2E]) :=
    Machine.run_of_exec rfl rfl
  rw [hversion, run_code h, Machine.run_stop]
  rfl

end Unpickle

end MetricFanout
