import MetricFanout.Json.Record
import MetricFanout.Proofs.Decimal.Written
/-!
# Records are read back

The fields of a record that is written with distinct names are found under these names, in their order; a
list is read if each of its items is; and a 32-bit integer is read as it has been written.
-/

namespace MetricFanout.Json

variable {α : Type}

/-! ## Fields -/

theorem filter_record {fields : List (String × Json)} (h : (fields.map Prod.fst).Nodup)
    {f : String × Json} (hf : f ∈ fields) :
    (fields.map fun (k, v) => (some k, v)).filter (fun g => g.1 == some f.1) = [(some f.1, f.2)] := by
  induction fields with
  | nil => exact absurd hf List.not_mem_nil
  | cons g rest ih =>
      obtain ⟨hnew, hrest⟩ := List.nodup_cons.1 h
      rcases List.mem_cons.1 hf with rfl | hf
      · have hothers : (rest.map fun (k, v) => (some k, v)).filter (fun g => g.1 == some f.1) = [] := by
          refine List.filter_eq_nil_iff.2 fun e he hkey => ?_
          obtain ⟨g, hg, rfl⟩ := List.mem_map.1 he
          exact hnew (Option.some.inj (beq_iff_eq.1 hkey) ▸ List.mem_map_of_mem hg)
        rw [List.map_cons, List.filter_cons_of_pos (by simp), hothers]
      · have hne : g.1 ≠ f.1 := fun heq => hnew (heq ▸ List.mem_map_of_mem hf)
        rw [List.map_cons, List.filter_cons_of_neg (by simpa using hne), ih hrest hf]

/-- The fields of a record, by their names. -/
theorem fields?_record {names : List String} (values : List Json) (h : names.Nodup)
    (hlength : names.length = values.length) :
    (record (names.zip values)).fields? names = some (values.map some) := by
  have hnames : (names.zip values).map Prod.fst = names := List.map_fst_zip (Nat.le_of_eq hlength)
  have hvalues : (names.zip values).map Prod.snd = values :=
    List.map_snd_zip (Nat.le_of_eq hlength.symm)
  generalize names.zip values = fields at hnames hvalues
  subst hnames hvalues
  have hsome : ∀ part : List (String × Json), part ⊆ fields →
      (part.map Prod.fst).mapM (once · (fields.map fun (k, v) => (some k, v))) =
        some ((part.map Prod.snd).map some) := by
    intro part hpart
    induction part with
    | nil => rfl
    | cons f rest ih =>
        have honce : once f.1 (fields.map fun (k, v) => (some k, v)) = some (some f.2) := by
          rw [once, filter_record h (hpart List.mem_cons_self)]
        rw [List.map_cons, List.mapM_cons, honce, ih fun g hg => hpart (List.mem_cons_of_mem _ hg)]
        rfl
  have hkeys : (fields.map fun (k, v) => (some k, v)).all (fun f => f.1.isSome) = true := by
    rw [List.all_map]
    exact List.all_eq_true.2 fun _ _ => rfl
  rw [record, fields?, if_pos hkeys, hsome fields (List.Subset.refl _)]

/-! ## Lists and integers -/

/-- A list is read back if each of its items is, and otherwise it is not read at all. -/
theorem list?_map {toJson : α → Json} {ofJson? : Json → Option α} {p : α → Bool} {items : List α}
    (h : ∀ a ∈ items, ofJson? (toJson a) = if p a then some a else none) :
    list? ofJson? (.array (items.map toJson)) = if items.all p then some items else none := by
  rw [list?]
  induction items with
  | nil => rfl
  | cons a rest ih =>
      rw [List.map_cons, List.mapM_cons, h a List.mem_cons_self,
        ih fun b hb => h b (List.mem_cons_of_mem _ hb), List.all_cons]
      cases p a with
      | false => rfl
      | true => cases rest.all p <;> rfl

/-- A list whose items are all read back. -/
theorem list?_map_of_forall {toJson : α → Json} {ofJson? : Json → Option α} {items : List α}
    (h : ∀ a ∈ items, ofJson? (toJson a) = some a) :
    list? ofJson? (.array (items.map toJson)) = some items := by
  rw [list?_map (p := fun _ => true) h, if_pos (List.all_eq_true.2 fun _ _ => rfl)]

theorem int32?_toInt (i : Int32) : (Json.int i.toInt).int32? = some i := by
  have hrange : (decide (Int32.minValue.toInt ≤ i.toInt) && decide (i.toInt ≤ Int32.maxValue.toInt)) =
      true := by
    rw [Bool.and_eq_true, decide_eq_true_eq, decide_eq_true_eq]
    exact ⟨i.minValue_le_toInt, i.toInt_le⟩
  rw [int32?, intIn?, Numeral.toInt?_ofInt, Option.bind_some, if_pos hrange, Option.map_some,
    Int32.ofInt_toInt]

end MetricFanout.Json
