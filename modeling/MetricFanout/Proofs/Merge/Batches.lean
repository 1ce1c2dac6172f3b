import MetricFanout.Proofs.Merge.Firsts
/-!
# Unions do not depend on their batches

A union that is given items batch by batch keeps the first copy of each key, wherever the batches are cut. The
keys that it has seen are the keys of what it keeps, so that nothing changes when it is told again of what it
has.
-/

namespace MetricFanout

variable {α : Type} [Keyed α]

/-- The items whose keys occur at no earlier position. -/
def firstCopies (items : List α) : List α :=
  (items.zipIdx.filter fun x => Keyed.key x.1 ∉ (items.take x.2).map Keyed.key).map Prod.fst

theorem firstCopies_snoc (items : List α) (a : α) : firstCopies (items ++ [a]) =
    if Keyed.key a ∈ items.map Keyed.key then firstCopies items else firstCopies items ++ [a] := by
  -- What comes later does not matter to the positions that there have been before.
  have hbefore : (items.zipIdx.filter fun x => Keyed.key x.1 ∉ ((items ++ [a]).take x.2).map Keyed.key) =
      items.zipIdx.filter fun x => Keyed.key x.1 ∉ (items.take x.2).map Keyed.key := by
    refine List.filter_congr fun x hx => ?_
    have hposition : x.2 ≤ items.length := Nat.le_of_lt (List.mem_zipIdx' hx).1
    rw [List.take_append_of_le_length hposition]
  have hlast : [a].zipIdx (0 + items.length) = [(a, items.length)] := by
    rw [Nat.zero_add]
    rfl
  rw [firstCopies, List.zipIdx_append, List.filter_append, List.map_append, hbefore, hlast]
  by_cases hold : Keyed.key a ∈ items.map Keyed.key
  · simp [firstCopies, hold]
  · simp [firstCopies, hold]

theorem firstCopies_eq (items : List α) : firstCopies items = firsts items := by
  induction items using List.reverseRecOn with
  | nil => rfl
  | append_singleton items a ih => rw [firstCopies_snoc, firsts_snoc, ih]

namespace FirstSeen

/-- A union of batches that are given one after the other. -/
def ofBatches (batches : List (List α)) : FirstSeen α := batches.foldl extend {}

/-- The keys that were seen and the items that are kept are in step. -/
structure InStep (u : FirstSeen α) : Prop where
  seen : ∀ key, key ∈ u.seen ↔ key ∈ u.toList.map Keyed.key
  distinct : (u.toList.map Keyed.key).Nodup
  size : u.size = u.toList.length
  isEmpty : u.isEmpty = true ↔ u.toList = []
  again : ∀ more, (∀ a ∈ more, Keyed.key a ∈ u.seen) → u.extend more = u

theorem extend_of_seen {u : FirstSeen α} {more : List α} (h : ∀ a ∈ more, Keyed.key a ∈ u.seen) :
    u.extend more = u := by
  induction more with
  | nil => rfl
  | cons a rest ih =>
      obtain ⟨ha, hrest⟩ := List.forall_mem_cons.1 h
      have hkept : u.insert a = u := if_pos (List.contains_iff_mem.2 ha)
      rw [extend, List.foldl_cons, hkept]
      exact ih hrest

theorem Sees.inStep {u : FirstSeen α} {told : List α} (h : u.Sees told) : u.InStep := by
  have hlist : u.toList = firsts told := h.items
  constructor
  case seen =>
    intro key
    rw [h.seen, hlist, mem_keys_firsts]
  case distinct =>
    rw [hlist]
    exact nodup_keys_firsts told
  case size => rfl
  case isEmpty => exact List.isEmpty_iff
  case again => exact fun more hmore => extend_of_seen hmore

theorem sees_ofBatches (batches : List (List α)) : (ofBatches batches).Sees batches.flatten := by
  rw [ofBatches, foldl_extend]
  exact sees_extend batches.flatten

/-- A union of batches keeps exactly the items whose keys occur at no earlier position of all that it is given,
whatever the batches are. Batches that are cut elsewhere leave the same union, and after each batch the keys
that were seen are in step with what is kept. -/
theorem ofBatches_first_copies (batches : List (List α)) :
    (ofBatches batches).toList = firstCopies batches.flatten ∧
      (∀ others : List (List α), others.flatten = batches.flatten → ofBatches others = ofBatches batches) ∧
      ∀ n, (ofBatches (batches.take n)).InStep := by
  refine ⟨?_, fun others hsame => ?_, fun n => ?_⟩
  · rw [firstCopies_eq]
    exact (sees_ofBatches batches).items
  · rw [ofBatches, ofBatches, foldl_extend, foldl_extend, hsame]
  · exact (sees_ofBatches _).inStep

/-- Two cuts of the same matches, with a repeated key inside a batch in one of them and between batches in the
other. -/
theorem ofBatches_first_copies_cuts :
    ofBatches [[⟨"a", true⟩], [⟨"b", false⟩, ⟨"b", true⟩], [⟨"c", true⟩]] =
        ofBatches [[⟨"a", true⟩, ⟨"b", false⟩], [⟨"b", true⟩, (⟨"c", true⟩ : Match)]] ∧
      (ofBatches [[⟨"a", true⟩, ⟨"b", false⟩], [⟨"b", true⟩, (⟨"c", true⟩ : Match)]]).toList =
        [⟨"a", true⟩, ⟨"b", false⟩, ⟨"c", true⟩] := by
  obtain ⟨hcopies, hcuts, _⟩ :=
    ofBatches_first_copies [[⟨"a", true⟩, ⟨"b", false⟩], [⟨"b", true⟩, (⟨"c", true⟩ : Match)]]
  constructor
  · exact hcuts _ rfl
  · rw [hcopies]
    decide

end FirstSeen

end MetricFanout
