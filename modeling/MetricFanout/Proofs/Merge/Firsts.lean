import MetricFanout.Engine.Basic
import MetricFanout.Proofs.Merge.Find
/-!
# The first of everything

Of items with the same key only the first one counts. The matches of a merged find are the first ones of
all matches that were reported, and a union in first-seen order has the first ones of all its batches.
-/

namespace MetricFanout

/-- Items without later ones under the same key. -/
def firsts {α : Type} [Keyed α] : List α → List α
  | [] => []
  | a :: rest => a :: (firsts rest).filter fun b => Keyed.key b ≠ Keyed.key a

variable {α : Type} [Keyed α]

/-- One more item counts if its key is new. -/
theorem firsts_snoc (items : List α) (a : α) : firsts (items ++ [a]) =
    if Keyed.key a ∈ items.map Keyed.key then firsts items else firsts items ++ [a] := by
  induction items with
  | nil => rfl
  | cons b rest ih =>
      rw [List.cons_append, firsts, ih, List.map_cons]
      by_cases hrest : Keyed.key a ∈ rest.map Keyed.key
      · rw [if_pos hrest, if_pos (List.mem_cons_of_mem _ hrest)]
        rfl
      · rw [if_neg hrest, List.filter_append]
        by_cases hfirst : Keyed.key a = Keyed.key b
        · simp [firsts, hfirst]
        · rw [if_neg (by simp [hfirst, hrest])]
          simp [firsts, hfirst]

/-- The keys of what counts are all keys, each once. -/
theorem map_key_firsts (items : List α) :
    (firsts items).map Keyed.key = (items.map Keyed.key).eraseDups := by
  induction items using List.reverseRecOn with
  | nil => rfl
  | append_singleton items a ih =>
      rw [firsts_snoc, List.map_append, List.map_singleton]
      by_cases hold : Keyed.key a ∈ items.map Keyed.key
      · rw [if_pos hold, Distinct.eraseDups_snoc_of_mem hold, ih]
      · rw [if_neg hold, Distinct.eraseDups_snoc_of_not_mem hold, List.map_append, List.map_singleton,
          ih]

theorem mem_keys_firsts (items : List α) (key : String) :
    key ∈ (firsts items).map Keyed.key ↔ key ∈ items.map Keyed.key := by
  rw [map_key_firsts, List.mem_eraseDups]

/-- No key counts twice. -/
theorem nodup_keys_firsts (items : List α) :
    ((firsts items).map Keyed.key).Nodup := by
  rw [map_key_firsts]
  exact Distinct.nodup_eraseDups _

theorem firsts_subset (items : List α) : firsts items ⊆ items := by
  induction items with
  | nil => exact List.nil_subset _
  | cons a rest ih =>
      rw [firsts]
      exact List.cons_subset_cons a (List.Subset.trans List.filter_sublist.subset ih)

/-- What is the same for all items under a key may be looked at before or after. -/
theorem firsts_filter {items : List α} {p : α → Bool}
    (h : ∀ a ∈ items, ∀ b ∈ items, Keyed.key a = Keyed.key b → p a = p b) :
    firsts (items.filter p) = (firsts items).filter p := by
  induction items using List.reverseRecOn with
  | nil => rfl
  | append_singleton items a ih =>
      have hitems := ih fun b hb c hc =>
        h b (List.mem_append_left _ hb) c (List.mem_append_left _ hc)
      have hsame : ∀ b ∈ items, Keyed.key b = Keyed.key a → p b = p a := fun b hb =>
        h b (List.mem_append_left _ hb) a (List.mem_append_right _ (List.mem_singleton_self a))
      rw [List.filter_append, firsts_snoc]
      cases hp : p a with
      | false =>
          have hnone : [a].filter p = [] := by simp [hp]
          rw [hnone, List.append_nil, hitems]
          split
          · rfl
          · rw [List.filter_append, hnone, List.append_nil]
      | true =>
          have hone : [a].filter p = [a] := by simp [hp]
          have hkeys : Keyed.key a ∈ (items.filter p).map Keyed.key ↔
              Keyed.key a ∈ items.map Keyed.key := by
            simp only [List.mem_map, List.mem_filter]
            constructor
            · rintro ⟨b, ⟨hb, _⟩, hkey⟩
              exact ⟨b, hb, hkey⟩
            · rintro ⟨b, hb, hkey⟩
              exact ⟨b, ⟨hb, (hsame b hb hkey).trans hp⟩, hkey⟩
          rw [hone, firsts_snoc, hitems]
          simp only [hkeys]
          split
          · rfl
          · rw [List.filter_append, hone]

/-! ## Merged finds -/

theorem FindMerge.found_tell (told : List (String × Match)) :
    (tell {} told).found = firsts (told.map Prod.snd) := by
  induction told using List.reverseRecOn with
  | nil => rfl
  | append_singleton told x ih =>
      have hfresh : ((tell {} told).holdersOf x.2.path).isEmpty = true ↔
          ¬ Keyed.key x.2 ∈ (told.map Prod.snd).map Keyed.key := by
        have hkeys : (told.map Prod.snd).map Keyed.key = told.map fun y => y.2.path := List.map_map
        rw [hkeys]
        exact (says_tell told).isEmpty_holdersOf x.2.path
      have hsnoc : tell {} (told ++ [x]) = (tell {} told).addMatch x.1 x.2 := by
        simp only [tell, List.foldl_append, List.foldl_cons, List.foldl_nil]
      rw [hsnoc, List.map_append, List.map_singleton, firsts_snoc, ← ih]
      simp only [addMatch, hfresh, ite_not]

/-- The matches of a merged find are the first ones of all that were reported. -/
theorem FindMerge.found_merged (replies : List (Reply (List Match))) :
    (merged replies).found = firsts (replies.flatMap matchesOf) := by
  rw [merged, foldl_addReply, ← map_snd_reports]
  exact found_tell _

/-! ## Unions -/

namespace FirstSeen

/-- A union that has seen items. -/
structure Sees (u : FirstSeen α) (told : List α) : Prop where
  items : u.items = firsts told
  seen : ∀ key, key ∈ u.seen ↔ key ∈ told.map Keyed.key

theorem Sees.insert {u : FirstSeen α} {items : List α} (h : u.Sees items) (a : α) :
    (u.insert a).Sees (items ++ [a]) := by
  have hseen : u.seen.contains (Keyed.key a) = true ↔ Keyed.key a ∈ items.map Keyed.key := by
    rw [List.contains_iff_mem, h.seen]
  by_cases hold : Keyed.key a ∈ items.map Keyed.key
  · rw [FirstSeen.insert, if_pos (hseen.2 hold)]
    constructor
    case items => rw [firsts_snoc, if_pos hold, h.items]
    case seen =>
      intro key
      rw [h.seen, List.map_append, List.mem_append, List.map_singleton, List.mem_singleton]
      constructor
      · exact .inl
      · rintro (hkey | rfl)
        · exact hkey
        · exact hold
  · rw [FirstSeen.insert, if_neg (mt hseen.1 hold)]
    constructor
    case items => rw [firsts_snoc, if_neg hold, h.items]
    case seen =>
      intro key
      rw [List.mem_cons, h.seen, List.map_append, List.mem_append, List.map_singleton,
        List.mem_singleton, or_comm]

theorem Sees.extend {u : FirstSeen α} {items : List α} (h : u.Sees items) (batch : List α) :
    (u.extend batch).Sees (items ++ batch) := by
  induction batch generalizing u items with
  | nil =>
      rw [List.append_nil]
      exact h
  | cons a rest ih =>
      have hrest := ih (h.insert a)
      rw [List.append_assoc] at hrest
      exact hrest

/-- Batches that are added one after the other are one batch. -/
theorem foldl_extend (u : FirstSeen α) (batches : List (List α)) :
    batches.foldl extend u = u.extend batches.flatten :=
  List.foldl_flatten.symm

/-- What a union of one batch, or of several, has seen. -/
theorem sees_extend (told : List α) : (({} : FirstSeen α).extend told).Sees told := by
  have hempty : ({} : FirstSeen α).Sees [] := ⟨rfl, fun _ => Iff.rfl⟩
  exact hempty.extend told

end FirstSeen

/-- A union has the first ones of all its batches. -/
theorem CallResult.union_eq (batches : List (List α)) : union batches = firsts batches.flatten := by
  rw [union, FirstSeen.foldl_extend]
  exact (FirstSeen.sees_extend _).items

end MetricFanout
