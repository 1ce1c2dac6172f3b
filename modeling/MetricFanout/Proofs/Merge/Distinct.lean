import Mathlib.Data.List.Induction
/-!
# Lists without repetitions, grown at the end

Merges keep what comes first under a key. One more item at the end of a list changes the list without
repetitions only when the item is new.
-/

namespace MetricFanout.Distinct

variable {κ : Type} [BEq κ] [LawfulBEq κ] {keys : List κ} {key : κ}

theorem eraseDups_snoc_of_mem (h : key ∈ keys) : (keys ++ [key]).eraseDups = keys.eraseDups := by
  rw [List.eraseDups_append, List.cons_removeAll, List.nil_removeAll,
    List.contains_iff_mem.2 h]
  exact List.append_nil _

theorem eraseDups_snoc_of_not_mem (h : key ∉ keys) :
    (keys ++ [key]).eraseDups = keys.eraseDups ++ [key] := by
  have hnew : keys.contains key = false :=
    Bool.eq_false_iff.2 fun hseen => h (List.contains_iff_mem.1 hseen)
  rw [List.eraseDups_append, List.cons_removeAll, List.nil_removeAll, hnew]
  rfl

theorem nodup_eraseDups (keys : List κ) : keys.eraseDups.Nodup := by
  induction keys using List.reverseRecOn with
  | nil => exact List.nodup_nil
  | append_singleton keys key ih =>
      by_cases h : key ∈ keys
      · rw [eraseDups_snoc_of_mem h]
        exact ih
      · rw [eraseDups_snoc_of_not_mem h]
        refine List.nodup_append.2 ⟨ih, List.pairwise_singleton _ _, ?_⟩
        intro a ha b hb hab
        rw [hab, List.mem_singleton.1 hb, List.mem_eraseDups] at ha
        exact h ha

theorem eraseDups_of_nodup (h : keys.Nodup) : keys.eraseDups = keys := by
  induction keys using List.reverseRecOn with
  | nil => rfl
  | append_singleton keys key ih =>
      obtain ⟨hkeys, _, hne⟩ := List.nodup_append.1 h
      have hnew : key ∉ keys := fun hmem => hne key hmem key (List.mem_singleton_self key) rfl
      rw [eraseDups_snoc_of_not_mem hnew, ih hkeys]

/-- Whether one more item counts depends only on the list without repetitions. -/
theorem eraseDups_snoc_congr {others : List κ} (h : keys.eraseDups = others.eraseDups) (key : κ) :
    (keys ++ [key]).eraseDups = (others ++ [key]).eraseDups := by
  have hmem : key ∈ keys ↔ key ∈ others := by
    rw [← List.mem_eraseDups, h, List.mem_eraseDups]
  by_cases hold : key ∈ keys
  · rw [eraseDups_snoc_of_mem hold, eraseDups_snoc_of_mem (hmem.1 hold), h]
  · rw [eraseDups_snoc_of_not_mem hold, eraseDups_snoc_of_not_mem (mt hmem.2 hold), h]

/-- An item that comes several times at the end counts once. -/
theorem eraseDups_append_const {β : Type} {items : List β} (hitems : items ≠ []) (keys : List κ)
    (key : κ) : (keys ++ items.map fun _ => key).eraseDups = (keys ++ [key]).eraseDups := by
  induction items using List.reverseRecOn with
  | nil => exact absurd rfl hitems
  | append_singleton items item ih =>
      rw [List.map_append, List.map_singleton, ← List.append_assoc]
      by_cases hempty : items = []
      · rw [hempty, List.map_nil, List.append_nil]
      · have hmem : key ∈ keys ++ items.map fun _ => key := by
          obtain ⟨item', hitem'⟩ := List.exists_mem_of_ne_nil items hempty
          exact List.mem_append_right _ (List.mem_map.2 ⟨item', hitem', rfl⟩)
        rw [eraseDups_snoc_of_mem hmem, ih hempty]

theorem eraseDups_perm {others : List κ} (h : keys.Perm others) :
    keys.eraseDups.Perm others.eraseDups := by
  refine (List.perm_ext_iff_of_nodup (nodup_eraseDups keys) (nodup_eraseDups others)).2 fun key => ?_
  rw [List.mem_eraseDups, List.mem_eraseDups, h.mem_iff]

end MetricFanout.Distinct
