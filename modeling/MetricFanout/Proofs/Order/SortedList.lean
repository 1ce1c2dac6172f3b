import Mathlib.Data.List.Nodup
import Mathlib.Order.Lattice
import MetricFanout.Order.SortedList
/-!
# Lists that are sorted by key

Inserting into a sorted list keeps it sorted, and leaves every entry with another key.
-/

namespace MetricFanout.SortedList

variable {κ α : Type} [LinearOrder κ] {key : κ} {entries : List (κ × α)}

/-- Entries in the order of their keys, one for each key. -/
def Sorted (entries : List (κ × α)) : Prop := entries.Pairwise fun a b => a.1 < b.1

/-- What a sorted list has after an insertion. -/
theorem Sorted.mem_insert (h : Sorted entries) {value : α} {e : κ × α} :
    e ∈ insert key value entries ↔ e = (key, value) ∨ e.1 ≠ key ∧ e ∈ entries := by
  induction entries with
  | nil => simp [SortedList.insert]
  | cons d rest ih =>
      obtain ⟨hd, hrest⟩ := List.pairwise_cons.1 h
      simp only [SortedList.insert]
      split
      · rename_i hlt
        have hne : e ∈ d :: rest → e.1 ≠ key := by
          intro he
          rcases List.mem_cons.1 he with rfl | he
          · exact hlt.ne'
          · exact (hlt.trans (hd e he)).ne'
        rw [List.mem_cons, and_iff_right_of_imp hne]
      · split
        · rename_i heq
          have hne : e ∈ rest → e.1 ≠ key := fun he => heq ▸ (hd e he).ne'
          have hold : e.1 ≠ key → e ≠ d := fun hkey hed => hkey (hed ▸ heq.symm)
          rw [List.mem_cons, List.mem_cons, and_or_left, and_iff_right_of_imp hne]
          exact or_congr_right (or_iff_right fun hboth => hold hboth.1 hboth.2).symm
        · rename_i hne
          have hkey : e = d → e.1 ≠ key := fun hed => hed ▸ Ne.symm hne
          rw [List.mem_cons, List.mem_cons, ih hrest, and_or_left, and_iff_right_of_imp hkey]
          exact or_left_comm

theorem Sorted.mem_keys_insert (h : Sorted entries) {value : α} {k : κ} :
    k ∈ (insert key value entries).map Prod.fst ↔ k = key ∨ k ∈ entries.map Prod.fst := by
  simp only [List.mem_map, h.mem_insert]
  constructor
  · rintro ⟨e, rfl | ⟨_, he⟩, rfl⟩
    · exact .inl rfl
    · exact .inr ⟨e, he, rfl⟩
  · rintro (rfl | ⟨e, he, rfl⟩)
    · exact ⟨(k, value), .inl rfl, rfl⟩
    · by_cases hkey : e.1 = key
      · exact ⟨(key, value), .inl rfl, hkey.symm⟩
      · exact ⟨e, .inr ⟨hkey, he⟩, rfl⟩

theorem mem_keys_erase {k : κ} : k ∈ (erase key entries).map Prod.fst ↔ k ≠ key ∧ k ∈ entries.map Prod.fst := by
  simp only [erase, List.mem_map, List.mem_filter, decide_eq_true_eq]
  constructor
  · rintro ⟨e, ⟨he, hkey⟩, rfl⟩
    exact ⟨hkey, e, he, rfl⟩
  · rintro ⟨hkey, e, he, rfl⟩
    exact ⟨e, ⟨he, hkey⟩, rfl⟩

theorem Sorted.nodup (h : Sorted entries) : (entries.map Prod.fst).Nodup :=
  List.pairwise_map.2 (h.imp fun hlt => hlt.ne)

/-- A sorted list has one entry for a key. -/
theorem Sorted.unique (h : Sorted entries) {a b : α} (ha : (key, a) ∈ entries) (hb : (key, b) ∈ entries) : a = b :=
  congrArg Prod.snd (List.inj_on_of_nodup_map h.nodup ha hb rfl)

/-- An entry with a new key is added. -/
theorem insert_perm (h : key ∉ entries.map Prod.fst) (value : α) :
    (insert key value entries).Perm ((key, value) :: entries) := by
  induction entries with
  | nil => exact .refl _
  | cons d rest ih =>
      have hne : key ≠ d.1 := fun heq => h (heq ▸ List.mem_cons_self)
      have hrest := ih fun hmem => h (List.mem_cons_of_mem _ hmem)
      simp only [insert, hne, if_false]
      split
      · exact .refl _
      · exact (hrest.cons d).trans (.swap _ _ _)

theorem Sorted.insert (h : Sorted entries) (key : κ) (value : α) :
    Sorted (insert key value entries) := by
  induction entries with
  | nil => exact List.pairwise_singleton _ _
  | cons d rest ih =>
      obtain ⟨hd, hrest⟩ := List.pairwise_cons.1 h
      simp only [SortedList.insert]
      split
      · rename_i hlt
        refine List.pairwise_cons.2 ⟨fun e he => ?_, h⟩
        rcases List.mem_cons.1 he with rfl | he
        · exact hlt
        · exact hlt.trans (hd e he)
      · rename_i hge
        split
        · rename_i heq
          exact List.pairwise_cons.2 ⟨fun e he => heq ▸ hd e he, hrest⟩
        · rename_i hne
          refine List.pairwise_cons.2 ⟨fun e he => ?_, ih hrest⟩
          rcases (Sorted.mem_insert hrest).1 he with rfl | ⟨_, he⟩
          · exact lt_of_le_of_ne (not_lt.1 hge) (Ne.symm hne)
          · exact hd e he

/-- Sorted entries are known by what they are, in whatever order they are given. -/
theorem Sorted.eq_of_perm {others : List (κ × α)} (h : Sorted entries) (ho : Sorted others)
    (hperm : entries.Perm others) : entries = others := by
  refine List.Perm.eq_of_pairwise ?_ h ho hperm
  intro a b _ _ hab hba
  exact absurd (hab.trans hba) (lt_irrefl a.1)

end MetricFanout.SortedList
