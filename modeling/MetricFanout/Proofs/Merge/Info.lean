import Mathlib.Data.List.Induction
import Mathlib.Data.String.Basic
import MetricFanout.Merge.Info
import MetricFanout.Proofs.Order.SortedList
/-!
# A merged info lists who answered what

When every backend replies once, a merged info has one entry for each backend that answered, in the order
of the backends' names.
-/

namespace MetricFanout

/-- What a backend answered, under its name. -/
def described (r : Reply StorageInfo) : Option (String × StorageInfo) :=
  r.answer?.map fun info => (r.backend, info)

/-- The entries of a merged info. -/
def mergedInfo (replies : List (Reply StorageInfo)) : List (String × StorageInfo) :=
  replies.foldl addInfo []

theorem mergedInfo_snoc (replies : List (Reply StorageInfo)) (r : Reply StorageInfo) :
    mergedInfo (replies ++ [r]) = addInfo (mergedInfo replies) r := by
  simp only [mergedInfo, List.foldl_append, List.foldl_cons, List.foldl_nil]

theorem sorted_mergedInfo (replies : List (Reply StorageInfo)) :
    SortedList.Sorted (mergedInfo replies) := by
  induction replies using List.reverseRecOn with
  | nil => exact List.Pairwise.nil
  | append_singleton replies r ih =>
      rw [mergedInfo_snoc, addInfo]
      split
      · exact ih.insert r.backend _
      · exact ih

/-- Backends that reply once are listed with their answers. -/
theorem mergedInfo_perm {replies : List (Reply StorageInfo)} (h : (replies.map Reply.backend).Nodup) :
    (mergedInfo replies).Perm (replies.filterMap described) := by
  induction replies using List.reverseRecOn with
  | nil => exact .refl _
  | append_singleton replies r ih =>
      rw [List.map_append] at h
      obtain ⟨hreplies, _, hne⟩ := List.nodup_append.1 h
      have hold := ih hreplies
      rw [mergedInfo_snoc, addInfo, List.filterMap_append]
      cases hr : r.outcome with
      | error f =>
          have hnone : described r = none := by simp [described, Reply.answer?, hr]
          simpa [hnone] using hold
      | ok info =>
          have hsome : described r = some (r.backend, info) := by
            simp [described, Reply.answer?, hr]
          have hnew : r.backend ∉ (mergedInfo replies).map Prod.fst := by
            intro hmem
            obtain ⟨e, he, hbackend⟩ := List.mem_map.1 hmem
            obtain ⟨q, hq, hqe⟩ := List.mem_filterMap.1 (hold.mem_iff.1 he)
            obtain ⟨i, _, rfl⟩ := Option.map_eq_some_iff.1 hqe
            exact hne _ (List.mem_map_of_mem hq) _ (List.mem_singleton_self _) hbackend
          rw [List.filterMap_cons_some hsome, List.filterMap_nil]
          exact (SortedList.insert_perm hnew info).trans
            ((hold.cons _).trans (List.perm_append_singleton _ _).symm)

end MetricFanout
