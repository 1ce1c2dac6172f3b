import Mathlib.Data.List.Forall2
import MetricFanout.Proofs.Merge.Find
import MetricFanout.Proofs.Merge.Info
import MetricFanout.Proofs.Merge.Render
/-!
# Merges and the order of arrival

Replies arrive in any order. The order decides which report of a path comes first and which copy of a
series is filled from which, but not what a merge says: two merges of the same replies in different
orders name the same paths, holders, responders, backends and series, and series whose copies agree have
the same points.

## Implementation notes

Values are compared by any relation, so that the law holds for equality of bit patterns and for equality of
numbers, under which zeros of both signs are equal.
-/

namespace MetricFanout

variable {α : Type}

/-- Two merges succeed with results that are alike, or fail for one reason. -/
inductive Together (alike : α → α → Prop) : Except CallError α → Except CallError α → Prop where
  | ok {a b : α} (h : alike a b) : Together alike (.ok a) (.ok b)
  | error (e : CallError) : Together alike (.error e) (.error e)

/-- A merge that fails only when nobody answered does so in every order of arrival. -/
theorem together_of_perm {β : Type} {alike : β → β → Prop} (merge : List (Reply α) → β)
    {replies others : List (Reply α)} (h : replies.Perm others)
    (halike : alike (merge replies) (merge others)) (e : CallError) :
    Together alike (if replies.any Reply.isSuccess then .ok (merge replies) else .error e)
      (if others.any Reply.isSuccess then .ok (merge others) else .error e) := by
  rw [h.any_eq]
  split
  · exact .ok halike
  · exact .error e

/-! ## Finds -/

namespace FindMerge

/-- Two merged finds have the same paths, the same holders for each path, and the same responders. -/
structure Alike (m n : FindMerge) : Prop where
  paths : (m.found.map Match.path).Perm (n.found.map Match.path)
  holders : ∀ path, (m.holdersOf path).Perm (n.holdersOf path)
  responders : m.responders.Perm n.responders

theorem alike_merged {replies others : List (Reply (List Match))} (h : replies.Perm others) :
    (merged replies).Alike (merged others) := by
  constructor
  case paths =>
    rw [(says_merged replies).paths, (says_merged others).paths]
    exact Distinct.eraseDups_perm ((h.flatMap_right _).map _)
  case holders =>
    intro path
    rw [holdersOf_merged, holdersOf_merged]
    exact Distinct.eraseDups_perm ((h.filter _).map _)
  case responders =>
    rw [merged_responders, merged_responders]
    exact (h.filter _).map _

end FindMerge

/-! ## Infos -/

theorem mergedInfo_eq_of_perm {replies others : List (Reply StorageInfo)} (h : replies.Perm others)
    (hnodup : (replies.map Reply.backend).Nodup) : mergedInfo replies = mergedInfo others := by
  have hothers : (others.map Reply.backend).Nodup := (h.map _).nodup_iff.1 hnodup
  have hperm := (mergedInfo_perm hnodup).trans
    ((h.filterMap described).trans (mergedInfo_perm hothers).symm)
  exact (sorted_mergedInfo replies).eq_of_perm (sorted_mergedInfo others) hperm

/-! ## Renders -/

namespace Series

variable {same : Binary64 → Binary64 → Prop}

/-- Copies of a series agree: all of one name are aligned, and where two of them have a value they have
the same one. -/
def Consistent (same : Binary64 → Binary64 → Prop) (series : List Series) : Prop :=
  ∀ a ∈ series, ∀ b ∈ series, a.name = b.name → a.aligned b = true ∧
    ∀ (i : Nat) (v w : Binary64),
      a.points[i]? = some (some v) → b.points[i]? = some (some w) → same v w

/-- Two series say the same of their times and points. -/
structure Alike (same : Binary64 → Binary64 → Prop) (s t : Series) : Prop where
  start : s.start = t.start
  step : s.step = t.step
  points : List.Forall₂ (Option.Rel same) s.points t.points

theorem aligned_iff {a b : Series} : a.aligned b = true ↔
    a.start = b.start ∧ a.step = b.step ∧ a.values.length = b.values.length := by
  simp [aligned, and_assoc]

theorem firstPresent?_eq_some {copies : List Series} {i : Nat} {v : Binary64}
    (h : firstPresent? copies i = some v) : ∃ c ∈ copies, c.points[i]? = some (some v) := by
  obtain ⟨c, hc, hv⟩ := List.exists_of_findSome?_eq_some h
  exact ⟨c, hc, Option.join_eq_some_iff.1 hv⟩

theorem firstPresent?_eq_none {copies : List Series} {i : Nat} (h : firstPresent? copies i = none)
    {c : Series} (hc : c ∈ copies) (v : Binary64) : c.points[i]? ≠ some (some v) := by
  intro hv
  have hnone := List.findSome?_eq_none_iff.1 h c hc
  rw [hv] at hnone
  cases hnone

/-- Which copy comes first does not matter when copies agree. -/
theorem firstPresent?_rel {copies others : List Series} (h : copies.Perm others) {i : Nat}
    (hsame : ∀ a ∈ copies, ∀ b ∈ copies, ∀ v w,
      a.points[i]? = some (some v) → b.points[i]? = some (some w) → same v w) :
    Option.Rel same (firstPresent? copies i) (firstPresent? others i) := by
  cases hv : firstPresent? copies i with
  | none =>
      cases hw : firstPresent? others i with
      | none => exact .none
      | some w =>
          obtain ⟨b, hb, hbw⟩ := firstPresent?_eq_some hw
          exact absurd hbw (firstPresent?_eq_none hv (h.mem_iff.2 hb) w)
  | some v =>
      obtain ⟨a, ha, hav⟩ := firstPresent?_eq_some hv
      cases hw : firstPresent? others i with
      | none => exact absurd hav (firstPresent?_eq_none hw (h.mem_iff.1 ha) v)
      | some w =>
          obtain ⟨b, hb, hbw⟩ := firstPresent?_eq_some hw
          exact .some (hsame a ha b (h.mem_iff.2 hb) v w hav hbw)

/-- The merges of agreeing copies in two orders are alike. -/
theorem IsMerge.alike {base base' : Series} {later later' : List Series} {s t : Series}
    (hs : IsMerge base later s) (ht : IsMerge base' later' t)
    (hperm : (base :: later).Perm (base' :: later'))
    (hcopies : ∀ a ∈ base :: later, ∀ b ∈ base :: later, a.aligned b = true ∧
      ∀ (i : Nat) (v w : Binary64),
        a.points[i]? = some (some v) → b.points[i]? = some (some w) → same v w) :
    s.Alike same t := by
  have hbase' : base' ∈ base :: later := hperm.mem_iff.2 List.mem_cons_self
  have hlater : later.filter base.aligned = later :=
    List.filter_eq_self.2 fun c hc =>
      (hcopies base List.mem_cons_self c (List.mem_cons_of_mem _ hc)).1
  have hlater' : later'.filter base'.aligned = later' :=
    List.filter_eq_self.2 fun c hc =>
      (hcopies base' hbase' c (hperm.mem_iff.2 (List.mem_cons_of_mem _ hc))).1
  have hshape := hs.shape
  have hshape' := ht.shape
  simp only [Prod.mk.injEq] at hshape hshape'
  obtain ⟨_, hstart, _, hstep, hlength⟩ := hshape
  obtain ⟨_, hstart', _, hstep', hlength'⟩ := hshape'
  obtain ⟨hstarts, hsteps, hlengths⟩ :=
    aligned_iff.1 (hcopies base List.mem_cons_self base' hbase').1
  constructor
  case start => rw [hstart, hstart', hstarts]
  case step => rw [hstep, hstep', hsteps]
  case points =>
    refine List.forall₂_iff_get.2 ⟨?_, fun i hi hi' => ?_⟩
    · rw [length_points, length_points, hlength, hlength', hlengths]
    · rw [length_points, hlength] at hi
      rw [length_points, hlength'] at hi'
      have hpoint := hs.points i hi
      have hpoint' := ht.points i hi'
      rw [hlater] at hpoint
      rw [hlater'] at hpoint'
      have hrel : Option.Rel same _ _ := firstPresent?_rel hperm (i := i)
        fun a ha b hb => (hcopies a ha b hb).2 i
      rw [List.get_eq_getElem, List.get_eq_getElem, (List.getElem?_eq_some_iff.1 hpoint).2,
        (List.getElem?_eq_some_iff.1 hpoint').2]
      exact hrel

end Series

/-- What two merged renders have in common: the names, and the points of series whose copies agree. -/
structure RendersAlike (answered m n : List Series) : Prop where
  names : (m.map Series.name).Perm (n.map Series.name)
  series : ∀ same : Binary64 → Binary64 → Prop, Series.Consistent same answered →
    ∀ s ∈ m, ∀ t ∈ n, s.name = t.name → s.Alike same t

namespace Copies

theorem rendersAlike {series others : List Series} (h : series.Perm others) :
    RendersAlike series ((group series).map merge) ((group others).map merge) := by
  constructor
  case names =>
    rw [names_map_merge, names_map_merge]
    exact Distinct.eraseDups_perm (h.map _)
  case series =>
    intro same hsame s hs t ht hname
    obtain ⟨c, hc, rfl⟩ := List.mem_map.1 hs
    obtain ⟨d, hd, rfl⟩ := List.mem_map.1 ht
    rw [name_merge, name_merge] at hname
    have hcopies := mem_group hc
    have hperm : (c.base :: c.later).Perm (d.base :: d.later) := by
      rw [← hcopies, ← mem_group hd, hname]
      exact h.filter _
    refine c.isMerge_merge.alike d.isMerge_merge hperm fun a ha b hb => ?_
    rw [← hcopies] at ha hb
    obtain ⟨ha, han⟩ := List.mem_filter.1 ha
    obtain ⟨hb, hbn⟩ := List.mem_filter.1 hb
    exact hsame a ha b hb ((beq_iff_eq.1 han).trans (beq_iff_eq.1 hbn).symm)

end Copies

/-! ## All merges -/

/-- In whatever order replies arrive, merges of them succeed together or fail together. Merged finds have
the same paths, holders and responders; merged infos are equal, if every backend replies once; merged
renders have the same names, and series whose copies agree have the same start, step and points. -/
theorem merges_together :
    (∀ replies others : List (Reply (List Match)), replies.Perm others →
      Together FindMerge.Alike (mergeFind replies) (mergeFind others)) ∧
    (∀ replies others : List (Reply StorageInfo), replies.Perm others →
      Together (fun m n => (replies.map Reply.backend).Nodup → m = n)
        (mergeInfo replies) (mergeInfo others)) ∧
    (∀ replies others : List (Reply (List Series)), replies.Perm others →
      Together (RendersAlike (answeredSeries replies)) (mergeRender replies) (mergeRender others)) := by
  refine ⟨fun replies others h => ?_, fun replies others h => ?_, fun replies others h => ?_⟩
  · exact together_of_perm FindMerge.merged h (FindMerge.alike_merged h) _
  · exact together_of_perm mergedInfo h (mergedInfo_eq_of_perm h) _
  · exact together_of_perm (fun rs => (Copies.group (answeredSeries rs)).map Copies.merge) h
      (Copies.rendersAlike (h.flatMap_right _)) _

/-- Two reports of one path that disagree about its flag. -/
def disputed : List (Reply (List Match)) :=
  [⟨"a", .ok [⟨"x", true⟩], 10⟩, ⟨"b", .ok [⟨"x", false⟩, ⟨"y", true⟩], 20⟩]

/-- Two descriptions of one metric. -/
def twiceDescribed : List (Reply StorageInfo) :=
  [⟨"b", .ok ⟨"m", "sum", 60, ⟨0⟩, []⟩, 10⟩, ⟨"a", .ok ⟨"m", "max", 60, ⟨0⟩, []⟩, 20⟩]

/-- Two copies of one series, each with a gap that the other one fills. -/
def gapped : List (Reply (List Series)) :=
  [⟨"a", .ok [⟨"m", 0, 120, 60, [⟨1⟩, ⟨7⟩], [false]⟩], 10⟩,
    ⟨"b", .ok [⟨"m", 0, 120, 60, [⟨9⟩, ⟨2⟩], [true, false]⟩], 20⟩]

theorem gapped_consistent : Series.Consistent (· = ·) (answeredSeries gapped) := by
  intro a ha b hb _
  have hall : answeredSeries gapped = [⟨"m", 0, 120, 60, [⟨1⟩, ⟨7⟩], [false]⟩,
      ⟨"m", 0, 120, 60, [⟨9⟩, ⟨2⟩], [true, false]⟩] := rfl
  rw [hall] at ha hb
  simp only [List.mem_cons, List.not_mem_nil, or_false] at ha hb
  refine ⟨by rcases ha with rfl | rfl <;> rcases hb with rfl | rfl <;> rfl, fun i v w hv hw => ?_⟩
  rcases ha with rfl | rfl <;> rcases hb with rfl | rfl <;> rcases i with _ | _ | i <;>
    simp_all [Series.points, Series.pair]

/-- In another order another flag wins and the other copy is filled. -/
theorem merges_together_reversed :
    (∃ m n, mergeFind disputed = .ok m ∧ mergeFind disputed.reverse = .ok n ∧ m.found ≠ n.found ∧
      m.Alike n) ∧
    (twiceDescribed.map Reply.backend).Nodup ∧
    mergeInfo twiceDescribed = mergeInfo twiceDescribed.reverse ∧
    ∃ s t, mergeRender gapped = .ok [s] ∧ mergeRender gapped.reverse = .ok [t] ∧
      s.points = [some ⟨1⟩, some ⟨2⟩] ∧ s.Alike (· = ·) t := by
  have hnodup : (twiceDescribed.map Reply.backend).Nodup := by decide
  refine ⟨⟨_, _, rfl, rfl, by decide, ?_⟩, hnodup, ?_, _, _, rfl, rfl, rfl, ?_⟩
  · cases merges_together.1 disputed disputed.reverse (List.reverse_perm _).symm with
    | ok h => exact h
  · cases hm : mergeInfo twiceDescribed with
    | error e => cases hm
    | ok m =>
        cases hn : mergeInfo twiceDescribed.reverse with
        | error e => cases hn
        | ok n =>
            have h := merges_together.2.1 twiceDescribed twiceDescribed.reverse
              (List.reverse_perm _).symm
            rw [hm, hn] at h
            cases h with
            | ok h => rw [h hnodup]
  · cases merges_together.2.2 gapped gapped.reverse (List.reverse_perm _).symm with
    | ok h => exact h.series _ gapped_consistent _ List.mem_cons_self _ List.mem_cons_self rfl

end MetricFanout
