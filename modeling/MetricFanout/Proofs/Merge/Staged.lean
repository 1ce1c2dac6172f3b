import MetricFanout.Proofs.Merge.Arrival
import MetricFanout.Proofs.Merge.Firsts
/-!
# Merging in stages

What a merge of some replies says can stand in for them: merged with further replies it gives what a merge
of all of them gives. So replies may be merged as they arrive, and merging again changes nothing.

Only a beginning of the replies can be merged first. Among late replies another copy of a series would set
the shape, and copies would be left out that are aligned with the first one of all.
-/

namespace MetricFanout

variable {β : Type}

/-! ## Merges of lists -/

/-- Early replies can be merged first, and their merge then takes part as the answer of one backend. -/
def Stageable (merge : List (Reply (List β)) → Except CallError (List β)) : Prop :=
  ∀ (early late : List (Reply (List β))) (backend : String) (elapsed : Nat),
    early.any Reply.isSuccess = true → ∃ merged all,
      merge early = .ok merged ∧ merge (early ++ late) = .ok all ∧
      merge (⟨backend, .ok merged, elapsed⟩ :: late) = .ok all ∧
      merge [⟨backend, .ok merged, elapsed⟩] = .ok merged

/-- A merge is stageable if it looks at all answers in a row, and if a merged beginning of that row can
replace the beginning. -/
theorem stageable_of_absorbs {merge : List (Reply (List β)) → Except CallError (List β)}
    {f : List β → List β} {e : CallError}
    (hmerge : ∀ replies, merge replies =
      if replies.any Reply.isSuccess then .ok (f (replies.flatMap fun r => r.answer?.getD []))
      else .error e)
    (hf : ∀ a b, f (f a ++ b) = f (a ++ b)) : Stageable merge := by
  intro early late backend elapsed hearly
  have hok : ∀ {replies : List (Reply (List β))}, replies.any Reply.isSuccess = true →
      merge replies = .ok (f (replies.flatMap fun r => r.answer?.getD [])) := fun h =>
    (hmerge _).trans (if_pos h)
  have hall : (early ++ late).any Reply.isSuccess = true := by
    rw [List.any_append, hearly, Bool.true_or]
  refine ⟨_, _, hok hearly, hok hall, ?_, ?_⟩
  · rw [hok rfl, List.flatMap_append, ← hf]
    rfl
  · have hagain : ∀ a, f (f a ++ []) = f a := fun a => by rw [hf, List.append_nil]
    rw [hok rfl]
    exact congrArg Except.ok (hagain _)

/-! ## Finds -/

section Firsts

variable [Keyed β]

theorem firsts_firsts (items : List β) : firsts (firsts items) = firsts items := by
  induction items using List.reverseRecOn with
  | nil => rfl
  | append_singleton items a ih =>
      by_cases hold : Keyed.key a ∈ items.map Keyed.key
      · rw [firsts_snoc, if_pos hold, ih]
      · rw [firsts_snoc, if_neg hold, firsts_snoc, if_neg (mt (mem_keys_firsts items _).1 hold), ih]

/-- What counts among the first items stands in for all of them. -/
theorem firsts_firsts_append (early late : List β) :
    firsts (firsts early ++ late) = firsts (early ++ late) := by
  induction late using List.reverseRecOn with
  | nil => rw [List.append_nil, List.append_nil, firsts_firsts]
  | append_singleton late a ih =>
      have hkeys : Keyed.key a ∈ (firsts early ++ late).map Keyed.key ↔
          Keyed.key a ∈ (early ++ late).map Keyed.key := by
        rw [List.map_append, List.map_append, List.mem_append, List.mem_append, mem_keys_firsts]
      rw [← List.append_assoc, ← List.append_assoc, firsts_snoc, firsts_snoc, ih]
      simp only [hkeys]

end Firsts

theorem mergeFind_found (replies : List (Reply (List Match))) :
    (mergeFind replies).map FindMerge.found =
      if replies.any Reply.isSuccess then .ok (firsts (replies.flatMap fun r => r.answer?.getD []))
      else .error (.allBackendsFailed .find) := by
  rw [mergeFind]
  split
  · exact congrArg Except.ok (FindMerge.found_merged replies)
  · rfl

/-! ## One series -/

namespace Series

variable {base : Series} {early late : List Series}

/-- What the first copies have to offer comes before what later ones have. -/
theorem present?_append {i : Nat} (hearly : ∀ o ∈ early, i < o.values.length)
    (hlate : ∀ o ∈ late, i < o.values.length) :
    present? (early ++ late) i = (present? early i).or (present? late i) := by
  have hall : ∀ o ∈ early ++ late, i < o.values.length := fun o ho =>
    (List.mem_append.1 ho).elim (hearly o) (hlate o)
  rw [present?_eq hall, present?_eq hearly, present?_eq hlate, firstPresent?, List.findSome?_append]
  rfl

/-- Gaps may be filled from the early copies first and from the late ones then. -/
theorem fill_fill {i : Nat} {values : List Binary64} {flags : List Bool}
    (hearly : ∀ o ∈ early, i + values.length ≤ o.values.length)
    (hlate : ∀ o ∈ late, i + values.length ≤ o.values.length) :
    fill late i (fill early i values flags).1 (fill early i values flags).2 =
      fill (early ++ late) i values flags := by
  induction values generalizing i flags with
  | nil => cases flags <;> rfl
  | cons v vs ih =>
      cases flags with
      | nil => rfl
      | cons absent flags =>
          simp only [List.length_cons] at hearly hlate
          have hrest : fill late (i + 1) (fill early (i + 1) vs flags).1
              (fill early (i + 1) vs flags).2 = fill (early ++ late) (i + 1) vs flags :=
            ih (fun o ho => by have := hearly o ho; omega) fun o ho => by have := hlate o ho; omega
          have happend : present? (early ++ late) i = (present? early i).or (present? late i) :=
            present?_append (fun o ho => by have := hearly o ho; omega) fun o ho => by
              have := hlate o ho
              omega
          cases absent with
          | false => simp only [fill, Bool.false_eq_true, if_false, hrest]
          | true =>
              simp only [fill, if_true, happend, ← hrest]
              cases present? early i with
              | none => rfl
              | some w => rfl

theorem fitFlags_of_length {count : Nat} {flags : List Bool} (h : flags.length = count) :
    fitFlags count flags = flags := by
  rw [fitFlags, ← h, List.take_length, Nat.sub_self, List.replicate_zero, List.append_nil]

/-- A merge keeps its shape, so the same further copies are aligned with it. -/
theorem aligned_reconcile (base : Series) (early : List Series) :
    (base.reconcile early).aligned = base.aligned := by
  have hshape := (isMerge_reconcile base early).shape
  simp only [Prod.mk.injEq] at hshape
  obtain ⟨-, hstart, -, hstep, hlength⟩ := hshape
  funext o
  rw [aligned, aligned, hstart, hstep, hlength]

/-- Copies may be reconciled in two steps. -/
theorem reconcile_append (base : Series) (early late : List Series) :
    base.reconcile (early ++ late) = (base.reconcile early).reconcile late := by
  rcases early with _ | ⟨c, early⟩
  · rfl
  rcases late with _ | ⟨d, late⟩
  · rw [List.append_nil]
    rfl
  obtain ⟨hvalues, hflags, -⟩ := fill_points ((c :: early).filter base.aligned) 0 base.values
    (fitFlags_length base.values.length base.absent)
  have hfill : ∀ copies : List Series, ∀ o ∈ copies.filter base.aligned,
      0 + base.values.length ≤ o.values.length := fun copies o ho => by
    rw [Nat.zero_add, mem_aligned o ho]
  -- The merge of the early copies already has a flag for every value.
  have hfit := fitFlags_of_length (hflags.trans hvalues.symm)
  have haligned := aligned_reconcile base (c :: early)
  simp only [reconcile, List.isEmpty_cons, Bool.false_eq_true, if_false, List.cons_append] at haligned ⊢
  rw [haligned, hfit, fill_fill (hfill _) (hfill _), ← List.filter_append, List.cons_append]

end Series

/-! ## All series -/

namespace Copies

theorem insert_of_not_mem {s : Series} {groups : List Copies} (h : s.name ∉ names groups) :
    insert s groups = groups ++ [⟨s, []⟩] := by
  induction groups with
  | nil => rfl
  | cons c rest ih =>
      have hname : c.base.name ≠ s.name := fun heq => h (heq ▸ List.mem_cons_self)
      simp [insert, hname, ih fun hrest => h (List.mem_cons_of_mem _ hrest)]

/-- Series that all have names of their own are single copies. -/
theorem group_of_nodup {series : List Series} (h : (series.map Series.name).Nodup) :
    group series = series.map fun s => ⟨s, []⟩ := by
  induction series using List.reverseRecOn with
  | nil => rfl
  | append_singleton series s ih =>
      rw [List.map_append, List.map_singleton, List.nodup_append] at h
      obtain ⟨hseries, -, hapart⟩ := h
      have hnew : s.name ∉ names (group series) := by
        rw [names_group, List.mem_eraseDups]
        exact fun hmem => hapart _ hmem _ (List.mem_singleton_self _) rfl
      rw [group_snoc, insert_of_not_mem hnew, ih hseries, List.map_append, List.map_singleton]

/-- A group in which the first few copies have been merged, beside the group of all copies. -/
inductive Staged : Copies → Copies → Prop where
  | mk (base : Series) (early late : List Series) :
      Staged ⟨base.reconcile early, late⟩ ⟨base, early ++ late⟩

variable {c d : Copies} {cs ds : List Copies}

theorem Staged.merge_eq (h : Staged d c) : d.merge = c.merge := by
  obtain ⟨base, early, late⟩ := h
  exact (Series.reconcile_append base early late).symm

theorem Staged.name_eq (h : Staged d c) : d.base.name = c.base.name := by
  obtain ⟨base, early, late⟩ := h
  exact name_merge ⟨base, early⟩

theorem Staged.push (h : Staged d c) (s : Series) :
    Staged { d with later := d.later ++ [s] } { c with later := c.later ++ [s] } := by
  obtain ⟨base, early, late⟩ := h
  rw [List.append_assoc]
  exact ⟨base, early, late ++ [s]⟩

theorem Staged.single (s : Series) : Staged ⟨s, []⟩ ⟨s, []⟩ := ⟨s, [], []⟩

/-- One more series goes to groups of the same place. -/
theorem staged_insert (h : List.Forall₂ Staged ds cs) (s : Series) :
    List.Forall₂ Staged (insert s ds) (insert s cs) := by
  induction h with
  | nil => exact .cons (.single s) .nil
  | @cons d c ds cs hd hrest ih =>
      simp only [insert, hd.name_eq]
      split
      case isTrue => exact .cons (hd.push s) hrest
      case isFalse => exact .cons hd ih

theorem staged_group (early late : List Series) :
    List.Forall₂ Staged (group ((group early).map merge ++ late)) (group (early ++ late)) := by
  induction late using List.reverseRecOn with
  | nil =>
      have hnodup : (((group early).map merge).map Series.name).Nodup := by
        rw [names_map_merge]
        exact Distinct.nodup_eraseDups _
      rw [List.append_nil, List.append_nil, group_of_nodup hnodup, List.map_map,
        List.forall₂_map_left_iff, List.forall₂_same]
      intro c _
      have hall := Staged.mk c.base c.later []
      rwa [List.append_nil] at hall
  | append_singleton late s ih =>
      rw [← List.append_assoc, ← List.append_assoc, group_snoc, group_snoc]
      exact staged_insert ih s

/-- Merged series stand in for the series they are made of. -/
theorem merge_group_append (early late : List Series) :
    (group ((group early).map merge ++ late)).map merge = (group (early ++ late)).map merge := by
  have hmerge : List.Forall₂ (fun d c => d.merge = c.merge)
      (group ((group early).map merge ++ late)) (group (early ++ late)) :=
    (staged_group early late).imp fun _ _ h => h.merge_eq
  rw [← List.forall₂_eq_eq_eq, List.forall₂_map_left_iff, List.forall₂_map_right_iff]
  exact hmerge

end Copies

/-! ## Both merges -/

/-- Renders and finds can be merged in stages. If any of the early replies is a success, their merge,
taken as the answer of one backend in front of the late replies, leads to the merge of all replies,
and merging it alone gives it back. For renders this is so for series as a whole, for finds for the
matches. -/
theorem merges_staged :
    Stageable mergeRender ∧
    Stageable (fun replies => (mergeFind replies).map FindMerge.found) :=
  ⟨stageable_of_absorbs (f := fun series => (Copies.group series).map Copies.merge) (fun _ => rfl)
      Copies.merge_group_append,
    stageable_of_absorbs mergeFind_found firsts_firsts_append⟩

/-- Copies of two series: one has too few flags, one is of another length, and one has a name of its own. -/
def scattered : List (Reply (List Series)) × List (Reply (List Series)) :=
  ([⟨"a", .ok [⟨"m", 0, 120, 60, [⟨1⟩, ⟨7⟩, ⟨8⟩], [false]⟩], 10⟩, ⟨"b", .error .notFound, 20⟩,
      ⟨"c", .ok [⟨"m", 0, 180, 60, [⟨3⟩, ⟨4⟩, ⟨5⟩, ⟨6⟩], []⟩], 30⟩],
    [⟨"d", .ok [⟨"n", 0, 60, 60, [⟨2⟩], [false, true]⟩,
      ⟨"m", 0, 120, 60, [⟨9⟩, ⟨2⟩, ⟨9⟩], [false, false]⟩], 40⟩])

/-- Two early reports of one path that disagree, and a late one of that path and of another. -/
def repeated : List (Reply (List Match)) × List (Reply (List Match)) :=
  (disputed, [⟨"c", .ok [⟨"y", false⟩, ⟨"z", true⟩], 30⟩])

theorem merges_staged_scattered :
    scattered.1.any Reply.isSuccess = true ∧ repeated.1.any Reply.isSuccess = true ∧
    (∃ merged, mergeRender scattered.1 = .ok merged ∧
      mergeRender (⟨"a", .ok merged, 30⟩ :: scattered.2) = .ok
        [⟨"m", 0, 120, 60, [⟨1⟩, ⟨2⟩, ⟨8⟩], [false, false, true]⟩,
          ⟨"n", 0, 60, 60, [⟨2⟩], [false, true]⟩]) ∧
    ∃ merged, (mergeFind repeated.1).map FindMerge.found = .ok merged ∧
      (mergeFind (⟨"a", .ok merged, 20⟩ :: repeated.2)).map FindMerge.found = .ok
        [⟨"x", true⟩, ⟨"y", true⟩, ⟨"z", true⟩] := by
  have hrender : scattered.1.any Reply.isSuccess = true := by decide
  have hfind : repeated.1.any Reply.isSuccess = true := by decide
  refine ⟨hrender, hfind, ?_, ?_⟩
  · obtain ⟨merged, all, hmerged, hall, hstaged, -⟩ :=
      merges_staged.1 scattered.1 scattered.2 "a" 30 hrender
    exact ⟨merged, hmerged, hstaged.trans (hall.symm.trans (by rfl))⟩
  · obtain ⟨merged, all, hmerged, hall, hstaged, -⟩ :=
      merges_staged.2 repeated.1 repeated.2 "a" 20 hfind
    exact ⟨merged, hmerged, hstaged.trans (hall.symm.trans (by rfl))⟩

end MetricFanout
