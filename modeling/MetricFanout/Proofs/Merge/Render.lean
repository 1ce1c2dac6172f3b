import MetricFanout.Merge.Render
import MetricFanout.Proofs.Merge.Distinct
/-!
# Merged series are first-present merges

A merged render has one series per name, and at every position the point of a merged series is the
first one that is present among its copies, those of another shape apart.

## Implementation notes

`reconcile` goes through values and flags side by side. `reconcile?` is the same merge as a loop over
indices that fails when an index is out of range; the two agree, so no index ever is.
-/

namespace MetricFanout

/-! ## Copies by name -/

namespace Copies

/-- The names of groups, in order. -/
def names (groups : List Copies) : List String := groups.map fun c => c.base.name

theorem names_insert_of_mem {s : Series} {groups : List Copies} (h : s.name ∈ names groups) :
    names (insert s groups) = names groups := by
  induction groups with
  | nil => cases h
  | cons c rest ih =>
      by_cases hname : c.base.name = s.name
      · simp [insert, names, hname]
      · have hrest : s.name ∈ names rest := by
          rcases List.mem_cons.1 h with heq | hrest
          · exact absurd heq.symm hname
          · exact hrest
        have ih' := ih hrest
        simp only [names] at ih' ⊢
        simp [insert, hname, ih']

theorem names_insert_of_not_mem {s : Series} {groups : List Copies} (h : s.name ∉ names groups) :
    names (insert s groups) = names groups ++ [s.name] := by
  induction groups with
  | nil => rfl
  | cons c rest ih =>
      have hname : c.base.name ≠ s.name := fun heq => h (heq ▸ List.mem_cons_self)
      have ih' := ih fun hrest => h (List.mem_cons_of_mem _ hrest)
      simp only [names] at ih' ⊢
      simp [insert, hname, ih']

/-- A group after a series has been put in: it is another group as it was, the group of that name with
the series behind it, or a new one. -/
theorem mem_insert {s : Series} {groups : List Copies} (hnodup : (names groups).Nodup) {c : Copies}
    (h : c ∈ insert s groups) : (c ∈ groups ∧ c.base.name ≠ s.name) ∨
      (∃ d ∈ groups, d.base.name = s.name ∧ c = { d with later := d.later ++ [s] }) ∨
      (c = ⟨s, []⟩ ∧ s.name ∉ names groups) := by
  induction groups with
  | nil => exact .inr (.inr ⟨List.mem_singleton.1 h, List.not_mem_nil⟩)
  | cons d rest ih =>
      obtain ⟨hd, hrest⟩ := List.nodup_cons.1 hnodup
      simp only [insert] at h
      by_cases hname : d.base.name = s.name
      · simp only [hname, beq_self_eq_true, if_true, List.mem_cons] at h
        rcases h with rfl | h
        · exact .inr (.inl ⟨d, List.mem_cons_self, hname, rfl⟩)
        · refine .inl ⟨List.mem_cons_of_mem _ h, fun hc => hd ?_⟩
          exact List.mem_map.2 ⟨c, h, hc.trans hname.symm⟩
      · simp only [beq_iff_eq, hname, if_false, List.mem_cons] at h
        rcases h with rfl | h
        · exact .inl ⟨List.mem_cons_self, hname⟩
        · rcases ih hrest h with ⟨hc, hne⟩ | ⟨e, he, hes, hce⟩ | ⟨hc, hnot⟩
          · exact .inl ⟨List.mem_cons_of_mem _ hc, hne⟩
          · exact .inr (.inl ⟨e, List.mem_cons_of_mem _ he, hes, hce⟩)
          · refine .inr (.inr ⟨hc, fun hmem => ?_⟩)
            rcases List.mem_cons.1 hmem with heq | hmem
            · exact hname heq.symm
            · exact hnot hmem

theorem group_snoc (series : List Series) (s : Series) :
    group (series ++ [s]) = insert s (group series) := by
  simp only [group, List.foldl_append, List.foldl_cons, List.foldl_nil]

/-- There is one group per name, in the order in which names come first. -/
theorem names_group (series : List Series) :
    names (group series) = (series.map Series.name).eraseDups := by
  induction series using List.reverseRecOn with
  | nil => rfl
  | append_singleton series s ih =>
      have hmem : s.name ∈ names (group series) ↔ s.name ∈ series.map Series.name := by
        rw [ih, List.mem_eraseDups]
      rw [group_snoc, List.map_append, List.map_singleton]
      by_cases h : s.name ∈ names (group series)
      · rw [names_insert_of_mem h, Distinct.eraseDups_snoc_of_mem (hmem.1 h), ih]
      · rw [names_insert_of_not_mem h, Distinct.eraseDups_snoc_of_not_mem (mt hmem.2 h), ih]

theorem nodup_group (series : List Series) : (names (group series)).Nodup := by
  rw [names_group]
  exact Distinct.nodup_eraseDups _

/-- A group holds all series of its name, in order. -/
theorem mem_group {series : List Series} {c : Copies} (h : c ∈ group series) :
    series.filter (fun s => s.name == c.base.name) = c.base :: c.later := by
  induction series using List.reverseRecOn generalizing c with
  | nil => cases h
  | append_singleton series s ih =>
      rw [group_snoc] at h
      rw [List.filter_append]
      rcases mem_insert (nodup_group series) h with ⟨hc, hne⟩ | ⟨d, hd, hname, rfl⟩ | ⟨rfl, hnot⟩
      · rw [ih hc, List.filter_cons_of_neg (by simpa using hne.symm)]
        simp
      · rw [ih hd, List.filter_cons_of_pos (by simp [hname])]
        simp
      · have hnone : series.filter (fun t => t.name == s.name) = [] := by
          apply List.filter_eq_nil_iff.2
          intro t ht heq
          rw [names_group, List.mem_eraseDups] at hnot
          exact hnot (List.mem_map.2 ⟨t, ht, by simpa using heq⟩)
        simp [hnone]

end Copies

/-! ## Point by point -/

namespace Series

/-- The first point that is present at a position. -/
def firstPresent? (copies : List Series) (i : Nat) : Option Binary64 :=
  copies.findSome? fun c => (c.points[i]?).join

theorem fitFlags_length (count : Nat) (flags : List Bool) : (fitFlags count flags).length = count := by
  simp only [fitFlags, List.length_append, List.length_take, List.length_replicate]
  omega

/-- Fitting the flags to the values changes no point. -/
theorem pair_fitFlags (values : List Binary64) (flags : List Bool) :
    pair values (fitFlags values.length flags) = pair values flags := by
  apply List.ext_getElem?
  intro i
  rw [pair_getElem?, pair_getElem?]
  by_cases hi : i < values.length
  · have hflag : ((fitFlags values.length flags)[i]?).getD true = (flags[i]?).getD true := by
      rw [fitFlags, List.getElem?_append, List.length_take]
      split
      · rw [List.getElem?_take_of_lt hi]
      · have hout : flags.length ≤ i := by omega
        rw [List.getElem?_eq_none hout, List.getElem?_replicate]
        split <;> rfl
    rw [hflag]
  · rw [List.getElem?_eq_none (Nat.not_lt.1 hi)]
    rfl

/-- The first present point of copies that are long enough is what fills a gap. -/
theorem present?_eq {others : List Series} {i : Nat} (h : ∀ o ∈ others, i < o.values.length) :
    present? others i = firstPresent? others i := by
  induction others with
  | nil => rfl
  | cons o rest ih =>
      have ih' := ih fun p hp => h p (List.mem_cons_of_mem _ hp)
      have hvalue := List.getElem?_eq_getElem (h o List.mem_cons_self)
      simp only [present?, firstPresent?] at ih' ⊢
      rw [List.find?_cons, List.findSome?_cons, points_getElem?, hvalue, ← ih']
      cases o.absentAt i with
      | true => rfl
      | false => simp [hvalue]

/-- Filling keeps the number of values and of flags, and fills the points that are absent. -/
theorem fill_points (others : List Series) (i : Nat) (values : List Binary64) {flags : List Bool}
    (h : flags.length = values.length) :
    (fill others i values flags).1.length = values.length ∧
      (fill others i values flags).2.length = values.length ∧
      ∀ j, (pair (fill others i values flags).1 (fill others i values flags).2)[j]? =
        (pair values flags)[j]?.map fun p : Option Binary64 => p.or (present? others (i + j)) := by
  induction values generalizing i flags with
  | nil =>
      obtain rfl := List.length_eq_zero_iff.1 h
      exact ⟨rfl, rfl, fun j => by simp [fill, pair]⟩
  | cons v vs ih =>
      cases flags with
      | nil => cases h
      | cons a as =>
          obtain ⟨hvalues, hflags, hpoints⟩ := ih (i + 1) (Nat.succ.inj h)
          have hrest : ∀ j, (pair (fill others (i + 1) vs as).1 (fill others (i + 1) vs as).2)[j]? =
              (pair vs as)[j]?.map fun p : Option Binary64 => p.or (present? others (i + (j + 1))) := by
            intro j
            rw [hpoints j, Nat.add_assoc, Nat.add_comm 1]
          simp only [fill]
          cases hp : (if a = true then present? others i else none) with
          | none =>
              refine ⟨by simp [hvalues], by simp [hflags], fun j => ?_⟩
              cases j with
              | zero =>
                  cases a with
                  | true => simp_all [pair]
                  | false => simp [pair]
              | succ j => simpa [pair] using hrest j
          | some w =>
              have ha : a = true := by
                cases a with
                | true => rfl
                | false => cases hp
              refine ⟨by simp [hvalues], by simp [hflags], fun j => ?_⟩
              cases j with
              | zero => simp_all [pair]
              | succ j => simpa [pair] using hrest j

/-! ## Index by index -/

/-- Fill one position of a series, if it is absent; fail if the position is out of range. -/
def fillAt? (others : List Series) (s : Series) (i : Nat) : Option Series := do
  let absent ← s.absent[i]?
  if absent then
    match others.find? (fun o => !o.absentAt i) with
    | some o =>
        let v ← o.values[i]?
        if i < s.values.length then
          some { s with values := s.values.set i v, absent := s.absent.set i false }
        else none
    | none => some s
  else some s

/-- One series out of its copies, position by position; fail if there is no copy or if an index is out of
range. -/
def reconcile? (copies : List Series) : Option Series := do
  let base ← copies[0]?
  if copies.length = 1 then some base
  else
    let others := (copies.drop 1).filter base.aligned
    let fitted := { base with absent := fitFlags base.values.length base.absent }
    (List.range base.values.length).foldlM (fillAt? others) fitted

/-- One position is filled from what is there, and no other is touched. -/
theorem fillAt?_at {others : List Series} (s : Series) {i : Nat} {done vs : List Binary64}
    (v : Binary64) {doneFlags flags : List Bool} (absent : Bool) (hdone : done.length = i)
    (hdoneFlags : doneFlags.length = i) (hothers : ∀ o ∈ others, i < o.values.length) :
    fillAt? others { s with values := done ++ v :: vs, absent := doneFlags ++ absent :: flags } i =
      some (match if absent then present? others i else none with
        | some w => { s with values := done ++ w :: vs, absent := doneFlags ++ false :: flags }
        | none => { s with values := done ++ v :: vs, absent := doneFlags ++ absent :: flags }) := by
  have hflag : (doneFlags ++ absent :: flags)[i]? = some absent := by
    rw [List.getElem?_append_right (Nat.le_of_eq hdoneFlags), hdoneFlags, Nat.sub_self]
    rfl
  cases absent with
  | false => simp [fillAt?, hflag]
  | true =>
      cases ho : others.find? (fun o => !o.absentAt i) with
      | none => simp [fillAt?, hflag, present?, ho]
      | some o =>
          have hlt : i < o.values.length := hothers o (List.mem_of_find?_eq_some ho)
          have hvalue := List.getElem?_eq_getElem hlt
          have hset : (done ++ v :: vs).set i o.values[i] = done ++ o.values[i] :: vs := by
            rw [List.set_append_right _ _ (Nat.le_of_eq hdone), hdone, Nat.sub_self]
            rfl
          have hsetFlag : (doneFlags ++ true :: flags).set i false = doneFlags ++ false :: flags := by
            rw [List.set_append_right _ _ (Nat.le_of_eq hdoneFlags), hdoneFlags, Nat.sub_self]
            rfl
          have hin : i < (done ++ v :: vs).length := by
            rw [List.length_append, List.length_cons, hdone]
            omega
          simp only [fillAt?, hflag, ho, hvalue, hset, hsetFlag, present?, Option.bind_eq_bind,
            Option.bind_some, if_true, if_pos hin]

/-- The loop over the positions from `i` on, when those before it are done, is `fill`. -/
theorem foldlM_fillAt? {others : List Series} (s : Series) {i : Nat} (values : List Binary64)
    {done : List Binary64} {flags doneFlags : List Bool} (hdone : done.length = i)
    (hdoneFlags : doneFlags.length = i) (h : flags.length = values.length)
    (hothers : ∀ o ∈ others, i + values.length ≤ o.values.length) :
    (List.range' i values.length).foldlM (fillAt? others)
        { s with values := done ++ values, absent := doneFlags ++ flags } =
      some { s with values := done ++ (fill others i values flags).1,
                    absent := doneFlags ++ (fill others i values flags).2 } := by
  induction values generalizing i done flags doneFlags with
  | nil =>
      obtain rfl := List.length_eq_zero_iff.1 h
      rfl
  | cons v vs ih =>
      cases flags with
      | nil => cases h
      | cons a as =>
          have hstep : ∀ (w : Binary64) (b : Bool),
              (List.range' (i + 1) vs.length).foldlM (fillAt? others)
                  { s with values := done ++ w :: vs, absent := doneFlags ++ b :: as } =
                some { s with values := done ++ w :: (fill others (i + 1) vs as).1,
                              absent := doneFlags ++ b :: (fill others (i + 1) vs as).2 } := by
            intro w b
            have hlong : ∀ o ∈ others, i + 1 + vs.length ≤ o.values.length := by
              intro o ho
              have hle := hothers o ho
              rw [List.length_cons] at hle
              omega
            have hdone' : (done ++ [w]).length = i + 1 := by simp [hdone]
            have hdoneFlags' : (doneFlags ++ [b]).length = i + 1 := by simp [hdoneFlags]
            simpa using ih hdone' hdoneFlags' (Nat.succ.inj h) hlong
          have hnear : ∀ o ∈ others, i < o.values.length := by
            intro o ho
            have hle := hothers o ho
            rw [List.length_cons] at hle
            omega
          rw [List.length_cons, List.range'_succ, List.foldlM_cons,
            fillAt?_at s v a hdone hdoneFlags hnear]
          simp only [fill]
          cases (if a = true then present? others i else none) with
          | none => exact hstep v a
          | some w => exact hstep w false

theorem mem_aligned {base : Series} {later : List Series} :
    ∀ o ∈ later.filter base.aligned, o.values.length = base.values.length := by
  intro o ho
  have h := (List.mem_filter.1 ho).2
  simp only [aligned, Bool.and_eq_true, decide_eq_true_eq] at h
  exact h.2.symm

/-- No index of a merge is ever out of range. -/
theorem reconcile?_eq (base : Series) (later : List Series) :
    reconcile? (base :: later) = some (base.reconcile later) := by
  cases later with
  | nil => rfl
  | cons c rest =>
      have hlong : ∀ o ∈ (c :: rest).filter base.aligned,
          0 + base.values.length ≤ o.values.length := by
        intro o ho
        exact Nat.le_of_eq ((Nat.zero_add _).trans (mem_aligned o ho).symm)
      have hloop := foldlM_fillAt? base base.values List.length_nil List.length_nil
        (fitFlags_length base.values.length base.absent) hlong
      simp only [List.nil_append] at hloop
      rw [← List.range_eq_range'] at hloop
      simp only [reconcile?, reconcile, List.getElem?_cons_zero, Option.bind_eq_bind, Option.bind_some]
      exact hloop

/-! ## The merge of several copies -/

/-- A series is the merge of a first copy and later ones. A single copy is its own merge; otherwise the
shape is that of the first copy, with a flag for every value. At every position the point is the first
one present in the first copy or in a later one that is aligned with it. -/
structure IsMerge (base : Series) (later : List Series) (s : Series) : Prop where
  single : later = [] → s = base
  shape : (s.name, s.start, s.stop, s.step, s.values.length) =
    (base.name, base.start, base.stop, base.step, base.values.length)
  flags : later ≠ [] → s.absent.length = s.values.length
  points : ∀ i < base.values.length,
    s.points[i]? = some (firstPresent? (base :: later.filter base.aligned) i)

theorem firstPresent?_cons (base : Series) (others : List Series) {i : Nat}
    (hi : i < base.values.length) : ∃ p, base.points[i]? = some p ∧
      firstPresent? (base :: others) i = p.or (firstPresent? others i) := by
  have hi' : i < base.points.length := by rwa [length_points]
  refine ⟨base.points[i], List.getElem?_eq_getElem hi', ?_⟩
  simp only [firstPresent?, List.findSome?_cons, List.getElem?_eq_getElem hi', Option.join_some]
  cases base.points[i] <;> rfl

theorem isMerge_reconcile (base : Series) (later : List Series) :
    IsMerge base later (base.reconcile later) := by
  cases later with
  | nil =>
      refine ⟨fun _ => rfl, rfl, fun h => absurd rfl h, fun i hi => ?_⟩
      obtain ⟨p, hp, hfirst⟩ := firstPresent?_cons base [] hi
      rw [List.filter_nil, hfirst]
      simpa [reconcile, firstPresent?] using hp
  | cons c rest =>
      obtain ⟨hvalues, hflags, hpoints⟩ := fill_points ((c :: rest).filter base.aligned) 0
        base.values (fitFlags_length base.values.length base.absent)
      refine ⟨fun h => absurd h (List.cons_ne_nil _ _), ?_, fun _ => ?_, fun i hi => ?_⟩
      · simp [reconcile, hvalues]
      · exact hflags.trans hvalues.symm
      · obtain ⟨p, hp, hfirst⟩ := firstPresent?_cons base ((c :: rest).filter base.aligned) hi
        have hlong : ∀ o ∈ (c :: rest).filter base.aligned, i < o.values.length := by
          intro o ho
          rwa [mem_aligned o ho]
        have hpoint := hpoints i
        rw [pair_fitFlags, Nat.zero_add, present?_eq hlong] at hpoint
        rw [hfirst]
        exact hpoint.trans (congrArg (Option.map _) hp)

end Series

namespace Copies

theorem isMerge_merge (c : Copies) : Series.IsMerge c.base c.later c.merge :=
  Series.isMerge_reconcile c.base c.later

theorem name_merge (c : Copies) : c.merge.name = c.base.name :=
  congrArg Prod.fst c.isMerge_merge.shape

theorem names_map_merge (series : List Series) :
    ((group series).map merge).map Series.name = (series.map Series.name).eraseDups := by
  rw [List.map_map, ← names_group]
  exact List.map_congr_left fun c _ => c.name_merge

/-- What becomes of a group is the merge of all series of its name, with no index out of range on the way. -/
theorem exists_of_mem_merged {series : List Series} {s : Series} (h : s ∈ (group series).map merge) :
    ∃ base later, series.filter (fun c => c.name == s.name) = base :: later ∧ Series.IsMerge base later s ∧
      Series.reconcile? (base :: later) = some s := by
  obtain ⟨c, hc, rfl⟩ := List.mem_map.1 h
  refine ⟨c.base, c.later, ?_, c.isMerge_merge, Series.reconcile?_eq c.base c.later⟩
  rw [name_merge]
  exact mem_group hc

end Copies

/-! ## What replies tell -/

section Told

variable {α : Type}

/-- An item is in a reply that is an answer. -/
def Reported (replies : List (Reply (List α))) (x : α) : Prop :=
  ∃ reply ∈ replies, ∃ items, reply.outcome = .ok items ∧ x ∈ items

theorem reported_iff {replies : List (Reply (List α))} {x : α} :
    Reported replies x ↔ x ∈ replies.flatMap fun r => r.answer?.getD [] := by
  rw [List.mem_flatMap]
  refine exists_congr fun reply => and_congr_right fun _ => ?_
  obtain ⟨backend, outcome, elapsed⟩ := reply
  cases outcome <;> simp [Reply.answer?]

/-- The items of the replies that are answers, one reply after the other. -/
inductive Told : List (Reply (List α)) → List α → Prop where
  | nil : Told [] []
  | answer {reply : Reply (List α)} {items told : List α} {rest : List (Reply (List α))}
      (h : reply.outcome = .ok items) (tail : Told rest told) : Told (reply :: rest) (items ++ told)
  | failure {reply : Reply (List α)} {f : Failure} {told : List α} {rest : List (Reply (List α))}
      (h : reply.outcome = .error f) (tail : Told rest told) : Told (reply :: rest) told

theorem told_answers (replies : List (Reply (List α))) : Told replies (replies.flatMap fun r => r.answer?.getD []) := by
  induction replies with
  | nil => exact .nil
  | cons reply rest ih =>
      rw [List.flatMap_cons]
      cases h : reply.outcome with
      | ok items =>
          have hitems : reply.answer?.getD [] = items := by rw [Reply.answer?, h]; rfl
          rw [hitems]
          exact .answer h ih
      | error f =>
          have hnone : reply.answer?.getD [] = [] := by rw [Reply.answer?, h]; rfl
          rw [hnone, List.nil_append]
          exact .failure h ih

theorem isSuccess_iff {reply : Reply α} : reply.isSuccess = true ↔ ∃ a, reply.outcome = .ok a := by
  rw [Reply.isSuccess]
  cases reply.outcome <;> simp

end Told

/-- A merged render, by the outcomes of its replies: there is an answer among them, and one series for each name
that an answer has. Names are in the order in which they are told first, and each series is the merge of all copies
of its name in the order in which they are told, with no index out of range on the way. -/
structure Renders (replies : List (Reply (List Series))) (merged : List Series) : Prop where
  answered : ∃ reply ∈ replies, ∃ items, reply.outcome = .ok items
  names : ∀ name, name ∈ merged.map Series.name ↔
    ∃ reply ∈ replies, ∃ items, reply.outcome = .ok items ∧ ∃ s ∈ items, s.name = name
  told : ∃ told, Told replies told ∧ merged.map Series.name = (told.map Series.name).eraseDups ∧
    ∀ s ∈ merged, ∃ base later, told.filter (fun c => c.name == s.name) = base :: later ∧
      Series.IsMerge base later s ∧ Series.reconcile? (base :: later) = some s

/-- A merged render has one series per name that the answers tell, merged point by point out of all copies. It fails
just when nobody answered. -/
theorem mergeRender_pointwise (replies : List (Reply (List Series))) :
    match mergeRender replies with
    | .ok merged => Renders replies merged
    | .error e => (∀ reply ∈ replies, ∃ f, reply.outcome = .error f) ∧ e = .allBackendsFailed .render := by
  rw [mergeRender]
  cases hany : replies.any Reply.isSuccess with
  | false =>
      refine ⟨fun reply hreply => ?_, rfl⟩
      cases h : reply.outcome with
      | ok items => exact absurd (isSuccess_iff.2 ⟨items, h⟩) (List.any_eq_false.1 hany reply hreply)
      | error f => exact ⟨f, rfl⟩
  | true =>
      obtain ⟨reply, hreply, hsuccess⟩ := List.any_eq_true.1 hany
      have hnames := Copies.names_map_merge (answeredSeries replies)
      constructor
      case answered => exact ⟨reply, hreply, isSuccess_iff.1 hsuccess⟩
      case names =>
        intro name
        rw [hnames, List.mem_eraseDups, List.mem_map]
        constructor
        · rintro ⟨s, hs, rfl⟩
          obtain ⟨r, hr, items, hitems, hmem⟩ := reported_iff.2 hs
          exact ⟨r, hr, items, hitems, s, hmem, rfl⟩
        · rintro ⟨r, hr, items, hitems, s, hmem, rfl⟩
          exact ⟨s, reported_iff.1 ⟨r, hr, items, hitems, hmem⟩, rfl⟩
      case told => exact ⟨_, told_answers replies, hnames, fun s hs => Copies.exists_of_mem_merged hs⟩

end MetricFanout
