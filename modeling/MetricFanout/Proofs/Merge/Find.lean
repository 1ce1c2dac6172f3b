import Mathlib.Data.List.Nodup
import MetricFanout.Merge.Find
import MetricFanout.Proofs.Merge.Distinct
/-!
# What a merged find says

A merged find is made of reports: a backend reported a match. Its matches are the first reports of all
paths, in order; a path is held by the backends that reported it; and the responders are the backends
that reported anything.

Replies are flattened to reports, and the laws go by induction on the reports, the last one first.
-/

namespace MetricFanout

namespace FindMerge

/-! ## Replies as reports -/

/-- The matches in a reply. -/
def matchesOf (r : Reply (List Match)) : List Match := r.answer?.getD []

/-- Who reported what, in order of arrival. -/
def reports (replies : List (Reply (List Match))) : List (String × Match) :=
  replies.flatMap fun r => (matchesOf r).map fun x => (r.backend, x)

theorem map_snd_reports (replies : List (Reply (List Match))) :
    (reports replies).map Prod.snd = replies.flatMap matchesOf := by
  simp only [reports, List.map_flatMap, List.map_map, Function.comp_def, List.map_id']

/-- Add reports to a merge, one after the other. -/
def tell (m : FindMerge) (told : List (String × Match)) : FindMerge :=
  told.foldl (fun m x => m.addMatch x.1 x.2) m

theorem tell_responders (m : FindMerge) (told : List (String × Match)) (rs : List String) :
    tell { m with responders := rs } told = { tell m told with responders := rs } := by
  induction told generalizing m with
  | nil => rfl
  | cons x rest ih => exact ih (m.addMatch x.1 x.2)

theorem addReply_eq (m : FindMerge) (r : Reply (List Match)) : m.addReply r =
    { tell m (reports [r]) with
      responders := m.responders ++ if (matchesOf r).isEmpty then [] else [r.backend] } := by
  obtain ⟨backend, outcome, elapsed⟩ := r
  cases outcome with
  | error f => simp [addReply, reports, matchesOf, Reply.answer?, tell]
  | ok answer =>
      have hfold : ∀ n : FindMerge, answer.foldl (addMatch backend) n =
          tell n (reports [⟨backend, .ok answer, elapsed⟩]) := by
        intro n
        simp [reports, matchesOf, Reply.answer?, tell, List.foldl_map]
      simp only [addReply, addAnswer]
      rw [hfold, tell_responders]
      cases h : answer.isEmpty <;> simp [matchesOf, Reply.answer?, h]

/-- A merge of replies is made of their reports and of those who reported anything. -/
theorem foldl_addReply (replies : List (Reply (List Match))) : replies.foldl addReply {} =
    { tell {} (reports replies) with
      responders := (replies.filter fun r => !(matchesOf r).isEmpty).map Reply.backend } := by
  induction replies using List.reverseRecOn with
  | nil => rfl
  | append_singleton replies r ih =>
      have htell : reports (replies ++ [r]) = reports replies ++ reports [r] := by
        simp [reports]
      rw [List.foldl_append, ih, List.foldl_cons, List.foldl_nil, addReply_eq, tell_responders, htell]
      simp only [tell, List.foldl_append, List.filter_append, List.map_append]
      congr 1
      cases h : (matchesOf r).isEmpty <;> simp [h]

/-! ## Paths and their holders -/

/-- The holders of a path in a list of holders. -/
def lookup (path : String) (holders : List (String × List String)) : List String :=
  ((holders.find? fun h => h.1 == path).map Prod.snd).getD []

theorem holdersOf_eq (m : FindMerge) (path : String) : m.holdersOf path = lookup path m.holders := rfl

theorem keys_addHolder_of_mem {path : String} (backend : String) {holders : List (String × List String)}
    (h : path ∈ holders.map Prod.fst) :
    (addHolder path backend holders).map Prod.fst = holders.map Prod.fst := by
  induction holders with
  | nil => cases h
  | cons e rest ih =>
      by_cases hpath : e.1 = path
      · simp [addHolder, hpath]
      · have hrest : path ∈ rest.map Prod.fst := by
          rcases List.mem_cons.1 h with heq | hrest
          · exact absurd heq.symm hpath
          · exact hrest
        simp [addHolder, hpath, ih hrest]

theorem keys_addHolder_of_not_mem {path : String} (backend : String)
    {holders : List (String × List String)} (h : path ∉ holders.map Prod.fst) :
    (addHolder path backend holders).map Prod.fst = holders.map Prod.fst ++ [path] := by
  induction holders with
  | nil => rfl
  | cons e rest ih =>
      have hpath : e.1 ≠ path := fun heq => h (heq ▸ List.mem_cons_self)
      have hrest := ih fun hmem => h (List.mem_cons_of_mem _ hmem)
      simp [addHolder, hpath, hrest]

theorem lookup_addHolder (path backend p : String) (holders : List (String × List String)) :
    lookup p (addHolder path backend holders) =
      if p = path then addDistinct backend (lookup p holders) else lookup p holders := by
  induction holders with
  | nil =>
      by_cases hp : p = path
      · simp [lookup, addHolder, addDistinct, hp]
      · have hne : ¬ path = p := fun heq => hp heq.symm
        simp [lookup, addHolder, hp, hne]
  | cons e rest ih =>
      simp only [lookup, addHolder] at ih ⊢
      by_cases he : e.1 = path
      · by_cases hp : p = path
        · simp [he, hp]
        · have hne : ¬ path = p := fun heq => hp heq.symm
          simp [he, hp, hne]
      · by_cases hp : e.1 = p
        · have hne : ¬ p = path := fun heq => he (hp.trans heq)
          simp [hp, hne]
        · have hp' : (e.1 == p) = false := by simpa using hp
          simp only [beq_iff_eq, he, if_false, List.find?_cons, hp']
          exact ih

theorem addDistinct_eraseDups (backend : String) (backends : List String) :
    addDistinct backend backends.eraseDups = (backends ++ [backend]).eraseDups := by
  by_cases h : backend ∈ backends
  · have hmem : backends.eraseDups.contains backend = true :=
      List.contains_iff_mem.2 (List.mem_eraseDups.2 h)
    rw [Distinct.eraseDups_snoc_of_mem h, addDistinct, hmem, if_pos rfl]
  · have hmem : backends.eraseDups.contains backend = false :=
      Bool.eq_false_iff.2 fun hc => h (List.mem_eraseDups.1 (List.contains_iff_mem.1 hc))
    rw [Distinct.eraseDups_snoc_of_not_mem h, addDistinct, hmem]
    rfl

/-! ## The laws -/

/-- A merge says what was told. -/
structure Says (m : FindMerge) (told : List (String × Match)) : Prop where
  paths : m.found.map Match.path = (told.map fun x => x.2.path).eraseDups
  keys : m.holders.map Prod.fst = m.found.map Match.path
  first : ∀ x ∈ m.found, (told.map Prod.snd).find? (fun y => y.path == x.path) = some x
  holders : ∀ p, m.holdersOf p = ((told.filter fun x => x.2.path == p).map Prod.fst).eraseDups

namespace Says

variable {m : FindMerge} {told : List (String × Match)}

theorem mem_keys (h : Says m told) (path : String) :
    path ∈ m.holders.map Prod.fst ↔ path ∈ told.map fun x => x.2.path := by
  rw [h.keys, h.paths, List.mem_eraseDups]

/-- Nobody holds a path just when it has not been reported. -/
theorem isEmpty_holdersOf (h : Says m told) (path : String) :
    (m.holdersOf path).isEmpty = true ↔ path ∉ told.map fun x => x.2.path := by
  rw [h.holders, List.isEmpty_iff, List.eq_nil_iff_forall_not_mem]
  simp only [List.mem_eraseDups, List.mem_map, List.mem_filter, beq_iff_eq]
  constructor
  · rintro hnobody ⟨x, hx, hpath⟩
    exact hnobody x.1 ⟨x, ⟨hx, hpath⟩, rfl⟩
  · rintro hnew backend ⟨x, ⟨hx, hpath⟩, _⟩
    exact hnew ⟨x, hx, hpath⟩

/-- One more match is told. -/
theorem addMatch (h : Says m told) (x : String × Match) :
    Says (m.addMatch x.1 x.2) (told ++ [x]) := by
  have hfresh := h.isEmpty_holdersOf x.2.path
  constructor
  case holders =>
    intro p
    rw [holdersOf_eq, FindMerge.addMatch, lookup_addHolder, ← holdersOf_eq, h.holders p,
      List.filter_append]
    by_cases hp : p = x.2.path
    · rw [if_pos hp, addDistinct_eraseDups, List.filter_cons_of_pos (by simp [hp])]
      simp
    · have hne : ¬ x.2.path = p := fun heq => hp heq.symm
      rw [if_neg hp, List.filter_cons_of_neg (by simpa using hne)]
      simp
  case first =>
    intro y hy
    rw [List.map_append, List.find?_append]
    simp only [FindMerge.addMatch] at hy
    split at hy
    · rename_i hnew
      cases List.mem_append.1 hy with
      | inl hy =>
          rw [h.first y hy]
          rfl
      | inr hy =>
          have hnone : (told.map Prod.snd).find? (fun z => z.path == y.path) = none := by
            apply List.find?_eq_none.2
            intro z hz hzy
            obtain ⟨w, hw, rfl⟩ := List.mem_map.1 hz
            rw [List.mem_singleton.1 hy] at hzy
            exact hfresh.1 hnew (List.mem_map.2 ⟨w, hw, by simpa using hzy⟩)
          rw [hnone, List.mem_singleton.1 hy]
          simp
    · rw [h.first y hy]
      rfl
  case paths =>
    rw [List.map_append, List.map_singleton]
    simp only [FindMerge.addMatch]
    split
    · rename_i hnew
      rw [Distinct.eraseDups_snoc_of_not_mem (hfresh.1 hnew), List.map_append, h.paths]
      rfl
    · rename_i hold
      rw [Distinct.eraseDups_snoc_of_mem (not_not.1 (mt hfresh.2 hold)), h.paths]
  case keys =>
    simp only [FindMerge.addMatch]
    split
    · rename_i hnew
      rw [keys_addHolder_of_not_mem _ (mt (h.mem_keys _).1 (hfresh.1 hnew)), h.keys,
        List.map_append, List.map_singleton]
    · rename_i hold
      rw [keys_addHolder_of_mem _ ((h.mem_keys _).2 (not_not.1 (mt hfresh.2 hold))), h.keys]

end Says

theorem says_tell (told : List (String × Match)) : Says (tell {} told) told := by
  induction told using List.reverseRecOn with
  | nil => exact ⟨rfl, rfl, fun _ hx => absurd hx List.not_mem_nil, fun _ => rfl⟩
  | append_singleton told x ih =>
      have hsnoc : tell {} (told ++ [x]) = (tell {} told).addMatch x.1 x.2 := by
        simp only [tell, List.foldl_append, List.foldl_cons, List.foldl_nil]
      rw [hsnoc]
      exact ih.addMatch x

/-! ## Merged replies -/

/-- The merge of replies. -/
def merged (replies : List (Reply (List Match))) : FindMerge := replies.foldl addReply {}

/-- Whether a reply reports a path. -/
def reportsPath (path : String) (r : Reply (List Match)) : Bool :=
  (matchesOf r).any fun x => x.path == path

variable {replies : List (Reply (List Match))}

theorem merged_of_mergeFind {m : FindMerge} (h : mergeFind replies = .ok m) : m = merged replies := by
  rw [mergeFind] at h
  split at h
  · exact (Except.ok.inj h).symm
  · cases h

theorem says_merged (replies : List (Reply (List Match))) : Says (merged replies) (reports replies) := by
  have h := says_tell (reports replies)
  rw [merged, foldl_addReply]
  exact ⟨h.paths, h.keys, h.first, h.holders⟩

/-- The responders are the backends that reported anything. -/
theorem merged_responders (replies : List (Reply (List Match))) : (merged replies).responders =
    (replies.filter fun r => !(matchesOf r).isEmpty).map Reply.backend := by
  rw [merged, foldl_addReply]

/-- The backends that report a path, in order of arrival, each once. -/
def reporters (path : String) (replies : List (Reply (List Match))) : List String :=
  ((replies.filter (reportsPath path)).map Reply.backend).eraseDups

/-- The backends that report a path hold it. -/
theorem holdersOf_merged (replies : List (Reply (List Match))) (path : String) :
    (merged replies).holdersOf path = reporters path replies := by
  rw [(says_merged replies).holders, reporters]
  induction replies using List.reverseRecOn with
  | nil => rfl
  | append_singleton replies r ih =>
      have hlast : ((reports (replies ++ [r])).filter fun x => x.2.path == path).map Prod.fst =
          ((reports replies).filter fun x => x.2.path == path).map Prod.fst ++
            ((matchesOf r).filter fun x => x.path == path).map fun _ => r.backend := by
        simp only [reports, List.flatMap_append, List.flatMap_singleton, List.filter_append,
          List.filter_map, List.map_append, List.map_map]
        rfl
      rw [hlast, List.filter_append, List.map_append]
      by_cases hempty : (matchesOf r).filter (fun x => x.path == path) = []
      · have hnot : reportsPath path r = false := by
          simpa [reportsPath, List.filter_eq_nil_iff] using hempty
        rw [hempty, List.filter_cons_of_neg (by simp [hnot])]
        simpa using ih
      · have hyes : reportsPath path r = true := by
          obtain ⟨x, hx⟩ := List.exists_mem_of_ne_nil _ hempty
          exact List.any_eq_true.2 ⟨x, List.mem_filter.1 hx⟩
        rw [List.filter_cons_of_pos hyes, Distinct.eraseDups_append_const hempty]
        exact Distinct.eraseDups_snoc_congr ih r.backend

/-- Backends that reply once hold the paths that they report. -/
theorem merged_holders (h : (replies.map Reply.backend).Nodup) (path : String) :
    (merged replies).holdersOf path = (replies.filter (reportsPath path)).map Reply.backend := by
  rw [holdersOf_merged, reporters]
  exact Distinct.eraseDups_of_nodup (h.sublist (List.filter_sublist.map _))

theorem nodup_found (replies : List (Reply (List Match))) :
    ((merged replies).found.map Match.path).Nodup := by
  rw [(says_merged replies).paths]
  exact Distinct.nodup_eraseDups _

/-- Holders are listed for the paths that were found, in the same order. -/
theorem holders_eq (replies : List (Reply (List Match))) : (merged replies).holders =
    (merged replies).found.map fun x => (x.path, reporters x.path replies) := by
  have hkeys := (says_merged replies).keys
  have hnodup : ((merged replies).holders.map Prod.fst).Nodup := hkeys ▸ nodup_found replies
  have hentry : ∀ e ∈ (merged replies).holders, e = (e.1, reporters e.1 replies) := by
    intro e he
    rw [← holdersOf_merged, holdersOf]
    cases hfind : (merged replies).holders.find? fun h => h.1 == e.1 with
    | none => exact absurd (beq_self_eq_true e.1) (List.find?_eq_none.1 hfind e he)
    | some d =>
        have hkey : d.1 = e.1 := by simpa using List.find?_some hfind
        rw [List.inj_on_of_nodup_map hnodup (List.mem_of_find?_eq_some hfind) he hkey]
        rfl
  calc (merged replies).holders
      = (merged replies).holders.map fun e => (e.1, reporters e.1 replies) := by
        conv => lhs; rw [← List.map_id (merged replies).holders]
        exact List.map_congr_left hentry
    _ = ((merged replies).holders.map Prod.fst).map fun p => (p, reporters p replies) := by
        rw [List.map_map]
        rfl
    _ = (merged replies).found.map fun x => (x.path, reporters x.path replies) := by
        rw [hkeys, List.map_map]
        rfl

/-! ## Who is in a merge -/

theorem mem_paths {path : String} : path ∈ (merged replies).found.map Match.path ↔
    ∃ r ∈ replies, ∃ x ∈ matchesOf r, x.path = path := by
  rw [(says_merged replies).paths, List.mem_eraseDups]
  constructor
  · intro h
    obtain ⟨y, hy, rfl⟩ := List.mem_map.1 h
    obtain ⟨r, hr, hyr⟩ := List.mem_flatMap.1 hy
    obtain ⟨x, hx, rfl⟩ := List.mem_map.1 hyr
    exact ⟨r, hr, x, hx, rfl⟩
  · rintro ⟨r, hr, x, hx, rfl⟩
    exact List.mem_map.2 ⟨(r.backend, x),
      List.mem_flatMap.2 ⟨r, hr, List.mem_map_of_mem hx⟩, rfl⟩

theorem exists_reply_of_mem_found {x : Match} (hx : x ∈ (merged replies).found) :
    ∃ r ∈ replies, x ∈ matchesOf r := by
  have hfirst := (says_merged replies).first x hx
  obtain ⟨y, hy, rfl⟩ := List.mem_map.1 (List.mem_of_find?_eq_some hfirst)
  obtain ⟨r, hr, hyr⟩ := List.mem_flatMap.1 hy
  obtain ⟨z, hz, rfl⟩ := List.mem_map.1 hyr
  exact ⟨r, hr, hz⟩

theorem mem_reporters {path backend : String} : backend ∈ reporters path replies ↔
    ∃ r ∈ replies, (∃ x ∈ matchesOf r, x.path = path) ∧ r.backend = backend := by
  simp only [reporters, List.mem_eraseDups, List.mem_map, List.mem_filter, reportsPath,
    List.any_eq_true, beq_iff_eq, and_assoc]

theorem mem_responders {backend : String} : backend ∈ (merged replies).responders ↔
    ∃ r ∈ replies, (∃ x, x ∈ matchesOf r) ∧ r.backend = backend := by
  simp only [merged_responders, List.mem_map, List.mem_filter, Bool.not_eq_true',
    List.isEmpty_eq_false_iff_exists_mem, and_assoc]

theorem holders_ne_nil {x : Match} (hx : x ∈ (merged replies).found) :
    (merged replies).holdersOf x.path ≠ [] := by
  obtain ⟨r, hr, y, hy, hpath⟩ := mem_paths.1 (List.mem_map_of_mem hx)
  rw [holdersOf_merged]
  exact List.ne_nil_of_mem (mem_reporters.2 ⟨r, hr, ⟨y, hy, hpath⟩, rfl⟩)

theorem responders_ne_nil (h : (merged replies).found ≠ []) : (merged replies).responders ≠ [] := by
  obtain ⟨x, hx⟩ := List.exists_mem_of_ne_nil _ h
  obtain ⟨r, hr, y, hy, _⟩ := mem_paths.1 (List.mem_map_of_mem hx)
  exact List.ne_nil_of_mem (mem_responders.2 ⟨r, hr, ⟨y, hy⟩, rfl⟩)

end FindMerge

end MetricFanout
