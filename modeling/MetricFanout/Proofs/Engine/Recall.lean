import Mathlib.Data.List.Nodup
import MetricFanout.Proofs.Cache.Lookup
import MetricFanout.Proofs.Engine.History
/-!
# What the path cache recalls

What the path cache answers for a key is what the last find stored under it, unless that is too old. A
find that was put to the pool stores its matches under its query, and each match with another path under
that path.

`recollect` reads an answer off a history. A session recalls a history when its path cache answers like
this from now on; what the cache still holds of expired entries does not matter.
-/

namespace MetricFanout

/-! ## What a find stores -/

namespace Harvest

/-- The merged replies. -/
def merged (h : Harvest) : FindMerge := .merged h.replies

/-- What a find stores under a key. -/
def stored? (h : Harvest) (key : String) : Option CachedFind :=
  if h.merged.found.isEmpty then none
  else if key = h.query then some ⟨h.merged.found, h.merged.responders⟩
  else
    (h.merged.found.find? fun x => x.path == key).map fun x => ⟨[x], h.merged.holdersOf key⟩

theorem stored?_query {h : Harvest} (hfound : h.merged.found ≠ []) :
    h.stored? h.query = some ⟨h.merged.found, h.merged.responders⟩ := by
  simp [stored?, hfound]

/-- A match is stored under its path, unless that is the query. -/
theorem stored?_path {h : Harvest} {x : Match} (hx : x ∈ h.merged.found) (hquery : x.path ≠ h.query) :
    h.stored? x.path = some ⟨[x], h.merged.holdersOf x.path⟩ := by
  have hne : h.merged.found ≠ [] := List.ne_nil_of_mem hx
  have hfind : h.merged.found.find? (fun y => y.path == x.path) = some x := by
    cases hy : h.merged.found.find? (fun y => y.path == x.path) with
    | none =>
        have hnot := List.find?_eq_none.1 hy x hx
        simp at hnot
    | some y =>
        have hpath : y.path = x.path := by simpa using List.find?_some hy
        rw [List.inj_on_of_nodup_map (FindMerge.nodup_found h.replies)
          (List.mem_of_find?_eq_some hy) hx hpath]
  simp [stored?, hne, hquery, hfind]

/-- What is stored is one of two things: everything, or a match under its path. -/
theorem stored?_cases {h : Harvest} {key : String} {c : CachedFind} (hc : h.stored? key = some c) :
    h.merged.found ≠ [] ∧
      ((key = h.query ∧ c = ⟨h.merged.found, h.merged.responders⟩) ∨
        (key ≠ h.query ∧ ∃ x ∈ h.merged.found, x.path = key ∧ c = ⟨[x], h.merged.holdersOf key⟩)) := by
  unfold stored? at hc
  split at hc
  · cases hc
  · rename_i hne
    refine ⟨by simpa using hne, ?_⟩
    split at hc
    · rename_i hkey
      exact .inl ⟨hkey, (Option.some.inj hc).symm⟩
    · rename_i hkey
      obtain ⟨x, hx, rfl⟩ := Option.map_eq_some_iff.1 hc
      refine .inr ⟨hkey, x, List.mem_of_find?_eq_some hx, ?_, rfl⟩
      simpa using List.find?_some hx

end Harvest

namespace Engine

/-- Matches are put under their paths, one after the other. -/
theorem peek_foldl_put (holders : String → List String) {xs : List Match}
    (hnodup : (xs.map Match.path).Nodup) (c : TtlCache CachedFind) (now t : Nat) (key : String) :
    (xs.foldl (fun c x => c.put now x.path ⟨[x], holders x.path⟩) c).peek t key =
        (match xs.find? fun x => x.path == key with
        | some x => if t - now < c.ttl then some ⟨[x], holders key⟩ else none
        | none => c.peek t key) ∧
      (xs.foldl (fun c x => c.put now x.path ⟨[x], holders x.path⟩) c).ttl = c.ttl := by
  induction xs generalizing c with
  | nil => exact ⟨rfl, rfl⟩
  | cons x rest ih =>
      obtain ⟨hnot, hrest⟩ := List.nodup_cons.1 hnodup
      obtain ⟨hpeek, httl⟩ := ih hrest (c.put now x.path ⟨[x], holders x.path⟩)
      rw [List.foldl_cons, hpeek, httl, List.find?_cons, TtlCache.put_ttl]
      refine ⟨?_, rfl⟩
      -- Paths are distinct, so that no later put is under the key of this one.
      by_cases hx : x.path = key
      · have hnone : rest.find? (fun y => y.path == key) = none := by
          apply List.find?_eq_none.2
          intro y hy hyk
          have hyx : y.path = x.path := (beq_iff_eq.1 hyk).trans hx.symm
          exact hnot (hyx ▸ List.mem_map_of_mem hy)
        simp [hx, hnone, TtlCache.peek_put]
      · have hx' : (x.path == key) = false := by simpa using hx
        have hkey : ¬ key = x.path := fun heq => hx heq.symm
        simp only [hx', TtlCache.peek_put, hkey, if_false]

/-- What the path cache answers after a find has been remembered. -/
theorem peek_remember (e : Engine) (h : Harvest) (t : Nat) (key : String) :
    (e.remember h.time h.query h.merged).paths.peek t key =
      match h.stored? key with
      | some c => if t - h.time < e.paths.ttl then some c else none
      | none => e.paths.peek t key := by
  by_cases hempty : h.merged.found.isEmpty = true
  · simp only [remember, Harvest.stored?, if_pos hempty]
  · have hnodup : ((h.merged.found.filter fun x => x.path != h.query).map Match.path).Nodup :=
      (FindMerge.nodup_found h.replies).sublist (List.filter_sublist.map _)
    simp only [remember, Harvest.stored?, if_neg hempty]
    rw [(peek_foldl_put h.merged.holdersOf hnodup _ h.time t key).1, TtlCache.peek_put,
      TtlCache.put_ttl]
    by_cases hkey : key = h.query
    · have hnone : (h.merged.found.filter fun x => x.path != h.query).find?
          (fun x => x.path == key) = none := by
        apply List.find?_eq_none.2
        intro x hx hxk
        have hne := (List.mem_filter.1 hx).2
        simp [beq_iff_eq.1 hxk, hkey] at hne
      rw [hnone, if_pos hkey, if_pos hkey]
    · have hsame : (h.merged.found.filter fun x => x.path != h.query).find?
          (fun x => x.path == key) = h.merged.found.find? fun x => x.path == key := by
        rw [List.find?_filter]
        congr 1
        funext x
        by_cases hxk : x.path = key
        · simp [hxk, hkey]
        · simp [hxk]
      rw [hsame, if_neg hkey, if_neg hkey]
      cases h.merged.found.find? (fun x => x.path == key) <;> rfl

/-- Without a success nothing is merged. -/
theorem found_of_error {replies : List (Reply (List Match))} {err : CallError}
    (h : mergeFind replies = .error err) : (FindMerge.merged replies).found = [] := by
  apply List.eq_nil_iff_forall_not_mem.2
  intro x hx
  obtain ⟨r, hr, hxr⟩ := FindMerge.exists_reply_of_mem_found hx
  rw [mergeFind] at h
  split at h
  · cases h
  · rename_i hany
    apply hany
    refine List.any_eq_true.2 ⟨r, hr, ?_⟩
    obtain ⟨backend, outcome, elapsed⟩ := r
    cases outcome with
    | ok answer => rfl
    | error f => cases hxr

/-- A find that is concluded is remembered. -/
theorem conclude_find (e : Engine) (now : Nat) (query : String) (replies : List (Reply Answer)) :
    (e.conclude now (.find query) replies).2 =
      e.remember now query (.merged (replies.map (Reply.map Answer.found?))) := by
  simp only [conclude]
  cases h : mergeFind (replies.map (Reply.map Answer.found?)) with
  | ok m => rw [FindMerge.merged_of_mergeFind h]
  | error err => simp [remember, found_of_error h]

end Engine

/-! ## What a history says -/

/-- What an event stores under a key, and when. -/
def Event.stored? (key : String) : Event → Option (Nat × CachedFind)
  | .start _ _ _ _ => none
  | .harvest h => (h.stored? key).map fun c => (h.time, c)

/-- What was last stored under a key, and when. -/
def lastStored? (log : List Event) (key : String) : Option (Nat × CachedFind) :=
  log.foldl (fun last ev => (ev.stored? key).or last) none

/-- What a history says about a key at a time. -/
def recollect (ttl : Nat) (log : List Event) (t : Nat) (key : String) : Option CachedFind :=
  (lastStored? log key).bind fun w => if t - w.1 < ttl then some w.2 else none

theorem lastStored?_snoc (log : List Event) (ev : Event) (key : String) :
    lastStored? (log ++ [ev]) key = (ev.stored? key).or (lastStored? log key) := by
  simp only [lastStored?, List.foldl_append, List.foldl_cons, List.foldl_nil]

/-- What was last stored under a key comes from a find after which nothing was stored under it. -/
theorem lastStored?_eq_some {log : List Event} {key : String} {t : Nat} {c : CachedFind}
    (h : lastStored? log key = some (t, c)) : ∃ pre d post, log = pre ++ .harvest d :: post ∧
      d.time = t ∧ d.stored? key = some c ∧ ∀ ev ∈ post, ev.stored? key = none := by
  induction log using List.reverseRecOn with
  | nil => cases h
  | append_singleton log ev ih =>
      rw [lastStored?_snoc] at h
      cases hev : ev.stored? key with
      | none =>
          rw [hev, Option.none_or] at h
          obtain ⟨pre, d, post, rfl, htime, hstored, hpost⟩ := ih h
          refine ⟨pre, d, post ++ [ev], by simp, htime, hstored, ?_⟩
          intro ev' hev'
          rcases List.mem_append.1 hev' with hev' | hev'
          · exact hpost ev' hev'
          · rw [List.mem_singleton.1 hev', hev]
      | some w =>
          rw [hev, Option.some_or] at h
          cases ev with
          | start _ _ _ _ => cases hev
          | harvest d =>
              obtain ⟨c', hc', rfl⟩ := Option.map_eq_some_iff.1 hev
              cases h
              exact ⟨log, d, [], rfl, rfl, hc', fun _ h' => absurd h' List.not_mem_nil⟩

/-- What a find stored is the last under its key as long as nothing is stored under it. -/
theorem lastStored?_of_harvest (pre : List Event) {d : Harvest} {post : List Event} {key : String}
    {c : CachedFind} (hd : d.stored? key = some c) (hpost : ∀ ev ∈ post, ev.stored? key = none) :
    lastStored? (pre ++ .harvest d :: post) key = some (d.time, c) := by
  induction post using List.reverseRecOn with
  | nil =>
      rw [lastStored?_snoc]
      simp [Event.stored?, hd]
  | append_singleton post ev ih =>
      have hlast := ih fun ev' h' => hpost ev' (List.mem_append_left _ h')
      have hev := hpost ev (List.mem_append_right _ (List.mem_singleton_self ev))
      rw [← List.cons_append, ← List.append_assoc, lastStored?_snoc, hev, Option.none_or, hlast]

end MetricFanout
