import MetricFanout.Proofs.Merge.Firsts
/-!
# A merged find sums its replies up

A merged find has three accounts of one list of replies: the matches, who holds each path, and who
reported anything. Each of them is given here by the replies alone, and the three agree about who is in
them.

While replies are added, a match is a first one if nobody holds its path yet. A union in first-seen order
keeps a set of keys instead; both leave the first matches of all.
-/

namespace MetricFanout

namespace FindMerge

/-- A merge sums replies up. Its matches are all that were reported, in order, without later ones of the
same path, so the first report decides about the flag; a union in first-seen order of the same answers
has the same matches. Its holders are listed for just these paths, each with the backends that report
it. Its responders are the backends whose answers are not empty. Everybody who holds a path is a
responder, and every responder holds one. -/
structure SumsUp (m : FindMerge) (replies : List (Reply (List Match))) : Prop where
  found : m.found = firsts (replies.filterMap Reply.answer?).flatten
  first : ∀ x ∈ m.found,
    (replies.filterMap Reply.answer?).flatten.find? (fun y => y.path == x.path) = some x
  paths : (m.found.map Match.path).Nodup
  union : m.found = ((replies.filterMap Reply.answer?).foldl FirstSeen.extend {}).toList
  holders : m.holders = m.found.map fun x => (x.path, reporters x.path replies)
  held : ∀ h ∈ m.holders, h.2 ≠ [] ∧ h.2.Nodup
  responders : m.responders = (replies.filter fun r => !(matchesOf r).isEmpty).map Reply.backend
  responds : ∀ h ∈ m.holders, ∀ backend ∈ h.2, backend ∈ m.responders
  holds : ∀ backend ∈ m.responders, ∃ h ∈ m.holders, backend ∈ h.2

theorem flatMap_matchesOf (replies : List (Reply (List Match))) :
    replies.flatMap matchesOf = (replies.filterMap Reply.answer?).flatten := by
  induction replies with
  | nil => rfl
  | cons r rest ih =>
      rw [List.flatMap_cons, ih]
      cases h : r.answer? <;> simp [matchesOf, h]

theorem sumsUp_merged (replies : List (Reply (List Match))) : (merged replies).SumsUp replies := by
  have hanswers := flatMap_matchesOf replies
  have hfound := found_merged replies
  constructor
  case found => rw [← hanswers, hfound]
  case first =>
    rw [← hanswers, ← map_snd_reports]
    exact (says_merged replies).first
  case paths => exact nodup_found replies
  case union =>
    rw [hfound, hanswers]
    exact (CallResult.union_eq (replies.filterMap Reply.answer?)).symm
  case holders => exact holders_eq replies
  case held =>
    rw [holders_eq]
    intro h hh
    obtain ⟨x, hx, rfl⟩ := List.mem_map.1 hh
    refine ⟨?_, Distinct.nodup_eraseDups _⟩
    rw [← holdersOf_merged]
    exact holders_ne_nil hx
  case responders => exact merged_responders replies
  case responds =>
    rw [holders_eq]
    intro h hh backend hbackend
    obtain ⟨x, _, rfl⟩ := List.mem_map.1 hh
    obtain ⟨r, hr, ⟨y, hy, _⟩, hrb⟩ := mem_reporters.1 hbackend
    exact mem_responders.2 ⟨r, hr, ⟨y, hy⟩, hrb⟩
  case holds =>
    rw [holders_eq]
    intro backend hbackend
    obtain ⟨r, hr, ⟨y, hy⟩, hrb⟩ := mem_responders.1 hbackend
    obtain ⟨x, hx, hpath⟩ := List.mem_map.1 (mem_paths.2 ⟨r, hr, y, hy, rfl⟩)
    exact ⟨_, List.mem_map_of_mem hx, mem_reporters.2 ⟨r, hr, ⟨y, hy, hpath.symm⟩, hrb⟩⟩

end FindMerge

/-- A merged find sums its replies up, and there is one just when somebody answered. -/
theorem mergeFind_sumsUp (replies : List (Reply (List Match))) :
    match mergeFind replies with
    | .ok m => replies.any Reply.isSuccess = true ∧ m.SumsUp replies
    | .error e => replies.any Reply.isSuccess = false ∧ e = .allBackendsFailed .find := by
  rw [mergeFind]
  cases hany : replies.any Reply.isSuccess with
  | false => exact ⟨rfl, rfl⟩
  | true => exact ⟨rfl, FindMerge.sumsUp_merged replies⟩

/-- A path that a backend reports twice and another one reports as well. -/
example : mergeFind
    [⟨"a", .ok [⟨"x", true⟩, ⟨"x", false⟩], 1⟩, ⟨"b", .ok [], 2⟩, ⟨"c", .error .timeout, 3⟩,
      ⟨"d", .ok [⟨"y", true⟩, ⟨"x", false⟩], 4⟩] =
    .ok ⟨[⟨"x", true⟩, ⟨"y", true⟩], [("x", ["a", "d"]), ("y", ["d"])], ["a", "d"]⟩ := by
  rfl

end MetricFanout
