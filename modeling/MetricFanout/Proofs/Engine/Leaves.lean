import MetricFanout.Proofs.Engine.Watch
/-!
# What the search cache remembers

The search cache answers a query with the leaves to which it was last resolved, if that is not too long
ago. Resolutions are deeds of calls, so that what the cache answers can be read off what has been done.

Deeds that do not resolve the query change nothing about what the cache answers from then on. Before
anything has been done the cache may already know something.
-/

namespace MetricFanout

/-- What a deed resolves a query to, and when. -/
def Deed.resolution? (query : String) : Deed → Option (Nat × List String)
  | .resolve time q leaves => if q = query then some (time, leaves) else none
  | _ => none

/-- What a query was resolved to last, and when. -/
def lastResolved? (deeds : List Deed) (query : String) : Option (Nat × List String) :=
  deeds.reverse.findSome? (Deed.resolution? query)

theorem lastResolved?_append (deeds deeds' : List Deed) (query : String) :
    lastResolved? (deeds ++ deeds') query =
      (lastResolved? deeds' query).or (lastResolved? deeds query) := by
  rw [lastResolved?, List.reverse_append, List.findSome?_append]
  rfl

/-- What was resolved after a resolution of the query is about other queries. -/
theorem lastResolved?_of_resolve (before : List Deed) {after : List Deed} {time : Nat} {query : String}
    {leaves : List String} (h : ∀ d ∈ after, d.resolution? query = none) :
    lastResolved? (before ++ .resolve time query leaves :: after) query = some (time, leaves) := by
  have hafter : lastResolved? after query = none :=
    List.findSome?_eq_none_iff.2 fun d hd => h d (List.mem_reverse.1 hd)
  rw [lastResolved?_append, ← List.singleton_append, lastResolved?_append, hafter]
  simp [lastResolved?, Deed.resolution?]

/-- The leaves that are known for a query at a time after deeds, if some were known before them. -/
def knownLeaves (ttl : Nat) (deeds : List Deed) (t : Nat) (query : String)
    (before : Option (List String)) : Option (List String) :=
  match lastResolved? deeds query with
  | some (time, leaves) => if t - time < ttl then some leaves else none
  | none => before

theorem knownLeaves_append (ttl : Nat) (deeds deeds' : List Deed) (t : Nat) (query : String)
    (before : Option (List String)) : knownLeaves ttl (deeds ++ deeds') t query before =
      knownLeaves ttl deeds' t query (knownLeaves ttl deeds t query before) := by
  simp only [knownLeaves, lastResolved?_append]
  cases lastResolved? deeds' query <;> rfl

namespace Session

/-- The search cache of a later session knows what that of an earlier one knew, and what has been resolved
meanwhile. -/
structure Learns (s : Session) (deeds : List Deed) (q : Session) : Prop where
  now : s.now ≤ q.now
  ttl : q.engine.searches.ttl = s.engine.searches.ttl
  distinct : s.engine.searches.Distinct → q.engine.searches.Distinct
  peek : s.engine.searches.Distinct → ∀ t, q.now ≤ t → ∀ query,
    q.engine.searches.peek t query =
      knownLeaves s.engine.searches.ttl deeds t query (s.engine.searches.peek t query)

namespace Learns

variable {s q v : Session} {deeds deeds' : List Deed}

theorem trans (h : s.Learns deeds q) (h' : q.Learns deeds' v) : s.Learns (deeds ++ deeds') v := by
  constructor
  case now => exact Nat.le_trans h.now h'.now
  case ttl => exact h'.ttl.trans h.ttl
  case distinct => exact fun hs => h'.distinct (h.distinct hs)
  case peek =>
    intro hs t ht query
    rw [h'.peek (h.distinct hs) t ht, h.peek hs t (Nat.le_trans h'.now ht), h.ttl, knownLeaves_append]

/-- What does not touch the search cache may take time. -/
theorem of_same (hsearches : q.engine.searches = s.engine.searches) (hnow : s.now ≤ q.now)
    (hquiet : ∀ query, lastResolved? deeds query = none) : s.Learns deeds q := by
  constructor
  case now => exact hnow
  case ttl => rw [hsearches]
  case distinct =>
    rw [hsearches]
    exact id
  case peek =>
    intro _ t _ query
    rw [hsearches, knownLeaves, hquiet]

end Learns

variable {behaviour : Behaviour} {s q : Session} {deeds : List Deed}

theorem Act.learns (a : Act behaviour s deeds q) : s.Learns deeds q := by
  cases a with
  | change paths => exact .of_same rfl (Nat.le_refl _) fun _ => rfl
  | know r found => exact .of_same rfl (Nat.le_refl _) fun _ => rfl
  | hear r f => exact .of_same rfl (Nat.le_refl _) fun _ => rfl
  | ask deadline r backends => exact .of_same rfl (Nat.le_refl _) fun _ => rfl
  | search query =>
      constructor
      case now => exact Nat.le_refl _
      case ttl => exact TtlCache.get_ttl _ _ _
      case distinct => exact fun hs => TtlCache.distinct_get hs _ _
      case peek => exact fun _ t ht key => TtlCache.peek_get _ ht query key
  | resolve query leaves =>
      constructor
      case now => exact Nat.le_refl _
      case ttl => rfl
      case distinct => exact fun hs => TtlCache.distinct_put hs _ _ _
      case peek =>
        intro _ t _ key
        refine (TtlCache.peek_put s.engine.searches s.now t query key leaves).trans ?_
        by_cases hkey : key = query
        · simp [knownLeaves, lastResolved?, Deed.resolution?, hkey]
        · have hne : ¬ query = key := fun h => hkey h.symm
          simp [knownLeaves, lastResolved?, Deed.resolution?, hkey, hne]

theorem Acts.learns (h : Acts behaviour s deeds q) : s.Learns deeds q := by
  induction h with
  | refl => exact .of_same rfl (Nat.le_refl _) fun _ => rfl
  | act _ a ih => exact ih.trans a.learns

end Session

namespace Watch

variable {may : Session → Nat → Prop} {own all : List Deed} {w v : Watch}

theorem Move.learns (m : Move may w own all v) : w.session.Learns all v.session := by
  cases m with
  | call behaviour request => exact (Call.acts_start w.session behaviour request).learns
  | handOver behaviour hfinished =>
      rename_i f rest
      have htaken : w.session.Learns [] (w.session.take rest) :=
        .of_same rfl (Nat.le_refl _) fun _ => rfl
      exact htaken.trans (w.acts_handOver behaviour f rest).learns
  | happen behaviour hfinished hnext => exact .of_same rfl (Nat.le_max_left _ _) fun _ => rfl
  | wait hmay => exact .of_same rfl (Nat.le_add_right _ _) fun _ => rfl
  | leave hbefore hafter => exact .of_same rfl (Nat.le_refl _) fun _ => rfl
  | purge =>
      constructor
      case now => exact Nat.le_refl _
      case ttl => rfl
      case distinct => exact fun hs => TtlCache.distinct_purge hs _
      case peek => exact fun hs t ht key => TtlCache.peek_purge hs ht key

/-- From the start of a call on, the search cache answers what calls have resolved. -/
theorem Course.learns {r : Run} {behaviour : Behaviour} {request : Request}
    (h : Course may r behaviour request own all w) : r.session.Learns all w.session := by
  induction h with
  | start => exact (Call.acts_start r.session behaviour request).learns
  | move _ m ih => exact ih.trans m.learns

end Watch

/-- The keys of the search cache stay distinct in every run. -/
theorem Run.distinct_searches_of_reach {e : Engine} (he : e.searches.Distinct) {log : List Event}
    {r : Run} (h : Reach ⟨.ofEngine e, []⟩ log r) : r.session.engine.searches.Distinct := by
  refine session_of_reach (P := fun s => s.engine.searches.Distinct) he
    (fun _ _ _ _ hacts hs => hacts.learns.distinct hs) (fun _ _ _ _ hs => hs) (fun _ _ _ _ hs => hs)
    (fun _ _ hs => hs) ?_ h
  exact fun _ hs => TtlCache.distinct_purge hs _

end MetricFanout
