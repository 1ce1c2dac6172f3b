import Mathlib.Algebra.GroupWithZero.Nat
import MetricFanout.Proofs.Cache.Atoms
/-!
# Interleaved calls of a cache

However the steps of calls are interleaved, the counters of a cache account for its entries and for the calls
in progress, and an entry disappears only when it has expired.

A call that has added the weight of an entry that is not stored yet, or that has removed or overwritten an
entry and has not subtracted its weight, holds this weight. So the counter of bytes is the weight of what is
stored and of what the calls hold, and it never falls below the former. A look-up that has read an expired
entry learns nothing that it could act on: what it removes it has tested again.
-/

namespace MetricFanout

/-! ## Weights and answers -/

/-- The bytes that a call has to answer for: those it has added for an entry that is not stored yet, and those
of entries that are gone and that it has not subtracted. -/
def CacheCall.held {α : Type} : CacheCall α → Nat
  | .store _ e => e.weight
  | .refund weight => weight
  | .release weight => weight
  | .sweep _ freed => freed
  | .settle _ freed => freed
  | _ => 0

/-- The answer that a look-up has counted and not given yet. -/
def CacheCall.answer? {α : Type} : CacheCall α → Option (Option α)
  | .answer found => some found
  | _ => none

/-- The answers of the look-ups that have finished. -/
def CacheEvent.answers {α : Type} (log : List (CacheEvent α)) : List (Option α) :=
  log.filterMap CacheEvent.answer?

namespace TtlCache

variable {α : Type} {c c' : TtlCache α} {now : Nat} {call : CacheCall α} {next : Option (CacheCall α)}
  {events : List (CacheEvent α)}

/-- The sum of the weights of entries. -/
def weightOf (entries : List (String × CacheEntry α)) : Nat := (entries.map fun e => e.2.weight).sum

/-- The sum of the weights of the stored entries. -/
def weight (c : TtlCache α) : Nat := weightOf c.entries

theorem weightOf_without {entries : List (String × CacheEntry α)} (h : (entries.map Prod.fst).Nodup)
    (key : String) : weightOf (without key entries) +
      (((entries.find? fun e => e.1 == key).map Prod.snd).map CacheEntry.weight).getD 0 = weightOf entries := by
  by_cases hmem : ∃ e ∈ entries, e.1 = key
  · obtain ⟨e, he, rfl⟩ := hmem
    obtain ⟨front, back, rfl⟩ := List.append_of_mem he
    rw [without_between h, find?_between h]
    simp [weightOf]
    omega
  · have hnone : entries.find? (fun e => e.1 == key) = none :=
      List.find?_eq_none.2 fun e he hkey => hmem ⟨e, he, beq_iff_eq.1 hkey⟩
    have hall : without key entries = entries :=
      List.filter_eq_self.2 fun e he => bne_iff_ne.2 fun hkey => hmem ⟨e, he, hkey⟩
    rw [hnone, hall]
    rfl

theorem weight_removed (hc : c.Distinct) {key : String} {e : CacheEntry α} (hkey : c.entry? key = some e) :
    (c.removed key).weight + e.weight = c.weight := by
  have hsum := weightOf_without hc key
  rw [← entry?, hkey] at hsum
  exact hsum

theorem weight_stored (hc : c.Distinct) (key : String) (e : CacheEntry α) :
    (c.stored key e).weight + ((c.entry? key).map CacheEntry.weight).getD 0 = c.weight + e.weight := by
  have hsum := weightOf_without hc key
  have happend : (c.stored key e).weight = weightOf (without key c.entries) + e.weight := by
    simp [weight, weightOf, stored]
  rw [happend]
  unfold weight entry?
  omega

theorem entry?_removed (c : TtlCache α) (k key : String) :
    entry? (c.removed k) key = if key = k then none else c.entry? key := by
  unfold entry? removed
  rw [find?_without]
  split <;> rfl

theorem entry?_stored (c : TtlCache α) (k key : String) (e : CacheEntry α) :
    entry? (c.stored k e) key = if key = k then some e else c.entry? key := by
  unfold entry? stored
  rw [find?_without_append]
  split <;> rfl

/-! ## Single steps -/

/-- The bytes that a call goes on to hold. -/
def heldBy (next : Option (CacheCall α)) : Nat := (next.map CacheCall.held).getD 0

namespace Atom

theorem ttl_eq (h : c.Atom now call c' next events) : c'.ttl = c.ttl := by
  cases h <;> rfl

theorem distinct (h : c.Atom now call c' next events) (hc : c.Distinct) : c'.Distinct := by
  cases h with
  | storeNew e hkey => exact distinct_without_append hc _ e
  | overwrite e hkey => exact distinct_without_append hc _ e
  | evict hkey hexpired => exact distinct_without hc _
  | sweep removed freed hkey hexpired => exact distinct_without hc _
  | charge | refund | readLive | readExpired | readNone | hit | keep | release | miss | answer | swept |
      settle => exact hc

/-- A step keeps the difference between the counter of bytes and what is stored and held. -/
theorem bytes_balance (h : c.Atom now call c' next events) (hc : c.Distinct) :
    c'.bytes + c.weight + call.held = c.bytes + c'.weight + heldBy next := by
  cases h with
  | charge key e =>
      simp only [heldBy, CacheCall.held, weight, Option.map_some, Option.getD_some]
      omega
  | @storeNew key e hkey =>
      have hsum := weight_stored hc key e
      rw [hkey] at hsum
      simp only [heldBy, CacheCall.held, stored, Option.map_none, Option.getD_none] at hsum ⊢
      omega
  | @overwrite key e old hkey =>
      have hsum := weight_stored hc key e
      rw [hkey] at hsum
      simp only [heldBy, CacheCall.held, stored, Option.map_some, Option.getD_some] at hsum ⊢
      omega
  | refund weight =>
      simp only [heldBy, CacheCall.held, TtlCache.weight, Option.map_none, Option.getD_none]
      omega
  | evict hkey hexpired =>
      have hsum := weight_removed hc hkey
      simp only [heldBy, CacheCall.held, removed, Option.map_some, Option.getD_some] at hsum ⊢
      omega
  | release weight =>
      simp only [heldBy, CacheCall.held, TtlCache.weight, Option.map_some, Option.getD_some]
      omega
  | sweep removed freed hkey hexpired =>
      have hsum := weight_removed hc hkey
      simp only [heldBy, CacheCall.held, TtlCache.removed, Option.map_some, Option.getD_some] at hsum ⊢
      omega
  | settle removed freed =>
      simp only [heldBy, CacheCall.held, TtlCache.weight, Option.map_none, Option.getD_none]
      omega
  | readLive | readExpired | readNone | hit | keep | miss | answer | swept => rfl

/-- A step that counts an answer goes on to give it, and a step that gives an answer has counted it. -/
theorem answers_balance (h : c.Atom now call c' next events) :
    (c'.hits + call.answer?.toList.countP Option.isSome = c.hits +
      ((next.bind CacheCall.answer?).toList ++ CacheEvent.answers events).countP Option.isSome) ∧
    (c'.misses + call.answer?.toList.countP Option.isNone = c.misses +
      ((next.bind CacheCall.answer?).toList ++ CacheEvent.answers events).countP Option.isNone) := by
  cases h with
  | charge | storeNew | overwrite | refund | readLive | readExpired | readNone | hit | evict | keep | release |
      miss | answer | sweep | swept | settle => exact ⟨rfl, rfl⟩

/-- An entry stays, or is overwritten by one that is seen to be stored, or it has expired. -/
theorem entry?_cases (h : c.Atom now call c' next events) {key : String} {e : CacheEntry α}
    (hkey : c.entry? key = some e) :
    c'.entry? key = some e ∨
    (∃ e', .stored key e' ∈ events ∧ c'.entry? key = some e') ∨
    (c'.entry? key = none ∧ c.ttl ≤ now - e.putAt) := by
  have hremoved {k : String} {old : CacheEntry α} (hk : c.entry? k = some old)
      (hexpired : c.live now old = false) : entry? (c.removed k) key = some e ∨
        ( entry? (c.removed k) key = none ∧ c.ttl ≤ now - e.putAt) := by
    rw [entry?_removed]
    by_cases heq : key = k
    · subst heq
      obtain rfl : e = old := Option.some.inj (hkey.symm.trans hk)
      exact .inr ⟨if_pos rfl, by simpa [live] using hexpired⟩
    · exact .inl ((if_neg heq).trans hkey)
  have hstored (k : String) (e' : CacheEntry α) : entry? (c.stored k e') key = some e ∨
      ∃ e'', CacheEvent.stored key e'' ∈ [CacheEvent.stored k e'] ∧ entry? (c.stored k e') key = some e'' := by
    rw [entry?_stored]
    by_cases heq : key = k
    · subst heq
      exact .inr ⟨e', List.mem_singleton_self _, if_pos rfl⟩
    · exact .inl ((if_neg heq).trans hkey)
  cases h with
  | storeNew e' hk => exact (hstored _ e').imp_right .inl
  | overwrite e' hk => exact (hstored _ e').imp_right .inl
  | evict hk hexpired => exact (hremoved hk hexpired).imp_right .inr
  | sweep removed freed hk hexpired => exact (hremoved hk hexpired).imp_right .inr
  | charge | refund | readLive | readExpired | readNone | hit | keep | release | miss | answer | swept |
      settle => exact .inl hkey

end Atom

end TtlCache

/-! ## Runs -/

namespace SharedCache

variable {α : Type} {s t : SharedCache α} {log more events : List (CacheEvent α)}

/-- A new cache, with no calls in progress. -/
def fresh (name : String) (ttl now : Nat) : SharedCache α := ⟨{ name := name, ttl := ttl }, now, []⟩

/-- The answers that look-ups in progress have counted and not given yet. -/
def promised (s : SharedCache α) : List (Option α) := s.calls.filterMap CacheCall.answer?

/-- The counters account for what is stored, for what calls hold, and for the answers that look-ups have given
or are about to give. -/
structure Accounted (log : List (CacheEvent α)) (s : SharedCache α) : Prop where
  distinct : s.cache.Distinct
  bytes : s.cache.bytes = s.cache.weight + ((s.calls.map CacheCall.held).sum : Nat)
  hits : s.cache.hits = (CacheEvent.answers log ++ s.promised).countP Option.isSome
  misses : s.cache.misses = (CacheEvent.answers log ++ s.promised).countP Option.isNone

theorem Accounted.of_begun (h : s.Accounted log) {call : CacheCall α} (hheld : call.held = 0)
    (hanswer : call.answer? = none) : Accounted (log ++ []) { s with calls := call :: s.calls } where
  distinct := h.distinct
  bytes := by
    rw [List.map_cons, List.sum_cons, hheld, Nat.zero_add]
    exact h.bytes
  hits := by
    rw [List.append_nil, promised, List.filterMap_cons_none hanswer]
    exact h.hits
  misses := by
    rw [List.append_nil, promised, List.filterMap_cons_none hanswer]
    exact h.misses

/-- A counter of answers follows a step of one of the calls. -/
theorem count_of_act {p : Option α → Bool} {before after : List (CacheCall α)} {call : CacheCall α}
    {next : Option (CacheCall α)} {count count' : Nat}
    (hstep : count' + call.answer?.toList.countP p =
      count + ((next.bind CacheCall.answer?).toList ++ CacheEvent.answers events).countP p)
    (h : count = (CacheEvent.answers log ++ (before ++ call :: after).filterMap CacheCall.answer?).countP p) :
    count' = (CacheEvent.answers (log ++ events) ++
      (before ++ next.toList ++ after).filterMap CacheCall.answer?).countP p := by
  have hcall : (before ++ call :: after).filterMap CacheCall.answer? =
      before.filterMap CacheCall.answer? ++ (call.answer?.toList ++ after.filterMap CacheCall.answer?) := by
    cases hanswer : call.answer? <;> simp [hanswer]
  have hnext : next.toList.filterMap CacheCall.answer? = (next.bind CacheCall.answer?).toList := by
    cases next with
    | none => rfl
    | some next => cases hanswer : next.answer? <;> simp [hanswer]
  have hlog : CacheEvent.answers (log ++ events) = CacheEvent.answers log ++ CacheEvent.answers events :=
    List.filterMap_append
  rw [hcall] at h
  rw [hlog, List.filterMap_append, List.filterMap_append, hnext]
  simp only [List.countP_append] at hstep h ⊢
  omega

/-- A move keeps the accounts. -/
theorem Accounted.move [Weigh α] (h : s.Accounted log) (hmove : Move s events t) :
    t.Accounted (log ++ events) := by
  cases hmove with
  | put key value => exact h.of_begun rfl rfl
  | get key => exact h.of_begun rfl rfl
  | purge => exact h.of_begun rfl rfl
  | wait ms =>
      rw [List.append_nil]
      exact ⟨h.distinct, h.bytes, h.hits, h.misses⟩
  | @act before after call next c _ hcalls hatom =>
      obtain ⟨hhits, hmisses⟩ := hatom.answers_balance
      refine ⟨hatom.distinct h.distinct, ?_, count_of_act hhits ?_, count_of_act hmisses ?_⟩
      · -- what the call holds changes by what the counter and the entries differ by
        have hstep := hatom.bytes_balance h.distinct
        have hbytes := h.bytes
        rw [hcalls] at hbytes
        have hheld : (next.toList.map CacheCall.held).sum = TtlCache.heldBy next := by cases next <;> rfl
        simp only [List.map_append, List.map_cons, List.sum_append, List.sum_cons, hheld] at hbytes ⊢
        omega
      · rw [← hcalls]
        exact h.hits
      · rw [← hcalls]
        exact h.misses

/-- The accounts are kept by every run of a new cache. -/
theorem accounted_of_reach [Weigh α] {name : String} {ttl now : Nat} (h : Reach (fresh name ttl now) log s) :
    s.Accounted log := by
  induction h with
  | refl => exact ⟨List.nodup_nil, rfl, rfl, rfl⟩
  | move _ hmove ih => exact ih.move hmove

/-! ## What becomes of an entry -/

theorem Move.ttl_eq [Weigh α] (h : Move s events t) : t.cache.ttl = s.cache.ttl := by
  cases h with
  | act before after hcalls hatom => exact hatom.ttl_eq
  | put | get | purge | wait => rfl

theorem Move.now_le [Weigh α] (h : Move s events t) : s.now ≤ t.now := by
  cases h with
  | wait ms => exact Nat.le_add_right _ _
  | put | get | purge | act => exact Nat.le_refl _

/-- An entry stays, or is overwritten by one that is seen to be stored, or it has expired. -/
theorem Move.entry?_cases [Weigh α] (h : Move s events t) {key : String} {e : CacheEntry α}
    (hkey : s.cache.entry? key = some e) :
    t.cache.entry? key = some e ∨
    (∃ e', .stored key e' ∈ events ∧ t.cache.entry? key = some e') ∨
    (t.cache.entry? key = none ∧ s.cache.ttl ≤ s.now - e.putAt) := by
  cases h with
  | act before after hcalls hatom => exact hatom.entry?_cases hkey
  | put | get | purge | wait => exact .inl hkey

theorem Reach.ttl_eq [Weigh α] (h : Reach s log t) : t.cache.ttl = s.cache.ttl := by
  induction h with
  | refl => rfl
  | move _ hmove ih => exact hmove.ttl_eq.trans ih

/-- An entry that nothing is stored over is there as long as it is live, whatever the calls have read that were
in progress when it was stored. -/
theorem Reach.entry?_of_live [Weigh α] (h : Reach s log t) {key : String} {e : CacheEntry α}
    (hkey : s.cache.entry? key = some e) (hnew : ∀ e', .stored key e' ∉ log)
    (hlive : t.now - e.putAt < s.cache.ttl) : t.cache.entry? key = some e := by
  induction h with
  | refl => exact hkey
  | @move log events u t h hmove ih =>
      have hle := hmove.now_le
      have hu := ih (fun e' hmem => hnew e' (List.mem_append_left _ hmem)) (by omega)
      rcases hmove.entry?_cases hu with hstays | ⟨e', hmem, _⟩ | ⟨_, hexpired⟩
      · exact hstays
      · exact absurd (List.mem_append_right _ hmem) (hnew e')
      · rw [h.ttl_eq] at hexpired
        omega

/-- **Interleaved calls lose no refresh and count no byte too little.** In every state that puts, look-ups and
purges bring about by their steps, in whatever order these are taken: the next move takes an entry away only by
storing another one under its key, or when the entry has expired by then, so an entry that is put is there until
it expires or something is stored over it; the counter of bytes is at least the weight of the stored entries;
and when no call is in progress it is that weight, and hits and misses are as many as the answers given. -/
theorem interleavings_sound [Weigh α] {name : String} {ttl start : Nat}
    (h : Reach (fresh name ttl start) log s) :
    (∀ key e, s.cache.entry? key = some e → ∀ events t, Move s events t →
      t.cache.entry? key = some e ∨
      (∃ e', .stored key e' ∈ events ∧ t.cache.entry? key = some e') ∨
      (t.cache.entry? key = none ∧ ttl ≤ s.now - e.putAt)) ∧
    (∀ key e, s.cache.entry? key = some e → ∀ more t, Reach s more t → (∀ e', .stored key e' ∉ more) →
      t.now - e.putAt < ttl → t.cache.entry? key = some e) ∧
    s.cache.weight ≤ s.cache.bytes ∧
    (s.calls = [] → s.cache.bytes = s.cache.weight ∧
      s.cache.hits + s.cache.misses = (CacheEvent.answers log).length) := by
  have hacc := accounted_of_reach h
  have httl : s.cache.ttl = ttl := h.ttl_eq
  refine ⟨fun key e hkey events t hmove => ?_, fun key e hkey more t hmore hnew hlive => ?_, ?_,
    fun hidle => ?_⟩
  · rw [← httl]
    exact hmove.entry?_cases hkey
  · rw [← httl] at hlive
    exact hmore.entry?_of_live hkey hnew hlive
  · have hbytes := hacc.bytes
    omega
  · have hbytes := hacc.bytes
    have hhits := hacc.hits
    have hmisses := hacc.misses
    rw [hidle] at hbytes
    rw [promised, hidle, List.filterMap_nil, List.append_nil] at hhits hmisses
    refine ⟨by simpa using hbytes, ?_⟩
    rw [hhits, hmisses, List.length_eq_countP_add_countP Option.isSome]
    congr 2
    funext found
    cases found <;> rfl

namespace Race

/-- A look-up has read an entry that had expired, when a put has overwritten it. -/
def refreshed : SharedCache String :=
  ⟨{ name := "path", ttl := 10, entries := [("k", ⟨"b", 10, 2⟩)], bytes := 4 }, 10, [.refund 2, .evict "k"]⟩

/-- Both calls have finished. -/
def ended : SharedCache String :=
  ⟨{ name := "path", ttl := 10, entries := [("k", ⟨"b", 10, 2⟩)], bytes := 2, misses := 1 }, 10, []⟩

theorem reach_refreshed :
    Reach (fresh "path" 10 0) [.stored "k" ⟨"a", 0, 2⟩, .stored "k" ⟨"b", 10, 2⟩] refreshed := by
  have hput := ((reach_put (fresh "path" 10 0) "k" "a").move (.wait _ 10)).move (.get _ "k")
  have hread := hput.goOn (.readExpired (e := ⟨"a", 0, 2⟩) rfl rfl)
  have hcharged := (hread.move (.put _ "k" "b")).goOn (.charge _ _)
  exact hcharged.goOn (.overwrite _ (rfl : TtlCache.entry? _ "k" = some ⟨"a", 0, 2⟩))

theorem reach_ended : Reach refreshed [.answered none] ended := by
  have hrefunded : Reach refreshed [] _ := Reach.refl.finish (.refund 2)
  have hkept := hrefunded.goOn (.keep (by decide))
  exact (hkept.goOn .miss).finish (.answer none)

end Race

/-- The look-up does not remove what the put has stored; meanwhile the old entry is counted as well. -/
theorem interleavings_sound_race :
    Race.refreshed.cache.weight ≤ Race.refreshed.cache.bytes ∧
    Race.ended.cache.entry? "k" = some ⟨"b", 10, 2⟩ ∧
    Race.ended.cache.bytes = Race.ended.cache.weight ∧ Race.ended.cache.hits + Race.ended.cache.misses = 1 := by
  obtain ⟨_, hstays, hbytes, _⟩ := interleavings_sound Race.reach_refreshed
  obtain ⟨_, _, _, hidle⟩ := interleavings_sound (Race.reach_refreshed.trans Race.reach_ended)
  exact ⟨hbytes, hstays "k" _ rfl _ _ Race.reach_ended (by simp) (by decide), hidle rfl⟩

end SharedCache

end MetricFanout
