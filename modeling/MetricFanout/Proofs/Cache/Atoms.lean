import MetricFanout.Proofs.Cache.Lookup
/-!
# Calls of a cache, step by step

A cache is shared by calls that run at the same time. Each of them is a sequence of atomic steps: the map is
read or changed under its lock, one key at a time, and the counters are changed apart from it. Between two
steps of a call others may take theirs, new calls may begin, and the clock may advance.

## Implementation notes

A call in progress is what it will do next, with what it has learnt so far. A put takes the time before all
else, so what it stores may be older than what it overwrites. A purge goes through the map while others change
it; which keys it meets is left open, so it may remove any entry that has expired when it is met, and may end
at any time. Without interruption the steps make up the calls of `TtlCache`.
-/

namespace MetricFanout

/-- A call in progress, by the step that it takes next. -/
inductive CacheCall (α : Type) where
  /-- A put adds the weight of its entry. -/
  | charge (key : String) (entry : CacheEntry α)
  /-- A put stores its entry, and learns which one it overwrites. -/
  | store (key : String) (entry : CacheEntry α)
  /-- A put subtracts the weight of the entry that it has overwritten. -/
  | refund (weight : Nat)
  /-- A look-up reads the entry of its key. -/
  | read (key : String)
  /-- A look-up counts a hit. -/
  | hit (value : α)
  /-- A look-up that has read an expired entry removes what is there now, if that has expired. -/
  | evict (key : String)
  /-- A look-up subtracts the weight of the entry that it has removed. -/
  | release (weight : Nat)
  /-- A look-up counts a miss. -/
  | miss
  /-- A look-up answers. -/
  | answer (found : Option α)
  /-- A purge goes on, after so many entries of so many bytes have been removed. -/
  | sweep (removed freed : Nat)
  /-- A purge subtracts the bytes that it has freed. -/
  | settle (removed freed : Nat)
  deriving DecidableEq

/-- What is seen of the steps of calls. -/
inductive CacheEvent (α : Type) where
  | stored (key : String) (entry : CacheEntry α)
  | answered (found : Option α)
  | purged (removed : Nat)
  deriving DecidableEq

/-- The answer of a look-up that has finished. -/
def CacheEvent.answer? {α : Type} : CacheEvent α → Option (Option α)
  | .answered found => some found
  | _ => none

/-- A cache with its clock and the calls in progress. -/
structure SharedCache (α : Type) where
  cache : TtlCache α
  now : Nat := 0
  calls : List (CacheCall α) := []

namespace TtlCache

variable {α : Type}

/-- The entry that a put at a time is to store. -/
def newEntry [Weigh α] (now : Nat) (key : String) (value : α) : CacheEntry α :=
  ⟨value, now, key.utf8ByteSize + Weigh.weight value⟩

/-- A cache without the entry of a key, its counters as they are. -/
def removed (c : TtlCache α) (key : String) : TtlCache α := { c with entries := without key c.entries }

/-- A cache with an entry of a key instead of one that may be there, its counters as they are. -/
def stored (c : TtlCache α) (key : String) (entry : CacheEntry α) : TtlCache α :=
  { c with entries := without key c.entries ++ [(key, entry)] }

/-- An atomic step of a call at a time: what it makes of the cache, what the call does next unless it ends,
and what is seen. -/
inductive Atom (now : Nat) (c : TtlCache α) :
    CacheCall α → TtlCache α → Option (CacheCall α) → List (CacheEvent α) → Prop
  | charge (key : String) (e : CacheEntry α) :
      Atom now c (.charge key e) { c with bytes := c.bytes + e.weight } (some (.store key e)) []
  | storeNew {key : String} (e : CacheEntry α) (hkey : c.entry? key = none) :
      Atom now c (.store key e) (c.stored key e) none [.stored key e]
  | overwrite {key : String} (e : CacheEntry α) {old : CacheEntry α} (hkey : c.entry? key = some old) :
      Atom now c (.store key e) (c.stored key e) (some (.refund old.weight)) [.stored key e]
  | refund (weight : Nat) : Atom now c (.refund weight) { c with bytes := c.bytes - weight } none []
  | readLive {key : String} {e : CacheEntry α} (hkey : c.entry? key = some e) (hlive : c.live now e = true) :
      Atom now c (.read key) c (some (.hit e.value)) []
  | readExpired {key : String} {e : CacheEntry α} (hkey : c.entry? key = some e)
      (hexpired : c.live now e = false) : Atom now c (.read key) c (some (.evict key)) []
  | readNone {key : String} (hkey : c.entry? key = none) : Atom now c (.read key) c (some .miss) []
  | hit (value : α) : Atom now c (.hit value) { c with hits := c.hits + 1 } (some (.answer (some value))) []
  | evict {key : String} {e : CacheEntry α} (hkey : c.entry? key = some e) (hexpired : c.live now e = false) :
      Atom now c (.evict key) (c.removed key) (some (.release e.weight)) []
  | keep {key : String} (hkey : ∀ e, c.entry? key = some e → c.live now e = true) :
      Atom now c (.evict key) c (some .miss) []
  | release (weight : Nat) : Atom now c (.release weight) { c with bytes := c.bytes - weight } (some .miss) []
  | miss : Atom now c .miss { c with misses := c.misses + 1 } (some (.answer none)) []
  | answer (found : Option α) : Atom now c (.answer found) c none [.answered found]
  | sweep {key : String} {e : CacheEntry α} (removed freed : Nat) (hkey : c.entry? key = some e)
      (hexpired : c.live now e = false) :
      Atom now c (.sweep removed freed) (c.removed key) (some (.sweep (removed + 1) (freed + e.weight))) []
  | swept (removed freed : Nat) : Atom now c (.sweep removed freed) c (some (.settle removed freed)) []
  | settle (removed freed : Nat) :
      Atom now c (.settle removed freed) { c with bytes := c.bytes - freed } none [.purged removed]

/-- An entry between others is the one of its key. -/
theorem find?_between {front back : List (String × CacheEntry α)} {e : String × CacheEntry α}
    (h : ((front ++ e :: back).map Prod.fst).Nodup) :
    (front ++ e :: back).find? (fun f => f.1 == e.1) = some e := by
  rw [List.map_append, List.map_cons] at h
  have hfront : front.find? (fun f => f.1 == e.1) = none := by
    refine List.find?_eq_none.2 fun f hf hkey => ?_
    exact (List.nodup_append.1 h).2.2 f.1 (List.mem_map_of_mem hf) e.1 List.mem_cons_self (beq_iff_eq.1 hkey)
  rw [List.find?_append, hfront, Option.none_or, List.find?_cons_of_pos (by simp)]

/-- What is left without an entry between others. -/
theorem without_between {front back : List (String × CacheEntry α)} {e : String × CacheEntry α}
    (h : ((front ++ e :: back).map Prod.fst).Nodup) : without e.1 (front ++ e :: back) = front ++ back := by
  rw [List.map_append, List.map_cons] at h
  obtain ⟨_, hback, hdisjoint⟩ := List.nodup_append.1 h
  have hnew := (List.nodup_cons.1 hback).1
  rw [without, List.filter_append, List.filter_cons_of_neg (by simp)]
  congr 1
  · refine List.filter_eq_self.2 fun f hf => bne_iff_ne.2 fun hkey => ?_
    exact hdisjoint f.1 (List.mem_map_of_mem hf) e.1 List.mem_cons_self hkey
  · refine List.filter_eq_self.2 fun f hf => bne_iff_ne.2 fun hkey => ?_
    exact hnew (hkey ▸ List.mem_map_of_mem hf)

end TtlCache

namespace SharedCache

variable {α : Type} [Weigh α]

/-- A call begins, the clock advances, or one of the calls in progress takes a step. -/
inductive Move : SharedCache α → List (CacheEvent α) → SharedCache α → Prop
  | put (s : SharedCache α) (key : String) (value : α) :
      Move s [] { s with calls := .charge key (TtlCache.newEntry s.now key value) :: s.calls }
  | get (s : SharedCache α) (key : String) : Move s [] { s with calls := .read key :: s.calls }
  | purge (s : SharedCache α) : Move s [] { s with calls := .sweep 0 0 :: s.calls }
  | wait (s : SharedCache α) (ms : Nat) : Move s [] { s with now := s.now + ms }
  | act {s : SharedCache α} (before after : List (CacheCall α)) {call : CacheCall α}
      {next : Option (CacheCall α)} {c : TtlCache α} {events : List (CacheEvent α)}
      (hcalls : s.calls = before ++ call :: after) (hatom : s.cache.Atom s.now call c next events) :
      Move s events { s with cache := c, calls := before ++ next.toList ++ after }

/-- Moves one after the other, and what is seen of them. -/
inductive Reach (start : SharedCache α) : List (CacheEvent α) → SharedCache α → Prop
  | refl : Reach start [] start
  | move {log events : List (CacheEvent α)} {s t : SharedCache α} (h : Reach start log s)
      (hmove : Move s events t) : Reach start (log ++ events) t

theorem Reach.trans {start s t : SharedCache α} {log more : List (CacheEvent α)} (h : Reach start log s)
    (hmore : Reach s more t) : Reach start (log ++ more) t := by
  induction hmore with
  | refl => rwa [List.append_nil]
  | move _ hmove ih =>
      rw [← List.append_assoc]
      exact ih.move hmove

/-! ## Calls without interruption -/

section

variable {start : SharedCache α} {log events : List (CacheEvent α)} {c c' : TtlCache α} {now : Nat}
  {call next : CacheCall α} {rest : List (CacheCall α)}

/-- The first call takes a step and goes on. -/
theorem Reach.goOn (h : Reach start log ⟨c, now, call :: rest⟩)
    (hatom : c.Atom now call c' (some next) events) :
    Reach start (log ++ events) ⟨c', now, next :: rest⟩ :=
  h.move (.act (s := ⟨c, now, call :: rest⟩) [] rest rfl hatom)

/-- The first call takes its last step. -/
theorem Reach.finish (h : Reach start log ⟨c, now, call :: rest⟩) (hatom : c.Atom now call c' none events) :
    Reach start (log ++ events) ⟨c', now, rest⟩ :=
  h.move (.act (s := ⟨c, now, call :: rest⟩) [] rest rfl hatom)

end

/-- A put that is not interrupted is that of the cache. -/
theorem reach_put (s : SharedCache α) (key : String) (value : α) :
    Reach s [.stored key (TtlCache.newEntry s.now key value)]
      { s with cache := s.cache.put s.now key value } := by
  have hcharged := (Reach.refl.move (.put s key value)).goOn (.charge key _)
  cases hold : s.cache.entry? key with
  | none =>
      have hput : s.cache.put s.now key value = TtlCache.stored
          { s.cache with bytes := s.cache.bytes + (TtlCache.newEntry s.now key value).weight } key
          (TtlCache.newEntry s.now key value) := by
        simp [TtlCache.put, TtlCache.stored, TtlCache.newEntry, hold]
      rw [hput]
      exact hcharged.finish (.storeNew _ hold)
  | some old =>
      have hput : s.cache.put s.now key value = { TtlCache.stored
          { s.cache with bytes := s.cache.bytes + (TtlCache.newEntry s.now key value).weight } key
          (TtlCache.newEntry s.now key value) with
            bytes := s.cache.bytes + (TtlCache.newEntry s.now key value).weight - old.weight } := by
        simp [TtlCache.put, TtlCache.stored, TtlCache.newEntry, hold]
      rw [hput]
      exact (hcharged.goOn (.overwrite _ hold)).finish (.refund old.weight)

/-- A look-up that is not interrupted is that of the cache. -/
theorem reach_get (s : SharedCache α) (key : String) :
    Reach s [.answered (s.cache.get s.now key).1] { s with cache := (s.cache.get s.now key).2 } := by
  have hbegun : Reach s [] { s with calls := .read key :: s.calls } := Reach.refl.move (.get s key)
  cases hkey : s.cache.entry? key with
  | none =>
      simp only [TtlCache.get, hkey]
      exact ((hbegun.goOn (.readNone hkey)).goOn .miss).finish (.answer none)
  | some e =>
      cases hlive : s.cache.live s.now e with
      | true =>
          simp only [TtlCache.get, hkey, hlive, if_true]
          exact ((hbegun.goOn (.readLive hkey hlive)).goOn (.hit _)).finish (.answer _)
      | false =>
          simp only [TtlCache.get, hkey, hlive, Bool.false_eq_true, if_false]
          have hevicted := (hbegun.goOn (.readExpired hkey hlive)).goOn (.evict hkey hlive)
          exact ((hevicted.goOn (.release _)).goOn .miss).finish (.answer none)

/-- A purge can meet all entries in their order, and removes those that have expired. -/
theorem Reach.sweepAll {start : SharedCache α} {log : List (CacheEvent α)} {c : TtlCache α} {now : Nat}
    {rest : List (CacheCall α)} (back : List (String × CacheEntry α)) :
    ∀ (front : List (String × CacheEntry α)) {removed freed : Nat},
      ((front ++ back).map Prod.fst).Nodup →
      Reach start log ⟨{ c with entries := front ++ back }, now, .sweep removed freed :: rest⟩ →
      Reach start log ⟨{ c with entries := front ++ back.filter fun e => c.live now e.2 }, now,
        .sweep (removed + (back.filter fun e => !c.live now e.2).length)
          (freed + (back.filter fun e => !c.live now e.2).foldr (fun e total => e.2.weight + total) 0) ::
            rest⟩ := by
  induction back with
  | nil => exact fun _ _ _ _ h => h
  | cons e back ih =>
      intro front removed freed hdistinct h
      cases hlive : c.live now e.2 with
      | true =>
          have hassoc : front ++ e :: back = (front ++ [e]) ++ back := by simp
          rw [hassoc] at hdistinct h
          have hall := ih _ hdistinct h
          have hkept : (e :: back).filter (fun e => c.live now e.2) =
              e :: back.filter fun e => c.live now e.2 := List.filter_cons_of_pos hlive
          have hdead : (e :: back).filter (fun e => !c.live now e.2) =
              back.filter fun e => !c.live now e.2 := List.filter_cons_of_neg (by simp [hlive])
          rw [hkept, hdead]
          rwa [List.append_assoc] at hall
      | false =>
          have hkey : TtlCache.entry? { c with entries := front ++ e :: back } e.1 = some e.2 := by
            rw [TtlCache.entry?, TtlCache.find?_between hdistinct]
            rfl
          have hnext := h.goOn (.sweep removed freed hkey hlive)
          rw [TtlCache.removed, TtlCache.without_between hdistinct, List.append_nil] at hnext
          have hall := ih _ (hdistinct.sublist (by simp)) hnext
          have hkept : (e :: back).filter (fun e => c.live now e.2) =
              back.filter fun e => c.live now e.2 := List.filter_cons_of_neg (by simp [hlive])
          have hdead : (e :: back).filter (fun e => !c.live now e.2) =
              e :: back.filter fun e => !c.live now e.2 := List.filter_cons_of_pos (by simp [hlive])
          rw [hkept, hdead, List.length_cons, List.foldr_cons, ← Nat.add_assoc freed, Nat.add_comm _ 1,
            ← Nat.add_assoc removed]
          exact hall

/-- A purge that is not interrupted is that of the cache. -/
theorem reach_purge (s : SharedCache α) (h : s.cache.Distinct) :
    Reach s [.purged (s.cache.purge s.now).1] { s with cache := (s.cache.purge s.now).2 } := by
  have hbegun : Reach s [] { s with calls := .sweep 0 0 :: s.calls } := Reach.refl.move (.purge s)
  have hswept := Reach.sweepAll s.cache.entries [] h hbegun
  rw [Nat.zero_add, Nat.zero_add] at hswept
  exact (hswept.goOn (.swept _ _)).finish (.settle _ _)

end SharedCache

end MetricFanout
