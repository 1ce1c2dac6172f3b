import Mathlib.Data.Finset.Card
import MetricFanout.Proofs.Cache.Interleaving
import MetricFanout.Proofs.Cache.Settle
/-!
# The account of a cache

A cache adds and subtracts weights as entries come and go: by puts, by look-ups that meet an expired entry, and by
purges, those of sweepers included. The account is exact between any two steps: it is the sum of what the stored
entries take, so it never has to be cut off at zero.

The weight that is subtracted for an entry is the one that was counted when it was put, and this is what its key
and its value take. Each key has one entry at most, so the weight of the entry of a key is all that goes with it.
-/

namespace MetricFanout

variable {α : Type} [Weigh α]

namespace TtlCache

/-- The bytes that an entry takes: those of its key, and the weight of its value. -/
def bytesOf (e : String × CacheEntry α) : Nat := e.1.utf8ByteSize + Weigh.weight e.2.value

/-- Every entry has the weight of its key and value, and the account is the sum of these weights. -/
structure Balanced (c : TtlCache α) : Prop where
  distinct : c.Distinct
  weighed : ∀ e ∈ c.entries, e.2.weight = bytesOf e
  bytes : c.bytes = c.weight

variable {c : TtlCache α}

theorem Balanced.weight_eq (h : c.Balanced) : c.weight = (c.entries.map bytesOf).sum :=
  congrArg List.sum (List.map_congr_left h.weighed)

omit [Weigh α] in
/-- Entries of two kinds take together what all of them take. -/
theorem weightOf_filter_add (p : String × CacheEntry α → Bool) (entries : List (String × CacheEntry α)) :
    weightOf (entries.filter p) + (entries.filter fun e => !p e).foldr (fun e total => e.2.weight + total) 0 =
      weightOf entries := by
  induction entries with
  | nil => rfl
  | cons e rest ih =>
      cases hp : p e with
      | true =>
          simp only [weightOf, hp, List.filter_cons_of_pos, List.map_cons, List.sum_cons] at ih ⊢
          rw [List.filter_cons_of_neg (by simp [hp])]
          omega
      | false =>
          rw [List.filter_cons_of_neg (by simp [hp]), List.filter_cons_of_pos (by simp [hp])]
          simp only [weightOf, List.map_cons, List.sum_cons, List.foldr_cons] at ih ⊢
          omega

theorem Balanced.get (h : c.Balanced) (now : Nat) (key : String) : (c.get now key).2.Balanced where
  distinct := distinct_get h.distinct now key
  weighed e he := by
    rcases c.get_entries now key with hsame | ⟨hwithout, _⟩
    · exact h.weighed e (hsame ▸ he)
    · exact h.weighed e (List.mem_filter.1 (hwithout ▸ he : e ∈ without key c.entries)).1
  bytes := by
    unfold TtlCache.get
    split
    · rename_i e hkey
      split
      · exact h.bytes
      · have hweight := weight_removed h.distinct hkey
        have hbytes := h.bytes
        simp only [weight, removed] at hweight hbytes ⊢
        omega
    · exact h.bytes

theorem Balanced.put (h : c.Balanced) (now : Nat) (key : String) (value : α) : (c.put now key value).Balanced where
  distinct := distinct_put h.distinct now key value
  weighed e he := by
    rcases List.mem_append.1 he with he | he
    · exact h.weighed e (List.mem_filter.1 he).1
    · rw [List.mem_singleton.1 he]
      rfl
  bytes := by
    have hweight := weight_stored h.distinct key (newEntry now key value)
    have hbytes := h.bytes
    simp only [weight, stored, newEntry] at hweight hbytes
    simp only [TtlCache.put, weight]
    omega

theorem Balanced.purge (h : c.Balanced) (now : Nat) : (c.purge now).2.Balanced where
  distinct := distinct_purge h.distinct now
  weighed e he := h.weighed e (List.mem_filter.1 he).1
  bytes := by
    have hweight := weightOf_filter_add (fun e => c.live now e.2) c.entries
    have hbytes := h.bytes
    simp only [TtlCache.purge, weight] at hweight hbytes ⊢
    omega

/-- A balanced cache without entries takes no bytes. -/
theorem Balanced.size_eq_zero (h : c.Balanced) (hnone : c.count = 0) : c.size = 0 := by
  have hnil : c.entries = [] := List.length_eq_zero_iff.1 hnone
  rw [size, h.bytes, weight, hnil]
  rfl

omit [Weigh α] in
/-- A look-up is a hit or a miss. -/
theorem lookups_get (c : TtlCache α) (now : Nat) (key : String) :
    (c.get now key).2.hits + (c.get now key).2.misses = c.hits + c.misses + 1 := by
  have hcounts := c.get_counts now key
  split at hcounts
  · obtain ⟨hhits, hmisses⟩ := Prod.mk.inj hcounts
    omega
  · obtain ⟨hhits, hmisses⟩ := Prod.mk.inj hcounts
    omega

end TtlCache

namespace SweptCache

variable {s : SweptCache α}

/-- A look-up. -/
def Step.isGet : Step α → Bool
  | .get _ => true
  | _ => false

/-- A step keeps the account. -/
theorem balanced_step (h : s.cache.Balanced) (t : Step α) : (s.step t).2.cache.Balanced := by
  have happly : (s.apply t).2.cache.Balanced := by
    cases t with
    | get key => exact h.get s.now key
    | put key value => exact h.put s.now key value
    | purge => exact h.purge s.now
    | advance | sweep | stop => exact h
  exact settle_induction happly (happly.purge _)

theorem balanced_run (h : s.cache.Balanced) (steps : List (Step α)) : (s.run steps).cache.Balanced :=
  run_induction (P := fun s => s.cache.Balanced) h fun _ t _ hs => balanced_step hs t

/-- A step counts a look-up, and nothing else. -/
theorem lookups_step (s : SweptCache α) (t : Step α) :
    (s.step t).2.cache.hits + (s.step t).2.cache.misses =
      s.cache.hits + s.cache.misses + if t.isGet then 1 else 0 := by
  have happly : (s.apply t).2.cache.hits + (s.apply t).2.cache.misses =
      s.cache.hits + s.cache.misses + if t.isGet then 1 else 0 := by
    cases t with
    | get key => exact s.cache.lookups_get s.now key
    | put | purge | advance | sweep | stop => rfl
  exact settle_induction (P := fun c => c.hits + c.misses = _) happly happly

theorem lookups_run (s : SweptCache α) (steps : List (Step α)) :
    (s.run steps).cache.hits + (s.run steps).cache.misses =
      s.cache.hits + s.cache.misses + steps.countP Step.isGet := by
  induction steps generalizing s with
  | nil => rfl
  | cons t rest ih =>
      rw [List.countP_cons]
      have hrest := ih (s.step t).2
      rw [lookups_step] at hrest
      exact hrest.trans (by omega)

/-- Behind a purge no work is due that would change the cache. -/
theorem step_purge (s : SweptCache α) : (s.step .purge).2.cache = (s.cache.purge s.now).2 :=
  settle_induction (P := fun c => c = (s.cache.purge s.now).2) rfl (s.cache.purge_purge s.now)

/-- The account of a cache that was started empty with a life time and then took steps. -/
structure Exact (ttl : Nat) (steps : List (Step α)) (s : SweptCache α) : Prop where
  /-- The counter of bytes is the sum of what keys and values of the stored entries take. -/
  bytes : s.cache.bytes = (s.cache.entries.map TtlCache.bytesOf).sum
  size : s.cache.size = (s.cache.entries.map TtlCache.bytesOf).sum
  items : s.cache.count = (s.cache.entries.map Prod.fst).toFinset.card
  lookups : s.cache.hits + s.cache.misses = steps.countP Step.isGet
  /-- A purge answers how many entries have an age that has reached the life time. -/
  purged : (s.step .purge).1 = .count (s.cache.entries.countP fun e => ttl ≤ s.now - e.2.putAt)
  /-- A purge removes these entries and no others. -/
  kept : (s.step .purge).2.cache.entries = s.cache.entries.filter fun e => s.now - e.2.putAt < ttl
  empty : s.cache.count = 0 → s.cache.size = 0

/-- **The account of a cache is exact** after any steps: bytes and items are those of the stored entries, hits and
misses together are the look-ups, and a purge removes and counts what has expired. -/
theorem account_exact (name : String) (ttl start : Nat) (steps : List (Step α)) :
    ((fresh name ttl start).run steps).Exact ttl steps := by
  have hstart : (fresh name ttl start : SweptCache α).cache.Balanced :=
    ⟨List.nodup_nil, fun e he => absurd he List.not_mem_nil, rfl⟩
  have hlookups := lookups_run (fresh name ttl start) steps
  have httl : ((fresh name ttl start).run steps).cache.ttl = ttl :=
    ((Refines.fresh name ttl start).run steps).ttl.trans (StampedMap.run_ttl _ _)
  have hbalanced := balanced_run hstart steps
  generalize (fresh name ttl start).run steps = s at hlookups httl hbalanced
  have hbytes := hbalanced.bytes
  rw [hbalanced.weight_eq] at hbytes
  constructor
  case bytes => exact hbytes
  case size => rw [TtlCache.size, hbytes, Int.toNat_natCast]
  case items =>
    rw [List.toFinset_card_of_nodup hbalanced.distinct, List.length_map]
    rfl
  case lookups => exact hlookups.trans (Nat.zero_add _)
  case purged =>
    have hexpired : (fun e : String × CacheEntry α => !s.cache.live s.now e.2) =
        fun e => decide (ttl ≤ s.now - e.2.putAt) := by
      funext e
      rw [TtlCache.live, httl, ← decide_not]
      simp only [Nat.not_lt]
    have hpurged : (s.step .purge).1 = .count (s.cache.entries.filter fun e => !s.cache.live s.now e.2).length :=
      rfl
    rw [hpurged, hexpired, List.countP_eq_length_filter]
  case kept =>
    rw [step_purge, ← httl]
    rfl
  case empty => exact hbalanced.size_eq_zero

/-- Leaf lists: an entry is overwritten, and another one expires beside it. -/
def rewritten : List (Step (List String)) :=
  [.put "k" ["aaaa"], .advance 5, .put "k" ["bb", "c"], .put "old" [], .get "k", .advance 10, .put "k" ["d"]]

/-- Finds: one with a match and the backend that reported it. -/
def found : List (Step CachedFind) := [.put "a.*" ⟨[⟨"a.b", true⟩], ["h:1"]⟩, .advance 5]

theorem account_exact_kinds :
    ((fresh "search" 10 0).run rewritten).cache.size = ("k".utf8ByteSize + 1) + ("old".utf8ByteSize + 0) ∧
    (((fresh "search" 10 0).run rewritten).step .purge).1 = .count 1 ∧
    ((fresh "path" 10 0).run found).cache.size =
      "a.*".utf8ByteSize + ("a.b".utf8ByteSize + 1) + "h:1".utf8ByteSize := by
  have hleaves := account_exact "search" 10 0 rewritten
  have hfind := account_exact "path" 10 0 found
  exact ⟨hleaves.size.trans rfl, hleaves.purged.trans rfl, hfind.size.trans rfl⟩

end SweptCache

end MetricFanout
