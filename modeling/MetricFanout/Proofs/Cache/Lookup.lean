import MetricFanout.Cache.Ttl
/-!
# What a cache answers

A cache is known by what a look-up of a key at a time would answer. Looking up and purging do not change
what it answers from then on; putting changes it for one key.

Expired entries come and go unseen, so the laws are about times that are not past: an entry that has
expired stays expired.
-/

namespace MetricFanout.TtlCache

variable {α : Type}

/-- What a look-up of a key at a time would answer. -/
def peek (c : TtlCache α) (t : Nat) (key : String) : Option α :=
  (c.entry? key).bind fun e => if c.live t e then some e.value else none

/-- The keys of a cache are distinct. -/
def Distinct (c : TtlCache α) : Prop := (c.entries.map Prod.fst).Nodup

theorem live_of_le {c : TtlCache α} {now t : Nat} {e : CacheEntry α} (h : now ≤ t)
    (ht : c.live t e = true) : c.live now e = true := by
  simp only [live, decide_eq_true_eq] at ht ⊢
  omega

/-! ## Entries -/

theorem find?_without (key k : String) (entries : List (String × CacheEntry α)) :
    (without k entries).find? (fun e => e.1 == key) =
      if key = k then none else entries.find? fun e => e.1 == key := by
  induction entries with
  | nil => simp [without]
  | cons e rest ih =>
      simp only [without] at ih ⊢
      by_cases hk : e.1 = k
      · rw [List.filter_cons_of_neg (by simp [hk]), ih]
        by_cases hkey : key = k
        · simp [hkey]
        · have hne : ¬ e.1 = key := fun heq => hkey (heq.symm.trans hk)
          simp [hkey, hne]
      · rw [List.filter_cons_of_pos (by simp [hk])]
        by_cases hkey : e.1 = key
        · have hne : key ≠ k := fun heq => hk (hkey.trans heq)
          simp [hkey, hne]
        · simp [hkey, ih]

/-- An entry in place of that of its key is found under this key. -/
theorem find?_without_append (key k : String) (e : CacheEntry α) (entries : List (String × CacheEntry α)) :
    (without k entries ++ [(k, e)]).find? (fun f => f.1 == key) =
      if key = k then some (k, e) else entries.find? fun f => f.1 == key := by
  rw [List.find?_append, find?_without]
  by_cases hkey : key = k
  · simp [hkey]
  · have hne : ¬ k = key := fun heq => hkey heq.symm
    simp [hkey, hne]

theorem find?_filter {entries : List (String × CacheEntry α)} (q : CacheEntry α → Bool)
    (h : (entries.map Prod.fst).Nodup) (key : String) :
    ((entries.filter fun e => q e.2).find? fun e => e.1 == key) =
      (entries.find? fun e => e.1 == key).filter fun e => q e.2 := by
  induction entries with
  | nil => rfl
  | cons e rest ih =>
      obtain ⟨hnot, hrest⟩ := List.nodup_cons.1 h
      have ih' := ih hrest
      by_cases hkey : e.1 = key
      · cases hq : q e.2 with
        | true => simp [Option.filter, hkey, hq]
        | false =>
            have hnone : rest.find? (fun e => e.1 == key) = none := by
              apply List.find?_eq_none.2
              intro d hd heq
              have hd' : d.1 = e.1 := (beq_iff_eq.1 heq).trans hkey.symm
              exact hnot (hd' ▸ List.mem_map_of_mem hd)
            rw [hnone] at ih'
            simpa [Option.filter, hkey, hq] using ih'
      · cases hq : q e.2 with
        | true => simpa [hkey, hq] using ih'
        | false => simpa [hkey, hq] using ih'

/-! ## Looking up -/

/-- A look-up answers what the cache is known by. -/
theorem get_eq_peek (c : TtlCache α) (now : Nat) (key : String) :
    (c.get now key).1 = c.peek now key := by
  unfold get peek
  cases c.entry? key with
  | none => rfl
  | some e => cases h : c.live now e <;> simp [h]

@[simp] theorem get_ttl (c : TtlCache α) (now : Nat) (key : String) :
    (c.get now key).2.ttl = c.ttl := by
  unfold get
  split
  · split <;> rfl
  · rfl

theorem get_entries (c : TtlCache α) (now : Nat) (key : String) :
    (c.get now key).2.entries = c.entries ∨
      ((c.get now key).2.entries = without key c.entries ∧
        ∃ e, c.entry? key = some e ∧ c.live now e = false) := by
  unfold get
  split
  · rename_i e he
    split
    · exact .inl rfl
    · rename_i hlive
      exact .inr ⟨rfl, e, he, by simpa using hlive⟩
  · exact .inl rfl

/-- A look-up does not change what the cache answers from then on. -/
theorem peek_get (c : TtlCache α) {now t : Nat} (h : now ≤ t) (k key : String) :
    (c.get now k).2.peek t key = c.peek t key := by
  have hlive : (c.get now k).2.live t = c.live t := by
    funext e
    simp only [live, get_ttl]
  rcases c.get_entries now k with he | ⟨he, e, hentry, hexpired⟩
  · simp only [peek, entry?, he, hlive]
  · simp only [peek, entry?, he, hlive, find?_without]
    by_cases hkey : key = k
    · have hdead : c.live t e = false := by
        apply Bool.eq_false_iff.2
        intro ht
        rw [live_of_le h ht] at hexpired
        cases hexpired
      have hsome : (c.entries.find? fun e => e.1 == key).map Prod.snd = some e := by
        rw [hkey]
        exact hentry
      rw [if_pos hkey, hsome]
      simp [hdead]
    · rw [if_neg hkey]

/-! ## Putting -/

@[simp] theorem put_ttl [Weigh α] (c : TtlCache α) (now : Nat) (k : String) (v : α) :
    (c.put now k v).ttl = c.ttl := rfl

/-- What is put is answered under its key until it expires; other keys stay as they are. -/
theorem peek_put [Weigh α] (c : TtlCache α) (now t : Nat) (k key : String) (v : α) :
    (c.put now k v).peek t key =
      if key = k then (if t - now < c.ttl then some v else none) else c.peek t key := by
  simp only [peek, entry?, put, find?_without_append]
  by_cases hkey : key = k
  · rw [if_pos hkey, if_pos hkey]
    simp [live]
  · rw [if_neg hkey, if_neg hkey]
    rfl

/-! ## Purging -/

/-- A purge does not change what the cache answers from then on. -/
theorem peek_purge {c : TtlCache α} (hc : c.Distinct) {now t : Nat} (h : now ≤ t) (key : String) :
    (c.purge now).2.peek t key = c.peek t key := by
  have hfind := find?_filter (c.live now) hc key
  simp only [peek, entry?, purge, hfind]
  cases c.entries.find? (fun e => e.1 == key) with
  | none => rfl
  | some e =>
      cases hnow : c.live now e.2 with
      | true =>
          simp only [Option.filter, hnow, if_true]
          rfl
      | false =>
          have hdead : c.live t e.2 = false := by
            apply Bool.eq_false_iff.2
            intro ht
            rw [live_of_le h ht] at hnow
            cases hnow
          simp [Option.filter, hnow, hdead]

/-! ## Distinct keys -/

theorem distinct_without {entries : List (String × CacheEntry α)} (h : (entries.map Prod.fst).Nodup)
    (k : String) : ((without k entries).map Prod.fst).Nodup :=
  h.sublist (List.filter_sublist.map _)

theorem distinct_get {c : TtlCache α} (h : c.Distinct) (now : Nat) (k : String) :
    (c.get now k).2.Distinct := by
  rcases c.get_entries now k with he | ⟨he, _⟩
  · rw [Distinct, he]
    exact h
  · rw [Distinct, he]
    exact distinct_without h k

/-- An entry in place of that of its key. -/
theorem distinct_without_append {entries : List (String × CacheEntry α)} (h : (entries.map Prod.fst).Nodup)
    (k : String) (e : CacheEntry α) : ((without k entries ++ [(k, e)]).map Prod.fst).Nodup := by
  simp only [List.map_append, List.map_cons, List.map_nil]
  refine List.nodup_append.2 ⟨distinct_without h k, List.pairwise_singleton _ _, ?_⟩
  intro a ha b hb hab
  obtain ⟨e, he, rfl⟩ := List.mem_map.1 ha
  have hne := (List.mem_filter.1 he).2
  rw [List.mem_singleton.1 hb] at hab
  simp [hab] at hne

theorem distinct_put [Weigh α] {c : TtlCache α} (h : c.Distinct) (now : Nat) (k : String) (v : α) :
    (c.put now k v).Distinct := distinct_without_append h k _

theorem distinct_purge {c : TtlCache α} (h : c.Distinct) (now : Nat) : (c.purge now).2.Distinct :=
  h.sublist (List.filter_sublist.map _)

/-! ## What is stored -/

/-- All stored values have a property. -/
def Holds (c : TtlCache α) (P : α → Prop) : Prop := ∀ e ∈ c.entries, P e.2.value

theorem holds_get {c : TtlCache α} {P : α → Prop} (h : c.Holds P) (now : Nat) (k : String) :
    (c.get now k).2.Holds P := by
  rcases c.get_entries now k with he | ⟨he, _⟩
  · rw [Holds, he]
    exact h
  · rw [Holds, he]
    exact fun e hmem => h e (List.mem_filter.1 hmem).1

theorem holds_put [Weigh α] {c : TtlCache α} {P : α → Prop} (h : c.Holds P) (now : Nat) (k : String)
    {v : α} (hv : P v) : (c.put now k v).Holds P := by
  intro e he
  rcases List.mem_append.1 he with he | he
  · exact h e (List.mem_filter.1 he).1
  · rw [List.mem_singleton.1 he]
    exact hv

theorem holds_purge {c : TtlCache α} {P : α → Prop} (h : c.Holds P) (now : Nat) :
    (c.purge now).2.Holds P :=
  fun e he => h e (List.mem_filter.1 he).1

theorem holds_peek {c : TtlCache α} {P : α → Prop} (h : c.Holds P) {t : Nat} {key : String} {v : α}
    (hv : c.peek t key = some v) : P v := by
  obtain ⟨e, he, hlive⟩ := Option.bind_eq_some_iff.1 hv
  obtain ⟨d, hd, rfl⟩ := Option.map_eq_some_iff.1 he
  split at hlive
  · rw [← Option.some.inj hlive]
    exact h d (List.mem_of_find?_eq_some hd)
  · cases hlive

end MetricFanout.TtlCache
