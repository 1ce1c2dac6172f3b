import MetricFanout.Proofs.Cache.Atoms
import MetricFanout.Proofs.Cache.Settle
/-!
# Sweepers bound the age of entries

While a sweeper runs, no entry is stored for much longer than it is live: whatever had expired at one of the times
at which the sweeper is due is gone once this work has been done. A stop signal ends all that; from then on entries
leave a cache by look-ups, by purges and by being overwritten, and in no other way.

## Implementation notes

The clock may move over several of these times at once, and then the sweeper purges at the time that the clock has
reached, which is later. So the invariant speaks of the last time at which the sweeper was due and not of the time
at which it last purged. What is put at that very time is put when the work is done: it was not there to be swept.
-/

namespace MetricFanout

variable {α : Type}

namespace Sweeper

/-- The last time up to now at which a sweeper with a given start was due; the start itself, if there was none. -/
def lastDue (start interval now : Nat) : Nat := start + (now - start) / interval * interval

variable {start interval now later : Nat}

theorem lastDue_le (interval : Nat) (h : start ≤ now) : lastDue start interval now ≤ now := by
  have hdiv := Nat.div_mul_le_self (now - start) interval
  rw [lastDue]
  omega

theorem lt_lastDue_add (h : start ≤ now) (hinterval : 0 < interval) :
    now < lastDue start interval now + interval := by
  have hdiv := Nat.lt_mul_div_succ (now - start) hinterval
  rw [Nat.mul_comm, Nat.add_one_mul] at hdiv
  rw [lastDue]
  omega

/-- Every time at which the sweeper was due is the last one or before it. -/
theorem le_lastDue (hinterval : 0 < interval) {k : Nat} (hk : start + k * interval ≤ now) :
    start + k * interval ≤ lastDue start interval now := by
  have hle : k ≤ (now - start) / interval := (Nat.le_div_iff_mul_le hinterval).2 (by omega)
  exact Nat.add_le_add_left (Nat.mul_le_mul_right interval hle) start

/-- Until the sweeper is due again the last time stays the last. -/
theorem lastDue_of_lt (h : start ≤ now) (hlater : now ≤ later)
    (hdue : later < lastDue start interval now + interval) :
    lastDue start interval later = lastDue start interval now := by
  have hle := lastDue_le interval h
  have hsame : (later - start) / interval = (now - start) / interval := by
    refine Nat.div_eq_of_lt_le ?_ ?_
    · rw [lastDue] at hle
      omega
    · rw [lastDue] at hdue
      rw [Nat.add_one_mul]
      omega
  rw [lastDue, hsame, lastDue]

/-- A sweeper that is caught up is due an interval after the last time. -/
theorem caughtUp_lastDue (h : start ≤ now) (hlater : now ≤ later) (hinterval : 0 < interval) :
    (Sweeper.mk interval (lastDue start interval now + interval)).caughtUp later =
      ⟨interval, lastDue start interval later + interval⟩ := by
  by_cases hdue : later < lastDue start interval now + interval
  · rw [caughtUp_of_lt hdue, lastDue_of_lt h hlater hdue]
  · -- the sweeps that are made up for are the whole intervals between the two times
    have hsub : later - (lastDue start interval now + interval) =
        later - start - interval * ((now - start) / interval + 1) := by
      rw [lastDue, Nat.mul_comm interval, Nat.add_one_mul]
      omega
    have hle : (now - start) / interval + 1 ≤ (later - start) / interval := by
      refine (Nat.le_div_iff_mul_le hinterval).2 ?_
      rw [lastDue] at hdue
      rw [Nat.add_one_mul]
      omega
    have hcount : overdue ⟨interval, lastDue start interval now + interval⟩ later =
        (later - start) / interval - (now - start) / interval := by
      rw [overdue, if_neg hdue, hsub, Nat.sub_mul_div]
      omega
    have hsum : lastDue start interval now +
        ((later - start) / interval - (now - start) / interval) * interval =
          lastDue start interval later := by
      have hmul := Nat.mul_le_mul_right interval (Nat.le_of_succ_le hle)
      rw [lastDue, lastDue, Nat.sub_mul]
      omega
    rw [caughtUp, hcount, ← hsum]
    simp only [Sweeper.mk.injEq, true_and]
    omega

end Sweeper

namespace SweptCache

variable [Weigh α] {s : SweptCache α}

/-! ## What a step does to entries -/

theorem apply_ttl (s : SweptCache α) (t : Step α) : (s.apply t).2.cache.ttl = s.cache.ttl := by
  cases t with
  | get key => exact s.cache.get_ttl s.now key
  | put | purge | advance | sweep | stop => rfl

theorem apply_now (s : SweptCache α) (t : Step α) : (s.apply t).2.now = s.now + t.span := by
  cases t <;> rfl

@[simp] theorem step_ttl (s : SweptCache α) (t : Step α) : (s.step t).2.cache.ttl = s.cache.ttl :=
  settle_induction (P := fun c => c.ttl = s.cache.ttl) (s.apply_ttl t) (s.apply_ttl t)

@[simp] theorem step_now (s : SweptCache α) (t : Step α) : (s.step t).2.now = s.now + t.span :=
  (settle_now _).trans (s.apply_now t)

/-- What is stored after a step was stored before, or has been put in no time. -/
theorem mem_apply {t : Step α} {e : String × CacheEntry α} (he : e ∈ (s.apply t).2.cache.entries) :
    e ∈ s.cache.entries ∨ (e.2.putAt = s.now ∧ t.span = 0) := by
  cases t with
  | get key =>
      rcases s.cache.get_entries s.now key with hsame | ⟨hwithout, _⟩
      · exact .inl (hsame ▸ he)
      · exact .inl (List.mem_filter.1 (hwithout ▸ he : e ∈ TtlCache.without key s.cache.entries)).1
  | put key value =>
      rcases List.mem_append.1 he with he | he
      · exact .inl (List.mem_filter.1 he).1
      · rw [List.mem_singleton.1 he]
        exact .inr ⟨rfl, rfl⟩
  | purge => exact .inl (List.mem_filter.1 he).1
  | advance | sweep | stop => exact .inl he

/-- Sweepers run until a stop signal. -/
theorem mem_apply_sweepers {t : Step α} (ht : t ≠ .stop) {w : Sweeper} (hw : w ∈ s.sweepers) :
    w ∈ (s.apply t).2.sweepers := by
  cases t with
  | sweep interval => exact List.mem_append_left _ hw
  | stop => exact absurd rfl ht
  | get | put | purge | advance => exact hw

/-- What leaves a cache before due work is done has expired and is looked up or purged, or it is overwritten. -/
theorem apply_cases (hdistinct : s.cache.Distinct) (t : Step α) {e : String × CacheEntry α}
    (he : e ∈ s.cache.entries) :
    e ∈ (s.apply t).2.cache.entries ∨ ((t = .get e.1 ∨ t = .purge) ∧ s.cache.ttl ≤ s.now - e.2.putAt) ∨
      ∃ v, t = .put e.1 v := by
  have hkept : ∀ {key : String}, e.1 ≠ key → e ∈ TtlCache.without key s.cache.entries :=
    fun hkey => List.mem_filter.2 ⟨he, bne_iff_ne.2 hkey⟩
  cases t with
  | get key =>
      rcases s.cache.get_entries s.now key with hsame | ⟨hwithout, old, hold, hexpired⟩
      · exact .inl (hsame.symm ▸ he : e ∈ (s.cache.get s.now key).2.entries)
      · by_cases hkey : e.1 = key
        · subst hkey
          obtain ⟨front, back, hsplit⟩ := List.append_of_mem he
          rw [TtlCache.Distinct, hsplit] at hdistinct
          rw [TtlCache.entry?, hsplit, TtlCache.find?_between hdistinct] at hold
          cases hold
          exact .inr (.inl ⟨.inl rfl, by simpa [TtlCache.live] using hexpired⟩)
        · exact .inl (hwithout.symm ▸ hkept hkey : e ∈ (s.cache.get s.now key).2.entries)
  | put key value =>
      by_cases hkey : e.1 = key
      · exact .inr (.inr ⟨value, by rw [hkey]⟩)
      · exact .inl (List.mem_append_left _ (hkept hkey))
  | purge =>
      by_cases hlive : s.now - e.2.putAt < s.cache.ttl
      · exact .inl (TtlCache.mem_purge.2 ⟨he, hlive⟩)
      · exact .inr (.inl ⟨.inr rfl, Nat.le_of_not_lt hlive⟩)
  | advance | sweep | stop => exact .inl he

/-! ## While a sweeper runs -/

/-- A sweeper that started at a time runs, and what had expired when it was last due is gone. -/
structure SweptSince (start interval : Nat) (s : SweptCache α) : Prop where
  begun : start ≤ s.now
  running : ⟨interval, Sweeper.lastDue start interval s.now + interval⟩ ∈ s.sweepers
  swept : start + interval ≤ s.now → ∀ e ∈ s.cache.entries,
    Sweeper.lastDue start interval s.now < e.2.putAt + s.cache.ttl ∨
      Sweeper.lastDue start interval s.now ≤ e.2.putAt

variable {start interval : Nat}

/-- A sweeper that waits behind what a step does, caught up, is there behind the step. -/
theorem mem_step_sweepers {t : Step α} {w : Sweeper} (hw : w ∈ (s.apply t).2.sweepers) :
    w.caughtUp (s.step t).2.now ∈ (s.step t).2.sweepers := by
  rw [step, settle_sweepers, settle_now]
  exact List.mem_map_of_mem hw

/-- A sweeper starts. -/
theorem sweptSince_step_sweep (s : SweptCache α) (hinterval : 0 < interval) :
    SweptSince s.now interval (s.step (.sweep interval)).2 := by
  have hnow : (s.step (.sweep interval)).2.now = s.now := step_now s _
  refine ⟨Nat.le_of_eq hnow.symm, ?_, fun hpast => ?_⟩
  · have hstart : Sweeper.start? s.now interval = some ⟨interval, s.now + interval⟩ :=
      if_neg (Nat.ne_of_gt hinterval)
    have hmem : ⟨interval, s.now + interval⟩ ∈ (s.apply (.sweep interval)).2.sweepers :=
      List.mem_append_right _ (by simp [hstart])
    have hlast : Sweeper.lastDue s.now interval s.now = s.now := by simp [Sweeper.lastDue]
    have hwait := mem_step_sweepers hmem
    rw [hnow, Sweeper.caughtUp_of_lt (Nat.lt_add_of_pos_right hinterval)] at hwait
    rwa [hnow, hlast]
  · rw [hnow] at hpast
    omega

/-- Every step but a stop signal leaves the sweeper running, and its work done. -/
theorem SweptSince.step (h : SweptSince start interval s) (hinterval : 0 < interval) {t : Step α}
    (ht : t ≠ .stop) : SweptSince start interval (s.step t).2 := by
  have hnow : (s.step t).2.now = s.now + t.span := step_now s t
  have hlater : s.now ≤ (s.step t).2.now := hnow ▸ Nat.le_add_right _ _
  have hwaits := mem_apply_sweepers ht h.running
  refine ⟨Nat.le_trans h.begun hlater, ?_, fun hpast e he => ?_⟩
  · have hwait := mem_step_sweepers hwaits
    rwa [Sweeper.caughtUp_lastDue h.begun hlater hinterval] at hwait
  · obtain ⟨hstored, hlive⟩ := mem_settle (s := (s.apply t).2) he
    have hlast := Sweeper.lastDue_le interval (Nat.le_trans h.begun hlater)
    by_cases hdue : (s.step t).2.now < Sweeper.lastDue start interval s.now + interval
    · -- the sweeper is not due again, so its last time is that of before
      have honce : start + 1 * interval ≤ (s.step t).2.now := by omega
      have hfirst := Sweeper.le_lastDue hinterval honce
      have hle := Sweeper.lastDue_le interval h.begun
      rw [Sweeper.lastDue_of_lt h.begun hlater hdue] at hfirst ⊢
      rw [step_ttl]
      rcases mem_apply hstored with hold | ⟨hput, _⟩
      · exact h.swept (by omega) e hold
      · exact .inr (hput ▸ hle)
    · have hwork : (s.apply t).2.isDue = true := by
        refine List.any_eq_true.2 ⟨_, hwaits, bne_iff_ne.2 ?_⟩
        rw [apply_now, ← hnow, Sweeper.overdue, if_neg hdue]
        exact Nat.succ_ne_zero _
      have hyoung := hlive hwork
      rw [apply_now, apply_ttl, ← hnow] at hyoung
      rw [step_ttl]
      omega

theorem SweptSince.run (h : SweptSince start interval s) (hinterval : 0 < interval) {steps : List (Step α)}
    (hrunning : .stop ∉ steps) : SweptSince start interval (s.run steps) := by
  refine run_induction h fun s t ht hs => hs.step hinterval ?_
  rintro rfl
  exact hrunning ht

omit [Weigh α] in
/-- What is stored was young enough when the sweeper was due, or has been put since. -/
theorem SweptSince.young_of_due (h : SweptSince start interval s) (hinterval : 0 < interval) {k : Nat}
    (hk : 0 < k) (hdue : start + k * interval ≤ s.now) {e : String × CacheEntry α}
    (he : e ∈ s.cache.entries) :
    start + k * interval < e.2.putAt + s.cache.ttl ∨ start + k * interval ≤ e.2.putAt := by
  have hmul := Nat.mul_le_mul_right interval (Nat.succ_le_of_lt hk)
  have hlast := Sweeper.le_lastDue hinterval hdue
  have hswept := h.swept (by omega) e he
  omega

omit [Weigh α] in
/-- What is stored is not older than its life time by a whole interval. -/
theorem SweptSince.young (h : SweptSince start interval s) (hinterval : 0 < interval)
    (hpast : start + interval ≤ s.now) {e : String × CacheEntry α} (he : e ∈ s.cache.entries) :
    s.now < e.2.putAt + s.cache.ttl + interval := by
  have hlast := Sweeper.lt_lastDue_add h.begun hinterval
  have hswept := h.swept hpast e he
  omega

/-! ## After a stop signal -/

/-- Without sweepers there is no due work, and there will be none unless a sweeper starts. -/
theorem step_of_no_sweepers (h : s.sweepers = []) {t : Step α} (ht : ∀ i, t ≠ .sweep i) :
    s.step t = s.apply t ∧ (s.step t).2.sweepers = [] := by
  have hnone : (s.apply t).2.sweepers = [] := by
    cases t with
    | sweep interval => exact absurd rfl (ht interval)
    | stop => rfl
    | get | put | purge | advance => exact h
  have hstep : s.step t = s.apply t := congrArg (Prod.mk _) (settle_of_no_sweepers hnone)
  exact ⟨hstep, hstep ▸ hnone⟩

theorem run_of_no_sweepers (h : s.sweepers = []) {steps : List (Step α)} (hsteps : ∀ i, .sweep i ∉ steps) :
    (s.run steps).sweepers = [] := by
  refine run_induction (P := fun s => s.sweepers = []) h fun s t ht hs => (step_of_no_sweepers hs ?_).2
  rintro i rfl
  exact hsteps i ht

/-- **A sweeper bounds the age of entries.** Let a sweeper start behind any steps, and let any steps but a stop
signal follow. From the first time on at which the sweeper is due: no stored entry is older than its life time by
an interval or more, and whatever had expired at one of the times at which the sweeper has been due is gone, so
that what is stored was younger then or has been put since. A stop signal removes nothing, and behind it, as long
as no other sweeper starts, a step does only its own work: an entry leaves when it is looked up or purged and has
expired, or when it is overwritten. -/
theorem sweeper_bounds_age (name : String) (ttl origin : Nat) (before during : List (Step α))
    (hinterval : 0 < interval) (hrunning : .stop ∉ during) :
    let begun := (fresh name ttl origin).run before
    let s := (begun.step (.sweep interval)).2.run during
    (begun.now + interval ≤ s.now → ∀ e ∈ s.cache.entries, s.now < e.2.putAt + ttl + interval) ∧
    (∀ k, 0 < k → begun.now + k * interval ≤ s.now → ∀ e ∈ s.cache.entries,
      begun.now + k * interval < e.2.putAt + ttl ∨ begun.now + k * interval ≤ e.2.putAt) ∧
    (s.step .stop).2.cache = s.cache ∧
    ∀ after : List (Step α), (∀ i, .sweep i ∉ after) →
      let ended := (s.step .stop).2.run after
      ∀ t : Step α, (∀ i, t ≠ .sweep i) → ended.step t = ended.apply t ∧
        ∀ e ∈ ended.cache.entries, e ∈ (ended.step t).2.cache.entries ∨
          ((t = .get e.1 ∨ t = .purge) ∧ ttl ≤ ended.now - e.2.putAt) ∨ ∃ v, t = .put e.1 v := by
  intro begun s
  have hswept : SweptSince begun.now interval s := (sweptSince_step_sweep begun hinterval).run hinterval hrunning
  have hmap := ((Refines.fresh name ttl origin).run before).step (.sweep interval) |>.run during
  have httl : s.cache.ttl = ttl := by
    rw [hmap.ttl, StampedMap.run_ttl, StampedMap.step_ttl, StampedMap.run_ttl]
  refine ⟨fun hpast e he => ?_, fun k hk hdue e he => ?_, rfl, fun after hafter => ?_⟩
  · exact httl ▸ hswept.young hinterval hpast he
  · exact httl ▸ hswept.young_of_due hinterval hk hdue he
  · intro ended t ht
    have hended := (hmap.step .stop).run after
    have hnone : ended.sweepers = [] := run_of_no_sweepers rfl hafter
    have hstep := (step_of_no_sweepers hnone ht).1
    have hsame : ended.cache.ttl = ttl := by
      rw [hended.ttl, StampedMap.run_ttl, StampedMap.step_ttl, ← hmap.ttl, httl]
    refine ⟨hstep, fun e he => ?_⟩
    rw [hstep, ← hsame]
    exact apply_cases hended.distinct t he

/-- Two sweeps are made up for, and then something is put and expires. -/
def madeUp : List (Step String) := [.advance 45, .put "b" "y", .advance 14]

theorem sweeper_bounds_age_madeUp :
    let s := (((fresh "c" 10 0).run [.put "a" "x"]).step (.sweep 20)).2.run madeUp
    0 < 20 ∧ .stop ∉ madeUp ∧ s.cache.entries = [("b", ⟨"y", 45, 2⟩)] ∧ s.now = 59 ∧
    59 < 45 + 10 + 20 ∧ (0 + 2 * 20 < 45 + 10 ∨ 0 + 2 * 20 ≤ 45) ∧ (s.step .stop).2.cache = s.cache ∧
    ("b", ⟨"y", 45, 2⟩) ∈ (((s.step .stop).2.run [.advance 100]).step (.put "d" "z")).2.cache.entries := by
  have hrunning : .stop ∉ madeUp := by simp [madeUp]
  obtain ⟨hyoung, hdue, hstop, hended⟩ :=
    sweeper_bounds_age "c" 10 0 [.put "a" "x"] madeUp (by decide : 0 < 20) hrunning
  have hb := List.mem_singleton_self (α := String × CacheEntry String) ("b", ⟨"y", 45, 2⟩)
  obtain ⟨_, hleaves⟩ := hended [.advance 100] (by simp) (.put "d" "z") (by simp)
  refine ⟨by decide, hrunning, rfl, rfl, hyoung (by decide) _ hb, hdue 2 (by decide) (by decide) _ hb, hstop, ?_⟩
  rcases hleaves _ hb with hstays | ⟨hother | hother, _⟩ | ⟨_, hother⟩
  · exact hstays
  · cases hother
  · cases hother
  · simp at hother

end SweptCache

end MetricFanout
