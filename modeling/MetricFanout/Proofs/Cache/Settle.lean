import MetricFanout.Proofs.Cache.Refinement
/-!
# Due work

Sweepers do the work that is due behind every step of a cache, one after the other. All this work happens at one
time, so it comes to a single purge, if anything is due at all; and then every sweeper has been caught up.

A second purge at the same time finds nothing, not even bytes to give back, so it leaves the very same cache.
-/

namespace MetricFanout

variable {α : Type}

namespace TtlCache

/-- What has been purged is purged again without any effect. -/
theorem purge_purge (c : TtlCache α) (now : Nat) :
    ((c.purge now).2.purge now).2 = (c.purge now).2 := by
  have hkept : (c.entries.filter fun e => c.live now e.2).filter (fun e => c.live now e.2) =
      c.entries.filter fun e => c.live now e.2 :=
    List.filter_eq_self.2 fun e he => (List.mem_filter.1 he).2
  have hdead : (c.entries.filter fun e => c.live now e.2).filter (fun e => !c.live now e.2) = [] :=
    List.filter_eq_nil_iff.2 fun e he => by simp [(List.mem_filter.1 he).2]
  have hlive : (c.purge now).2.live = c.live := rfl
  rw [purge, hlive]
  simp only [purge, hkept, hdead, List.foldr_nil, Int.natCast_zero, Int.sub_zero]

/-- What a purge leaves is younger than the life time. -/
theorem mem_purge {c : TtlCache α} {now : Nat} {e : String × CacheEntry α} :
    e ∈ (c.purge now).2.entries ↔ e ∈ c.entries ∧ now - e.2.putAt < c.ttl := by
  simp [purge, live]

end TtlCache

namespace Sweeper

/-- A sweeper whose time has not come stays as it is. -/
theorem caughtUp_of_lt {w : Sweeper} {now : Nat} (h : now < w.due) : w.caughtUp now = w := by
  simp [caughtUp, overdue, h]

end Sweeper

namespace SweptCache

/-- Whether a sweeper has work to do. -/
def isDue (s : SweptCache α) : Bool := s.sweepers.any fun w => w.overdue s.now != 0

/-- All due work is one purge. -/
theorem settle_eq (s : SweptCache α) :
    s.settle = { s with
      cache := if s.isDue then (s.cache.purge s.now).2 else s.cache
      sweepers := s.sweepers.map fun w => w.caughtUp s.now } := by
  suffices ∀ (ws done : List Sweeper) (c : TtlCache α),
      ws.foldl (fun s w => { s with
          cache := (w.run s.now s.cache).1
          sweepers := s.sweepers ++ [(w.run s.now s.cache).2] })
        { s with cache := c, sweepers := done } =
      { s with
        cache := if ws.any (fun w => w.overdue s.now != 0) then (c.purge s.now).2 else c
        sweepers := done ++ ws.map fun w => w.caughtUp s.now } from
    this s.sweepers [] s.cache
  intro ws
  induction ws with
  | nil => exact fun done c => by simp
  | cons w rest ih =>
      intro done c
      rw [List.foldl_cons]
      refine (ih _ _).trans ?_
      by_cases hnone : w.overdue s.now = 0
      · simp [Sweeper.run, hnone]
      · simp [Sweeper.run, hnone, TtlCache.purge_purge]

@[simp] theorem settle_now (s : SweptCache α) : s.settle.now = s.now := by rw [settle_eq]

@[simp] theorem settle_sweepers (s : SweptCache α) :
    s.settle.sweepers = s.sweepers.map fun w => w.caughtUp s.now := by rw [settle_eq]

/-- Without sweepers nothing is due. -/
theorem settle_of_no_sweepers {s : SweptCache α} (h : s.sweepers = []) : s.settle = s := by
  obtain ⟨cache, now, sweepers, swept⟩ := s
  obtain rfl : sweepers = [] := h
  rfl

/-- What holds of a cache and of the cache after a purge holds when due work has been done. -/
theorem settle_induction {P : TtlCache α → Prop} {s : SweptCache α} (h : P s.cache)
    (hpurge : P (s.cache.purge s.now).2) : P s.settle.cache := by
  rw [settle_eq]
  cases s.isDue with
  | true => exact hpurge
  | false => exact h

/-- What is stored when due work has been done was stored before, and is live if any work was due. -/
theorem mem_settle {s : SweptCache α} {e : String × CacheEntry α} (he : e ∈ s.settle.cache.entries) :
    e ∈ s.cache.entries ∧ (s.isDue = true → s.now - e.2.putAt < s.cache.ttl) := by
  rw [settle_eq] at he
  cases hdue : s.isDue with
  | true =>
      simp only [hdue, if_true] at he
      exact (TtlCache.mem_purge.1 he).imp_right fun hlive _ => hlive
  | false =>
      simp only [hdue, Bool.false_eq_true, if_false] at he
      exact ⟨he, fun h => by cases h⟩

/-- What each of some steps keeps, with the work that is due behind it, holds after all of them. -/
theorem run_induction [Weigh α] {P : SweptCache α → Prop} {s : SweptCache α} {steps : List (Step α)} (h : P s)
    (hstep : ∀ s, ∀ t ∈ steps, P s → P (s.step t).2) : P (s.run steps) := by
  induction steps generalizing s with
  | nil => exact h
  | cons t rest ih =>
      exact ih (hstep s t List.mem_cons_self h) fun s t ht => hstep s t (List.mem_cons_of_mem _ ht)

end SweptCache

end MetricFanout
