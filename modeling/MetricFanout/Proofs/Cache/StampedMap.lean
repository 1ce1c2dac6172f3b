import Mathlib.Data.List.Induction
import MetricFanout.Cache.Sweeper
import MetricFanout.Proofs.Cache.Lookup
/-!
# A cache is a map of time stamps

A cache loses entries in three ways: by look-ups, by purges and by sweepers. Nobody can tell: a cache
answers like a map that remembers what was put last under each key, and when, and loses nothing.

A cache and a map may differ in what they hold, but not in what they would answer at any time from now
on. A purge, also one of a sweeper, is no step of the map at all.
-/

namespace MetricFanout

variable {α : Type}

open SweptCache (Step Result)

/-! ## Steps -/

namespace SweptCache.Step

/-- The time that a step takes. -/
def span : Step α → Nat
  | .advance ms => ms
  | _ => 0

/-- The time that steps take. -/
def elapsed : List (Step α) → Nat
  | [] => 0
  | t :: rest => t.span + elapsed rest

/-- A step that look-ups depend on: a put, or time that passes. -/
def isWrite : Step α → Bool
  | .put _ _ | .advance _ => true
  | _ => false

/-- A step that only removes expired entries, or starts or stops what does so. -/
def isUpkeep : Step α → Bool
  | .purge | .sweep _ | .stop => true
  | _ => false

/-- The last put of a key in steps is that of `v`, less than `ttl` before their end. -/
def LastPut (ttl : Nat) (key : String) (v : α) (steps : List (Step α)) : Prop :=
  ∃ before after, steps = before ++ .put key v :: after ∧ (∀ w, .put key w ∉ after) ∧
    elapsed after < ttl

/-- Either a key is never put, or there is a last time. -/
theorem exists_last_put (steps : List (Step α)) (key : String) :
    (∀ w, .put key w ∉ steps) ∨
      ∃ before v after, steps = before ++ .put key v :: after ∧ ∀ w, .put key w ∉ after := by
  induction steps using List.reverseRecOn with
  | nil => exact .inl fun _ => List.not_mem_nil
  | append_singleton steps t ih =>
      by_cases ht : ∃ v, t = .put key v
      · obtain ⟨v, rfl⟩ := ht
        exact .inr ⟨steps, v, [], rfl, fun _ => List.not_mem_nil⟩
      · have hlast : ∀ w, .put key w ∉ [t] := fun w hw => ht ⟨w, (List.mem_singleton.1 hw).symm⟩
        have hsnoc : ∀ {after : List (Step α)}, (∀ w, .put key w ∉ after) →
            ∀ w, .put key w ∉ after ++ [t] :=
          fun hafter w hw => (List.mem_append.1 hw).elim (hafter w) (hlast w)
        rcases ih with hnone | ⟨before, v, after, rfl, hafter⟩
        · exact .inl (hsnoc hnone)
        · exact .inr ⟨before, v, after ++ [t], by simp, hsnoc hafter⟩

end SweptCache.Step

/-! ## The map -/

/-- A map that remembers for each key what was put last, and when. It counts look-ups as a cache does. -/
structure StampedMap (α : Type) where
  ttl : Nat
  now : Nat
  puts : String → Option (α × Nat) := fun _ => none
  hits : Nat := 0
  misses : Nat := 0

namespace StampedMap

/-- What was put last under a key, if it is young enough at a time. -/
def peek (m : StampedMap α) (t : Nat) (key : String) : Option α :=
  (m.puts key).bind fun p => if t - p.2 < m.ttl then some p.1 else none

/-- A step on a map. Upkeep does nothing. -/
def step (m : StampedMap α) : Step α → StampedMap α
  | .get key =>
      if (m.peek m.now key).isSome then { m with hits := m.hits + 1 }
      else { m with misses := m.misses + 1 }
  | .put key v => { m with puts := fun k => if k = key then some (v, m.now) else m.puts k }
  | .advance ms => { m with now := m.now + ms }
  | .purge | .sweep _ | .stop => m

/-- The map after steps. -/
def run (m : StampedMap α) (steps : List (Step α)) : StampedMap α := steps.foldl step m

/-- What a look-up answers now. -/
def answer (m : StampedMap α) (key : String) : Result α :=
  match m.peek m.now key with
  | some v => .value v
  | none => .nothing

/-- What the look-ups among steps answer, in order. -/
def answers (m : StampedMap α) : List (Step α) → List (Result α)
  | [] => []
  | .get key :: rest => m.answer key :: answers (m.step (.get key)) rest
  | t :: rest => answers (m.step t) rest

theorem answer_eq_value {m : StampedMap α} {key : String} {v : α} :
    m.answer key = .value v ↔ m.peek m.now key = some v := by
  unfold answer
  cases m.peek m.now key <;> simp

theorem answer_eq_nothing {m : StampedMap α} {key : String} :
    m.answer key = .nothing ↔ m.peek m.now key = none := by
  unfold answer
  cases m.peek m.now key <;> simp

@[simp] theorem step_ttl (m : StampedMap α) (t : Step α) : (m.step t).ttl = m.ttl := by
  cases t <;> simp only [step]
  split <;> rfl

@[simp] theorem step_now (m : StampedMap α) (t : Step α) : (m.step t).now = m.now + t.span := by
  cases t <;> simp only [step, Step.span, Nat.add_zero]
  split <;> rfl

theorem step_puts_of_ne {m : StampedMap α} {t : Step α} {key : String} (h : ∀ w, .put key w ≠ t) :
    (m.step t).puts key = m.puts key := by
  cases t with
  | put k v => exact if_neg fun hk => h v (by rw [hk])
  | get k =>
      simp only [step]
      split <;> rfl
  | _ => rfl

theorem run_ttl (m : StampedMap α) (steps : List (Step α)) : (m.run steps).ttl = m.ttl := by
  induction steps generalizing m with
  | nil => rfl
  | cons t rest ih => exact (ih (m.step t)).trans (m.step_ttl t)

theorem run_now (m : StampedMap α) (steps : List (Step α)) :
    (m.run steps).now = m.now + Step.elapsed steps := by
  induction steps generalizing m with
  | nil => rfl
  | cons t rest ih =>
      have hrest := ih (m.step t)
      rw [step_now, Nat.add_assoc] at hrest
      exact hrest

theorem run_puts_of_not_mem {m : StampedMap α} {steps : List (Step α)} {key : String}
    (h : ∀ w, .put key w ∉ steps) : (m.run steps).puts key = m.puts key := by
  induction steps generalizing m with
  | nil => rfl
  | cons t rest ih =>
      have hrest := ih (m := m.step t) fun w hw => h w (List.mem_cons_of_mem _ hw)
      exact hrest.trans (step_puts_of_ne fun w hw => h w (hw ▸ List.mem_cons_self))

/-- What is put is answered until it is too old, if it is not put again. -/
theorem peek_run_put (m : StampedMap α) (before : List (Step α)) (key : String) (v : α)
    {after : List (Step α)} (h : ∀ w, .put key w ∉ after) :
    (m.run (before ++ .put key v :: after)).peek (m.run (before ++ .put key v :: after)).now key =
      if Step.elapsed after < m.ttl then some v else none := by
  have hrun : m.run (before ++ .put key v :: after) = ((m.run before).step (.put key v)).run after := by
    simp only [run, List.foldl_append, List.foldl_cons]
  have hputs : (m.run (before ++ .put key v :: after)).puts key = some (v, (m.run before).now) := by
    rw [hrun, run_puts_of_not_mem h]
    exact if_pos rfl
  have hage : (m.run (before ++ .put key v :: after)).now - (m.run before).now =
      Step.elapsed after := by
    rw [hrun, run_now, step_now]
    exact Nat.add_sub_cancel_left _ _
  rw [peek, hputs, Option.bind_some, hage, run_ttl]

/-- A map without puts answers what was put last, while it is young enough. -/
theorem peek_run_eq_some_iff {m : StampedMap α} {key : String} (hm : m.puts key = none)
    {steps : List (Step α)} {v : α} :
    (m.run steps).peek (m.run steps).now key = some v ↔ Step.LastPut m.ttl key v steps := by
  constructor
  · intro h
    rcases Step.exists_last_put steps key with hnone | ⟨before, w, after, rfl, hafter⟩
    · rw [peek, run_puts_of_not_mem hnone, hm] at h
      cases h
    · rw [peek_run_put m before key w hafter] at h
      split at h
      · cases h
        exact ⟨before, after, rfl, hafter, ‹_›⟩
      · cases h
  · rintro ⟨before, after, rfl, hafter, hyoung⟩
    rw [peek_run_put m before key v hafter, if_pos hyoung]

/-! ## What a map does not depend on -/

/-- A map does not notice upkeep. -/
theorem step_of_isUpkeep (m : StampedMap α) {t : Step α} (h : t.isUpkeep = true) : m.step t = m := by
  cases t with
  | get key => cases h
  | put key v => cases h
  | advance ms => cases h
  | purge => rfl
  | sweep interval => rfl
  | stop => rfl

theorem run_filter_upkeep (m : StampedMap α) (steps : List (Step α)) :
    m.run (steps.filter fun t => !t.isUpkeep) = m.run steps := by
  induction steps generalizing m with
  | nil => rfl
  | cons t rest ih =>
      cases ht : t.isUpkeep with
      | true =>
          rw [List.filter_cons_of_neg (by simp [ht]), ih, run, run, List.foldl_cons,
            m.step_of_isUpkeep ht]
      | false =>
          rw [List.filter_cons_of_pos (by simp [ht])]
          exact ih (m.step t)

theorem answers_filter_upkeep (m : StampedMap α) (steps : List (Step α)) :
    m.answers (steps.filter fun t => !t.isUpkeep) = m.answers steps := by
  induction steps generalizing m with
  | nil => rfl
  | cons t rest ih =>
      cases t with
      | get key => exact congrArg (m.answer key :: ·) (ih (m.step (.get key)))
      | put key v => exact ih (m.step (.put key v))
      | advance ms => exact ih (m.step (.advance ms))
      | purge => exact ih m
      | sweep interval => exact ih m
      | stop => exact ih m

/-- The map apart from what it has counted. -/
def uncounted (m : StampedMap α) : StampedMap α := { m with hits := 0, misses := 0 }

theorem answer_uncounted (m : StampedMap α) (key : String) : m.uncounted.answer key = m.answer key :=
  rfl

theorem uncounted_step_of_write (m : StampedMap α) {t : Step α} (h : t.isWrite = true) :
    (m.step t).uncounted = m.uncounted.step t := by
  cases t with
  | put key v => rfl
  | advance ms => rfl
  | get key => cases h
  | purge => cases h
  | sweep interval => cases h
  | stop => cases h

theorem uncounted_step_of_not_write (m : StampedMap α) {t : Step α} (h : t.isWrite = false) :
    (m.step t).uncounted = m.uncounted := by
  cases t with
  | put key v => cases h
  | advance ms => cases h
  | get key =>
      simp only [step]
      split <;> rfl
  | purge => rfl
  | sweep interval => rfl
  | stop => rfl

/-- What a map remembers depends only on puts and on time. -/
theorem uncounted_run (m : StampedMap α) (steps : List (Step α)) :
    (m.run steps).uncounted = m.uncounted.run (steps.filter Step.isWrite) := by
  induction steps generalizing m with
  | nil => rfl
  | cons t rest ih =>
      rw [run, List.foldl_cons, ← run, ih]
      cases ht : t.isWrite with
      | true =>
          rw [List.filter_cons_of_pos ht, m.uncounted_step_of_write ht]
          rfl
      | false => rw [List.filter_cons_of_neg (by simp [ht]), m.uncounted_step_of_not_write ht]

end StampedMap

end MetricFanout
