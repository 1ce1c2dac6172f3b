import Mathlib.Algebra.GroupWithZero.Nat
import MetricFanout.Proofs.Config.Agreement
import MetricFanout.Proofs.Telemetry.Bucket
import MetricFanout.Proofs.Toml.Range
/-!
# Starting with a valid configuration

A configuration is accepted before the program starts with it. Then semaphores get their permits, sweeps their
interval, calls their deadlines and latencies their buckets, and each of these has a limit of its own. Accepted
configurations stay within all of them but one: nothing bounds the permits of a backend.

## Implementation notes

Deadlines are moments of a clock that counts seconds in 64 bits with a sign. A time limit is read as such an
integer too, but in milliseconds, so it is a thousand times shorter than what the clock can count. The clock
itself starts when the machine does; it is asked to be short of `Instant.latest`, some 285 billion years.
-/

namespace MetricFanout

/-! ## Limits of a start -/

/-- The largest number of permits that a semaphore takes: a word without its three lowest bits. -/
def Semaphore.most : Nat := (UInt64.size - 1) >>> 3

/-- A moment of the clock: seconds, and nanoseconds of the next one. -/
structure Instant where
  secs : Int
  nanos : Nat
  nanos_lt : nanos < 1000000000

namespace Instant

/-- No clock has run for so many seconds. -/
def latest : Int := 9000000000000000000

/-- The seconds and nanoseconds some milliseconds later, unless there are more seconds than fit. -/
def later? (t : Instant) (ms : Nat) : Option (Int × Nat) :=
  let nanos := t.nanos + ms % 1000 * 1000000
  let secs := t.secs + (ms / 1000 : Nat) + (nanos / 1000000000 : Nat)
  if secs ≤ Int64.maxValue.toInt then some (secs, nanos % 1000000000) else none

/-- A time limit of 63 bits ends at a moment. -/
theorem isSome_later? {t : Instant} (ht : t.secs ≤ latest) {ms : Nat} (hms : ms < 2 ^ 63) :
    (t.later? ms).isSome = true := by
  have hnanos := t.nanos_lt
  have hmax : Int64.maxValue.toInt = 2 ^ 63 - 1 := by decide
  have hfit : t.secs + (ms / 1000 : Nat) + ((t.nanos + ms % 1000 * 1000000) / 1000000000 : Nat) ≤
      Int64.maxValue.toInt := by
    unfold latest at ht
    omega
  rw [later?, if_pos hfit]
  rfl

end Instant

namespace Bucket

/-- No bits of a bound are lost up to the largest number of buckets that is accepted. -/
theorem upper_eq {i : Nat} (h : i ≤ maxCount) : upper i = base * 2 ^ i :=
  upper_eq_of_lt (Nat.lt_of_le_of_lt h (by decide))

end Bucket

/-! ## Numbers of a configuration -/

/-- Time limits of 63 bits. -/
structure Timeouts.Fit (t : Timeouts) : Prop where
  global : t.globalMs < 2 ^ 63
  afterStarted : t.afterStartedMs < 2 ^ 63
  connect : t.connectMs < 2 ^ 63

/-- The limits that hold when nothing is said. -/
theorem Timeouts.fit_default : Fit {} := ⟨by decide, by decide, by decide⟩

namespace Toml

variable {v : Toml}

/-- The fields that a record finds in a value fit like the value. -/
theorem Fits.fields? (h : v.Fits) {names : List String} {values : List (Option Toml)}
    (hvalues : v.fields? names = some values) : ∀ w, some w ∈ values → w.Fits := by
  intro w hw
  cases v with
  | table fields =>
      cases hvalues
      obtain ⟨name, _, hfield⟩ := List.mem_map.1 hw
      obtain ⟨f, hf, rfl⟩ := Option.map_eq_some_iff.1 hfield
      exact fits_table.1 h f (List.mem_of_find?_eq_some hf)
  | array items =>
      cases hvalues
      obtain ⟨i, _, hitem⟩ := List.mem_map.1 hw
      exact fits_array.1 h w (List.mem_of_getElem? hitem)
  | moment m =>
      cases hvalues
      obtain ⟨name, _, hnone⟩ := List.mem_map.1 hw
      cases hnone
  | text s => cases hvalues
  | int i => cases hvalues
  | float x => cases hvalues
  | bool b => cases hvalues

theorem Fits.nat? (h : v.Fits) {n : Nat} (hn : v.nat? = some n) : n < 2 ^ 63 := by
  cases v with
  | int i =>
      have hmax : Int64.maxValue.toInt = 2 ^ 63 - 1 := by decide
      have hi : i ≤ Int64.maxValue.toInt := h.2
      simp only [Toml.nat?, Option.ite_none_right_eq_some, Option.some.injEq] at hn
      omega
  | text s => cases hn
  | float x => cases hn
  | bool b => cases hn
  | moment m => cases hn
  | array items => cases hn
  | table fields => cases hn

end Toml

namespace DataFormat

theorem field_nat?_lt {missing n : Nat} {o : Option Toml} (hmissing : missing < 2 ^ 63)
    (ho : ∀ w, o = some w → w.Fits) (h : field missing Toml.nat? o = some n) : n < 2 ^ 63 := by
  cases o with
  | none =>
      cases h
      exact hmissing
  | some v => exact (ho v rfl).nat? h

theorem fit_of_timeouts? {v : Toml} (hv : v.Fits) {t : Timeouts}
    (h : DataFormat.toml.timeouts? v = some t) : t.Fit := by
  simp only [timeouts?, Option.bind_eq_bind, Option.bind_eq_some_iff] at h
  obtain ⟨values, hvalues, h⟩ := h
  have hfits := hv.fields? hvalues
  split at h
  · simp only [Option.bind_eq_some_iff] at h
    obtain ⟨globalMs, hglobal, afterStartedMs, hafter, connectMs, hconnect, heq⟩ := h
    cases heq
    exact ⟨field_nat?_lt (by decide) (fun w hw => hfits w (by simp [hw])) hglobal,
      field_nat?_lt (by decide) (fun w hw => hfits w (by simp [hw])) hafter,
      field_nat?_lt (by decide) (fun w hw => hfits w (by simp [hw])) hconnect⟩
  · cases h

theorem fit_of_config? {v : Toml} (hv : v.Fits) {c : Config} (h : DataFormat.toml.config? v = some c) :
    c.timeouts.Fit := by
  simp only [config?, Option.bind_eq_bind, Option.bind_eq_some_iff] at h
  obtain ⟨values, hvalues, h⟩ := h
  have hfits := hv.fields? hvalues
  split at h
  · rename_i timeouts _ _
    simp only [Option.bind_eq_some_iff] at h
    obtain ⟨_, _, _, _, _, _, _, _, _, _, _, _, _, _, _, _, _, _, t, ht, _, _, _, _, heq⟩ := h
    cases heq
    cases timeouts with
    | none =>
        cases ht
        exact Timeouts.fit_default
    | some w => exact fit_of_timeouts? (hfits w (by simp)) ht
  · cases h

end DataFormat

namespace Config

variable {text : String} {c : Config}

/-- An accepted configuration has been read out of a document, and has no problems. -/
theorem of_parse [Idna] (h : parse text = .ok c) : c.problems = [] ∧ c.timeouts.Fit := by
  unfold parse at h
  cases hread : read text with
  | error err =>
      rw [hread] at h
      cases h
  | ok c' =>
      rw [hread] at h
      change validate c' = .ok c at h
      unfold validate at h
      split at h
      · rename_i hvalid
        cases h
        refine ⟨List.isEmpty_iff.1 hvalid, ?_⟩
        unfold read at hread
        split at hread
        · rename_i hc
          cases hread
          obtain ⟨v, hv, hc⟩ := Option.bind_eq_some_iff.1 hc
          exact DataFormat.fit_of_config? (Toml.fits_of_parse hv) hc
        · cases hread
      · cases h

end Config

/-! ## Permits -/

namespace Backend

theorem limit_of_ofAddress [Idna] {address : String} {limit : Nat} {b : Backend}
    (h : ofAddress address limit = .ok b) : b.limit = limit := by
  unfold ofAddress at h
  split at h <;> cases h
  rfl

end Backend

namespace Pool

theorem mem_of_mem_addDistinct {backends : List Backend} {b b' : Backend} (h : b' ∈ addDistinct backends b) :
    b' ∈ backends ∨ b' = b := by
  unfold addDistinct at h
  split at h
  · exact .inl h
  · simpa using h

theorem mem_of_mem_foldl_addDistinct (bs : List Backend) {backends : List Backend} {b : Backend}
    (h : b ∈ bs.foldl addDistinct backends) : b ∈ backends ∨ b ∈ bs := by
  induction bs generalizing backends with
  | nil => exact .inl h
  | cons b' rest ih =>
      rcases ih h with hmem | hmem
      · rcases mem_of_mem_addDistinct hmem with hold | rfl
        · exact .inl hold
        · exact .inr List.mem_cons_self
      · exact .inr (List.mem_cons_of_mem _ hmem)

/-- Every backend of a pool has the limit of the pool. -/
theorem limit_of_mem [Idna] {addresses : List String} {limit : Nat} {p : Pool}
    (h : ofAddresses addresses limit = .ok p) : p.limit = limit ∧ ∀ b ∈ p.backends, b.limit = limit := by
  obtain ⟨bs, hbs, rfl⟩ := exists_of_ofAddresses_eq_ok h
  refine ⟨rfl, fun b hb => ?_⟩
  rcases mem_of_mem_foldl_addDistinct bs hb with hmem | hmem
  · exact absurd hmem List.not_mem_nil
  · obtain ⟨address, _, hb⟩ := exists_of_mapM_eq_ok hbs b hmem
    exact Backend.limit_of_ofAddress hb

end Pool

namespace Engine

variable {c : Config} {e : Engine}

/-- The backends that an engine asks: those of its pool and, if there is one, the search backend. -/
def targets (e : Engine) : List Backend := e.pool.backends ++ (e.search.map SearchRoute.backend).toList

/-- The permits that semaphores are given, for each backend with a limit. -/
def permits (e : Engine) : List Nat := (e.targets.map Backend.limit).filter (0 < ·)

/-- All backends of an engine have the limit that is configured. -/
theorem limit_of_mem_targets [Idna] (h : ofConfig c = .ok e) : ∀ b ∈ e.targets, b.limit = c.concurrencyLimit := by
  obtain ⟨pool, search, hpool, _, heq⟩ := eq_of_ofConfig h
  have hroute := search_of_ofConfig h
  obtain rfl : e.pool = pool := by rw [heq]
  obtain ⟨hlimit, hbackends⟩ := Pool.limit_of_mem hpool
  intro b hb
  rcases List.mem_append.1 hb with hmem | hmem
  · exact hbackends b hmem
  · split at hroute
    · obtain ⟨b', hb', hsearch⟩ := hroute
      rw [hsearch] at hmem
      rw [List.mem_singleton.1 hmem, ← hlimit]
      exact Backend.limit_of_ofAddress hb'
    · rw [hroute] at hmem
      exact absurd hmem List.not_mem_nil

/-- The semaphores of an engine take their permits exactly if the limit that is configured is in range. -/
theorem permits_le_iff [Idna] (hsome : e.pool.backends ≠ []) (h : ofConfig c = .ok e) (most : Nat) :
    (∀ n ∈ e.permits, n ≤ most) ↔ c.concurrencyLimit ≤ most := by
  have hlimit := limit_of_mem_targets h
  constructor
  · intro hall
    by_cases hzero : c.concurrencyLimit = 0
    · omega
    · obtain ⟨b, hb⟩ := List.exists_mem_of_ne_nil _ hsome
      have hmem : b ∈ e.targets := List.mem_append_left _ hb
      refine hlimit b hmem ▸ hall b.limit (List.mem_filter.2 ⟨List.mem_map_of_mem hmem, ?_⟩)
      have := hlimit b hmem
      simp only [decide_eq_true_eq]
      omega
  · intro hle n hn
    obtain ⟨b, hb, rfl⟩ := List.mem_map.1 (List.mem_filter.1 hn).1
    rw [hlimit b hb]
    exact hle

/-- What a start with an engine of a configuration needs besides permits: some time between sweeps, deadlines
that the clock can show, and bounds of buckets that have all their bits. -/
structure Starts (e : Engine) (c : Config) : Prop where
  sweeps : ∀ n, c.sweepInterval = some n → 0 < n
  deadlines : ∀ now : Instant, now.secs ≤ Instant.latest →
    (now.later? e.timeouts.globalMs).isSome = true ∧ (now.later? e.timeouts.afterStartedMs).isSome = true
  buckets : ∀ ms, Bucket.ofMillis ms c.buckets ≤ c.buckets
  bounds : ∀ i ≤ c.buckets, Bucket.upper i = Bucket.base * 2 ^ i

end Engine

/-! ## Starts -/

/-- **Accepted configurations start, but for permits.** A configuration that is read out of a text and accepted
has an engine. Its sweeps, its deadlines and its buckets are within their limits, whatever the numbers of the
text are; and its semaphores take their permits exactly if the configured limit is one that they take. -/
theorem accepted_starts [Idna] {text : String} {c : Config} (h : Config.parse text = .ok c) :
    ∃ e, Engine.ofConfig c = .ok e ∧ e.Starts c ∧
      ((∀ n ∈ e.permits, n ≤ Semaphore.most) ↔ c.concurrencyLimit ≤ Semaphore.most) := by
  obtain ⟨hvalid, htimeouts⟩ := Config.of_parse h
  obtain ⟨e, he, hfits⟩ := Engine.exists_of_valid hvalid
  have hbuckets := Config.buckets_le hvalid
  have hpermits := Engine.permits_le_iff hfits.nonempty he Semaphore.most
  refine ⟨e, he, ⟨?_, fun now hnow => ?_, fun ms => ?_, fun i hi => ?_⟩, hpermits⟩
  · intro n hn
    simp only [Config.sweepInterval, Option.ite_none_right_eq_some, Option.some.injEq] at hn
    omega
  · obtain ⟨pool, search, _, _, rfl⟩ := Engine.eq_of_ofConfig he
    exact ⟨Instant.isSome_later? hnow htimeouts.global, Instant.isSome_later? hnow htimeouts.afterStarted⟩
  · simpa [Bucket.ofMillis] using Bucket.find_le ms c.buckets 0
  · exact Bucket.upper_eq (Nat.le_trans hi hbuckets)

namespace Largest

/-- The largest time limit there can be, and the largest limit that semaphores take. -/
def text : String :=
  "backends = [\"a:1\"]\nconcurrency_limit = 2305843009213693951\ntimeouts = [9223372036854775807]"

/-- What the text configures. -/
def config : Config where
  backends := ["a:1"]
  concurrencyLimit := 2305843009213693951
  timeouts := { globalMs := 9223372036854775807 }

end Largest

open Program

/-- The largest numbers start. -/
theorem accepted_starts_largest :
    Config.parse Largest.text = .ok Largest.config ∧
    ∃ e, Engine.ofConfig Largest.config = .ok e ∧ e.Starts Largest.config ∧
      ∀ n ∈ e.permits, n ≤ Semaphore.most := by
  have hparse : Config.parse Largest.text = .ok Largest.config := by decide +kernel
  obtain ⟨e, he, hstarts, hpermits⟩ := accepted_starts hparse
  exact ⟨hparse, e, he, hstarts, hpermits.2 (by decide)⟩

/-- The next larger limit is accepted as well, and it is more than a semaphore takes. -/
theorem not_accepted_starts :
    ¬ ∀ text c e, Config.parse text = .ok c → Engine.ofConfig c = .ok e →
      ∀ n ∈ e.permits, n ≤ Semaphore.most := by
  intro h
  have hparse : Config.parse "backends = [\"127.0.0.1:8081\"]\nconcurrency_limit = 2305843009213693952" =
      .ok { backends := ["127.0.0.1:8081"], concurrencyLimit := 2305843009213693952 } := by decide +kernel
  obtain ⟨hvalid, _⟩ := Config.of_parse hparse
  obtain ⟨e, he, hfits⟩ := Engine.exists_of_valid hvalid
  have hlimit := (Engine.permits_le_iff hfits.nonempty he _).1 (h _ _ e hparse he)
  exact absurd hlimit (by decide)

end MetricFanout
