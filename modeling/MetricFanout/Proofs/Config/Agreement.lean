import MetricFanout.Config.Validate
import MetricFanout.Proofs.Engine.Reach
import MetricFanout.Proofs.Failure
/-!
# Valid configurations have engines

The problems of a configuration and the construction of an engine read the same addresses and the same search
fields, the one to report all that is wrong, the other to stop at the first. They agree: without problems there
is an engine, and what the construction fails with is among the problems.

Both are compared with the addresses that are asked, `Config.asked`: those of the pool and, if search is
enabled, that of the search backend. The address of a search that is configured by half is read by neither.
-/

namespace MetricFanout

/-! ## Problems -/

namespace SearchConfig

theorem isEnabled_iff {s : SearchConfig} : s.isEnabled = true ↔ s.trigger ≠ "" ∧ s.backend ≠ "" := by
  simp [isEnabled]

/-- A search that is configured by half is not enabled. -/
theorem not_isEnabled_of_isPartial {s : SearchConfig} (h : s.isPartial = true) : s.isEnabled = false := by
  unfold isPartial at h
  unfold isEnabled
  cases htrigger : s.trigger.isEmpty <;> cases hbackend : s.backend.isEmpty <;> simp_all

end SearchConfig

namespace Config

variable {c : Config} {address : String} {reason : AddressError}

/-- The addresses that are asked. -/
def asked (c : Config) : List String :=
  c.backends ++ if c.search.isEnabled then [c.search.backend] else []

theorem mem_asked : address ∈ c.asked ↔
    address ∈ c.backends ∨ c.search.isEnabled = true ∧ address = c.search.backend := by
  unfold asked
  split
  · rename_i henabled
    simp [henabled]
  · rename_i henabled
    simp [henabled]

theorem mem_problemIf {condition : Bool} {p q : ConfigProblem} :
    p ∈ problemIf condition q ↔ condition = true ∧ p = q := by
  cases condition <;> simp [problemIf]

variable [Idna]

theorem mem_addressProblems {p : ConfigProblem} :
    p ∈ addressProblems address ↔
      ∃ reason, baseUrl address = .error reason ∧ p = .invalidBackend address reason := by
  unfold addressProblems
  split
  · rename_i base hbase
    simp [hbase]
  · rename_i reason hbase
    simp [hbase]

theorem mem_searchProblems {s : SearchConfig} {p : ConfigProblem} :
    p ∈ searchProblems s ↔ (s.isPartial = true ∧ p = .incompleteSearch) ∨
      (s.isEnabled = true ∧ p ∈ addressProblems s.backend) := by
  unfold searchProblems
  split
  · rename_i hpartial
    simp [hpartial, SearchConfig.not_isEnabled_of_isPartial hpartial]
  · rename_i hpartial
    split
    · rename_i henabled
      simp [hpartial, henabled]
    · rename_i henabled
      simp [hpartial, henabled]

/-- What is reported of a configuration, part by part. -/
theorem mem_problems {p : ConfigProblem} : p ∈ c.problems ↔
    (c.backends = [] ∧ p = .noBackends) ∨
    (∃ address ∈ c.backends, p ∈ addressProblems address) ∨
    p ∈ searchProblems c.search ∨
    (c.timeouts.globalMs = 0 ∧ p = .zeroTimeout .global) ∨
    (c.timeouts.connectMs = 0 ∧ p = .zeroTimeout .connect) ∨
    (Bucket.maxCount < c.buckets ∧ p = .tooManyBuckets c.buckets) ∨
    (SocketAddress.isValid c.listen = false ∧ p = .notSocketAddress .listen c.listen) ∨
    (c.observability.metricsEnabled = true ∧ SocketAddress.isValid c.observability.metricsAddress = false ∧
      p = .notSocketAddress .metrics c.observability.metricsAddress) := by
  have hmetrics : p ∈ (if c.observability.metricsEnabled then
      listenProblems .metrics c.observability.metricsAddress else []) ↔
      c.observability.metricsEnabled = true ∧ SocketAddress.isValid c.observability.metricsAddress = false ∧
        p = .notSocketAddress .metrics c.observability.metricsAddress := by
    cases c.observability.metricsEnabled <;> simp [listenProblems, mem_problemIf]
  rw [problems, List.mem_append, hmetrics]
  simp only [List.mem_append, mem_problemIf, List.mem_flatMap, listenProblems, List.isEmpty_iff,
    decide_eq_true_eq, Bool.not_eq_true', or_assoc]

/-- Every address that is asked and is no backend is reported with its reason, and no other one. -/
theorem invalidBackend_mem_problems :
    .invalidBackend address reason ∈ c.problems ↔ address ∈ c.asked ∧ baseUrl address = .error reason := by
  simp only [mem_problems, mem_searchProblems, mem_addressProblems, mem_asked,
    ConfigProblem.invalidBackend.injEq, reduceCtorEq, and_false, false_or, or_false]
  constructor
  · rintro (⟨_, hmem, _, hbase, rfl, rfl⟩ | ⟨henabled, _, hbase, rfl, rfl⟩)
    · exact ⟨.inl hmem, hbase⟩
    · exact ⟨.inr ⟨henabled, rfl⟩, hbase⟩
  · rintro ⟨hmem | ⟨henabled, rfl⟩, hbase⟩
    · exact .inl ⟨address, hmem, reason, hbase, rfl, rfl⟩
    · exact .inr ⟨henabled, reason, hbase, rfl, rfl⟩

theorem incompleteSearch_mem_problems : .incompleteSearch ∈ c.problems ↔ c.search.isPartial = true := by
  simp [mem_problems, mem_searchProblems, mem_addressProblems]

/-! ### Without problems -/

theorem not_mem_problems (h : c.problems = []) (p : ConfigProblem) : p ∉ c.problems := by
  rw [h]
  exact List.not_mem_nil

/-- Every address that is asked is a backend. -/
theorem exists_baseUrl (h : c.problems = []) (hmem : address ∈ c.asked) :
    ∃ base, baseUrl address = .ok base := by
  cases hbase : baseUrl address with
  | ok base => exact ⟨base, rfl⟩
  | error reason => exact absurd (invalidBackend_mem_problems.2 ⟨hmem, hbase⟩) (not_mem_problems h _)

theorem backends_ne_nil (h : c.problems = []) : c.backends ≠ [] := fun hnone =>
  not_mem_problems h .noBackends (mem_problems.2 (.inl ⟨hnone, rfl⟩))

theorem isPartial_eq_false (h : c.problems = []) : c.search.isPartial = false :=
  Bool.eq_false_iff.2 fun hpartial => not_mem_problems h _ (incompleteSearch_mem_problems.2 hpartial)

theorem buckets_le (h : c.problems = []) : c.buckets ≤ Bucket.maxCount := by
  by_contra hmany
  exact not_mem_problems h (.tooManyBuckets c.buckets)
    (mem_problems.2 (.inr (.inr (.inr (.inr (.inr (.inl ⟨Nat.lt_of_not_le hmany, rfl⟩)))))))

end Config

/-! ## Construction -/

namespace Backend

theorem ofAddress_eq_error [Idna] {address : String} {limit : Nat} {err : CallError} :
    ofAddress address limit = .error err ↔
      ∃ reason, baseUrl address = .error reason ∧ err = .invalidBackend address reason.message := by
  unfold ofAddress
  cases baseUrl address with
  | ok base => simp
  | error reason => simp [eq_comm]

end Backend

namespace Pool

/-- A pool is made of backends of its addresses. -/
theorem exists_of_ofAddresses_eq_ok [Idna] {addresses : List String} {limit : Nat} {p : Pool}
    (h : ofAddresses addresses limit = .ok p) :
    ∃ bs, addresses.mapM (Backend.ofAddress · limit) = .ok bs ∧ p = ⟨bs.foldl addDistinct [], limit⟩ := by
  unfold ofAddresses at h
  cases hbs : addresses.mapM (Backend.ofAddress · limit) with
  | error err =>
      rw [hbs] at h
      cases h
  | ok bs =>
      rw [hbs] at h
      exact ⟨bs, rfl, (Except.ok.inj h).symm⟩

/-- What a pool fails with is an address of the list that is no backend. -/
theorem exists_of_ofAddresses_eq_error [Idna] {addresses : List String} {limit : Nat} {err : CallError}
    (h : ofAddresses addresses limit = .error err) : ∃ address ∈ addresses, ∃ reason,
      baseUrl address = .error reason ∧ err = .invalidBackend address reason.message := by
  unfold ofAddresses at h
  cases hbs : addresses.mapM (Backend.ofAddress · limit) with
  | error first =>
      rw [hbs] at h
      cases h
      obtain ⟨address, hmem, hfirst⟩ := exists_of_mapM_eq_error hbs
      exact ⟨address, hmem, Backend.ofAddress_eq_error.1 hfirst⟩
  | ok bs =>
      rw [hbs] at h
      cases h

theorem addDistinct_ne_nil (backends : List Backend) (b : Backend) : addDistinct backends b ≠ [] := by
  unfold addDistinct
  split
  · rename_i hany
    rintro rfl
    exact absurd hany (by simp)
  · simp

theorem foldl_addDistinct_ne_nil (bs : List Backend) {backends : List Backend} (h : backends ≠ []) :
    bs.foldl addDistinct backends ≠ [] := by
  induction bs generalizing backends with
  | nil => exact h
  | cons b rest ih => exact ih (addDistinct_ne_nil backends b)

/-- A pool of some addresses has a backend. -/
theorem backends_ne_nil [Idna] {addresses : List String} {limit : Nat} {p : Pool} (hsome : addresses ≠ [])
    (h : ofAddresses addresses limit = .ok p) : p.backends ≠ [] := by
  obtain ⟨bs, hbs, rfl⟩ := exists_of_ofAddresses_eq_ok h
  cases addresses with
  | nil => exact absurd rfl hsome
  | cons address rest =>
      obtain ⟨b, bs', _, _, rfl⟩ := mapM_cons_eq_ok hbs
      exact foldl_addDistinct_ne_nil bs' (addDistinct_ne_nil [] b)

end Pool

namespace Engine

variable {c : Config} {e : Engine} {err : CallError}

/-- An engine fits its configuration: it has backends, none of them twice, and searches are routed exactly if
both search fields are set, by the prefix that is configured. -/
structure Fits (e : Engine) (c : Config) : Prop where
  nonempty : e.pool.backends ≠ []
  distinct : e.pool.identities.Nodup
  routed : e.search.isSome = true ↔ c.search.trigger ≠ "" ∧ c.search.backend ≠ ""
  trigger : ∀ route, e.search = some route → route.trigger = c.search.trigger ∧ route.trigger ≠ ""

variable [Idna]

/-- What the construction fails with: an address that is asked, or a search that is configured by half. -/
theorem exists_of_ofConfig_eq_error (h : ofConfig c = .error err) :
    (∃ address ∈ c.asked, ∃ reason,
      baseUrl address = .error reason ∧ err = .invalidBackend address reason.message) ∨
    (c.search.isPartial = true ∧ err = .incompleteSearch) := by
  unfold ofConfig at h
  cases hpool : Pool.ofAddresses c.backends c.concurrencyLimit with
  | error first =>
      simp only [hpool, bind, Except.bind] at h
      cases h
      obtain ⟨address, hmem, hbad⟩ := Pool.exists_of_ofAddresses_eq_error hpool
      exact .inl ⟨address, Config.mem_asked.2 (.inl hmem), hbad⟩
  | ok pool =>
      cases hsearch : searchOf pool c.search with
      | ok search =>
          simp only [hpool, hsearch, bind, Except.bind, pure, Except.pure] at h
          cases h
      | error first =>
          simp only [hpool, hsearch, bind, Except.bind] at h
          cases h
          unfold searchOf at hsearch
          split at hsearch
          · rename_i henabled
            cases hb : pool.detached c.search.backend with
            | ok b =>
                rw [hb] at hsearch
                cases hsearch
            | error reason =>
                rw [hb] at hsearch
                cases hsearch
                exact .inl ⟨c.search.backend, Config.mem_asked.2 (.inr ⟨henabled, rfl⟩),
                  Backend.ofAddress_eq_error.1 hb⟩
          · split at hsearch
            · rename_i hpartial
              cases hsearch
              exact .inr ⟨hpartial, rfl⟩
            · cases hsearch

/-- The route of searches, if there is one: with the prefix and the backend that are configured. -/
theorem search_of_ofConfig (h : ofConfig c = .ok e) :
    if c.search.isEnabled then
      ∃ b, e.pool.detached c.search.backend = .ok b ∧ e.search = some ⟨c.search.trigger, b⟩
    else e.search = none := by
  obtain ⟨pool, search, _, hsearch, rfl⟩ := eq_of_ofConfig h
  unfold searchOf at hsearch
  split
  · rename_i henabled
    rw [if_pos henabled] at hsearch
    cases hb : pool.detached c.search.backend with
    | error err =>
        rw [hb] at hsearch
        cases hsearch
    | ok b =>
        rw [hb] at hsearch
        exact ⟨b, rfl, (Except.ok.inj hsearch).symm⟩
  · rename_i henabled
    rw [if_neg henabled] at hsearch
    split at hsearch
    · cases hsearch
    · exact (Except.ok.inj hsearch).symm

theorem fits_of_ofConfig (hsome : c.backends ≠ []) (h : ofConfig c = .ok e) : e.Fits c := by
  obtain ⟨pool, search, hpool, _, heq⟩ := eq_of_ofConfig h
  have hsearch := search_of_ofConfig h
  refine ⟨?_, (nodup_ofConfig h).1, ?_, ?_⟩
  · subst heq
    exact Pool.backends_ne_nil hsome hpool
  · rw [← SearchConfig.isEnabled_iff]
    split at hsearch
    · rename_i henabled
      obtain ⟨b, _, hb⟩ := hsearch
      simp [henabled, hb]
    · rename_i henabled
      simp [henabled, hsearch]
  · intro route hroute
    split at hsearch
    · rename_i henabled
      obtain ⟨b, _, hb⟩ := hsearch
      rw [hb] at hroute
      cases hroute
      exact ⟨rfl, (SearchConfig.isEnabled_iff.1 henabled).1⟩
    · rw [hsearch] at hroute
      cases hroute

end Engine

/-! ## Agreement -/

/-- A configuration without problems has an engine. -/
theorem Engine.exists_of_valid [Idna] {c : Config} (h : c.problems = []) :
    ∃ e, Engine.ofConfig c = .ok e ∧ e.Fits c := by
  cases hengine : Engine.ofConfig c with
  | ok e => exact ⟨e, rfl, Engine.fits_of_ofConfig (Config.backends_ne_nil h) hengine⟩
  | error err =>
      exfalso
      rcases Engine.exists_of_ofConfig_eq_error hengine with ⟨address, hmem, reason, hbad, _⟩ | ⟨hpartial, _⟩
      · obtain ⟨base, hbase⟩ := Config.exists_baseUrl h hmem
        rw [hbase] at hbad
        cases hbad
      · rw [Config.isPartial_eq_false h] at hpartial
        cases hpartial

/-- **Validation agrees with construction.** A configuration without problems has an engine that fits it. What
the construction of an engine fails with is among the problems, with the same address and reason. And the
problems name every address that is asked and is no backend. -/
theorem validation_agrees [Idna] (c : Config) :
    (c.problems = [] → ∃ e, Engine.ofConfig c = .ok e ∧ e.Fits c) ∧
    (∀ address message, Engine.ofConfig c = .error (.invalidBackend address message) →
      ∃ reason, .invalidBackend address reason ∈ c.problems ∧ reason.message = message) ∧
    (Engine.ofConfig c = .error .incompleteSearch → .incompleteSearch ∈ c.problems) ∧
    ∀ address reason, .invalidBackend address reason ∈ c.problems ↔
      address ∈ c.asked ∧ baseUrl address = .error reason := by
  refine ⟨Engine.exists_of_valid, fun address message herror => ?_, fun herror => ?_,
    fun address reason => Config.invalidBackend_mem_problems⟩
  · rcases Engine.exists_of_ofConfig_eq_error herror with ⟨_, hmem, reason, hbad, heq⟩ | ⟨_, heq⟩
    · cases heq
      exact ⟨reason, Config.invalidBackend_mem_problems.2 ⟨hmem, hbad⟩, rfl⟩
    · cases heq
  · rcases Engine.exists_of_ofConfig_eq_error herror with ⟨_, _, reason, _, heq⟩ | ⟨hpartial, _⟩
    · cases heq
    · exact Config.incompleteSearch_mem_problems.2 hpartial

open Program

/-- Two spellings of one backend beside a search; an address with a scheme that is not supported; and a search
without a backend. -/
theorem validation_agrees_spellings :
    (∃ e, Engine.ofConfig { backends := ["a:1", "http://a:1/"], search := ⟨"s:", "b:1"⟩ } = .ok e ∧
      e.Fits { backends := ["a:1", "http://a:1/"], search := ⟨"s:", "b:1"⟩ }) ∧
    (∃ reason, .invalidBackend "ftp://b" reason ∈ Config.problems { backends := ["a:1", "ftp://b"] } ∧
      reason.message = "unsupported scheme 'ftp'") ∧
    .incompleteSearch ∈ Config.problems { backends := ["a:1"], search := ⟨"s:", ""⟩ } := by
  have hscheme : Engine.ofConfig { backends := ["a:1", "ftp://b"] } =
      .error (.invalidBackend "ftp://b" "unsupported scheme 'ftp'") := by
    have hpool : Pool.ofAddresses ["a:1", "ftp://b"] 0 =
        .error (.invalidBackend "ftp://b" "unsupported scheme 'ftp'") := by decide +kernel
    simp only [Engine.ofConfig, hpool]
    rfl
  have hpartial : Engine.ofConfig { backends := ["a:1"], search := ⟨"s:", ""⟩ } = .error .incompleteSearch := by
    have hpool : Pool.ofAddresses ["a:1"] 0 =
        .ok ⟨[⟨⟨.http, [], [], .domain ['a'], some 1, {}, none, none⟩, "http://a:1", 0⟩], 0⟩ := by
      decide +kernel
    simp only [Engine.ofConfig, hpool]
    rfl
  exact ⟨(validation_agrees _).1 (by decide +kernel), (validation_agrees _).2.1 _ _ hscheme,
    (validation_agrees _).2.2.1 hpartial⟩

end MetricFanout
