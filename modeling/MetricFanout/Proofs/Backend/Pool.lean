import MetricFanout.Proofs.Backend.Identity
import MetricFanout.Proofs.Config.Agreement
import MetricFanout.Proofs.Merge.Distinct
/-!
# Pools and their identities

A pool has the identities of its addresses, each once and in the order in which they come first. Since an identity
is an address with the same identity, a pool can be built again from its identities, and a selection by identities
finds the backends that it names.
-/

namespace MetricFanout

/-- An identity of an address. -/
def IsIdentity [Idna] (address identity : String) : Prop :=
  ∃ base, baseUrl address = .ok base ∧ base.identity = identity

theorem IsIdentity.again [Idna] [LawfulIdna] {address identity : String} (h : IsIdentity address identity) :
    IsIdentity identity identity := by
  obtain ⟨base, hbase, rfl⟩ := h
  exact ⟨base.trimmed, Url.baseUrl_identity hbase, Url.identity_trimmed hbase⟩

theorem IsIdentity.unique [Idna] {address i j : String} (hi : IsIdentity address i) (hj : IsIdentity address j) :
    i = j := by
  obtain ⟨base, hbase, rfl⟩ := hi
  obtain ⟨other, hother, rfl⟩ := hj
  rw [Except.ok.inj (hbase.symm.trans hother)]

namespace Backend

variable {address : String} {limit : Nat} {b : Backend}

theorem ofAddress_eq_ok [Idna] : ofAddress address limit = .ok b ↔
    ∃ base, baseUrl address = .ok base ∧ b = ⟨base, base.identity, limit⟩ := by
  unfold ofAddress
  cases baseUrl address with
  | ok base => simp [eq_comm]
  | error reason => simp

theorem isIdentity [Idna] (h : ofAddress address limit = .ok b) : IsIdentity address b.identity := by
  obtain ⟨base, hbase, rfl⟩ := ofAddress_eq_ok.1 h
  exact ⟨base, hbase, rfl⟩

theorem exists_ofAddress [Idna] {identity : String} (h : IsIdentity address identity) (limit : Nat) :
    ∃ b, ofAddress address limit = .ok b ∧ b.identity = identity := by
  obtain ⟨base, hbase, hidentity⟩ := h
  exact ⟨⟨base, base.identity, limit⟩, ofAddress_eq_ok.2 ⟨base, hbase, rfl⟩, hidentity⟩

end Backend

namespace Pool

/-! ## Identities -/

/-- Backends whose identity has come before are left out. -/
theorem identities_foldl (bs : List Backend) :
    (bs.foldl addDistinct []).map Backend.identity = (bs.map Backend.identity).eraseDups := by
  induction bs using List.reverseRecOn with
  | nil => rfl
  | append_singleton bs b ih =>
      have hany : ((bs.foldl addDistinct []).any fun c => c.identity == b.identity) = true ↔
          b.identity ∈ bs.map Backend.identity := by
        rw [← List.mem_eraseDups, ← ih]
        simp [List.mem_map]
      rw [List.foldl_concat, List.map_append, List.map_singleton, addDistinct]
      by_cases hold : b.identity ∈ bs.map Backend.identity
      · rw [if_pos (hany.2 hold), ih, Distinct.eraseDups_snoc_of_mem hold]
      · rw [if_neg (mt hany.1 hold), List.map_append, List.map_singleton, ih,
          Distinct.eraseDups_snoc_of_not_mem hold]

variable {addresses : List String} {limit : Nat} {p : Pool}

/-- A pool has the identities of its addresses, each where it comes first. -/
theorem exists_identities [Idna] (h : ofAddresses addresses limit = .ok p) :
    ∃ is, List.Forall₂ IsIdentity addresses is ∧ p.identities = is.eraseDups := by
  obtain ⟨bs, hbs, rfl⟩ := exists_of_ofAddresses_eq_ok h
  refine ⟨bs.map Backend.identity, ?_, identities_foldl bs⟩
  exact List.forall₂_map_right_iff.2 ((forall₂_of_mapM_eq_ok hbs).imp fun _ _ hb => Backend.isIdentity hb)

theorem mem_identities [Idna] (h : ofAddresses addresses limit = .ok p) {i : String} :
    i ∈ p.identities ↔ ∃ address ∈ addresses, IsIdentity address i := by
  obtain ⟨bs, hbs, rfl⟩ := exists_of_ofAddresses_eq_ok h
  rw [identities, identities_foldl, List.mem_eraseDups, List.mem_map]
  constructor
  · rintro ⟨b, hb, rfl⟩
    obtain ⟨address, hmem, haddress⟩ := exists_of_mapM_eq_ok hbs b hb
    exact ⟨address, hmem, Backend.isIdentity haddress⟩
  · rintro ⟨address, hmem, hi⟩
    obtain ⟨b, hb, haddress⟩ := exists_mem_of_mapM_eq_ok hbs address hmem
    exact ⟨b, hb, (Backend.isIdentity haddress).unique hi⟩

/-- A pool is built exactly if all its addresses are backends. -/
theorem exists_ofAddresses_iff [Idna] (addresses : List String) (limit : Nat) :
    (∃ p, ofAddresses addresses limit = .ok p) ↔ ∀ address ∈ addresses, ∃ base, baseUrl address = .ok base := by
  constructor
  · rintro ⟨p, hp⟩ address hmem
    obtain ⟨bs, hbs, rfl⟩ := exists_of_ofAddresses_eq_ok hp
    obtain ⟨b, _, hb⟩ := exists_mem_of_mapM_eq_ok hbs address hmem
    obtain ⟨base, hbase, _⟩ := Backend.ofAddress_eq_ok.1 hb
    exact ⟨base, hbase⟩
  · intro h
    cases hp : ofAddresses addresses limit with
    | ok p => exact ⟨p, rfl⟩
    | error err =>
        obtain ⟨address, hmem, reason, hreason, _⟩ := exists_of_ofAddresses_eq_error hp
        obtain ⟨base, hbase⟩ := h address hmem
        cases hreason.symm.trans hbase

/-- A pool can be built again from its identities, in whatever order and however often each of them comes. -/
theorem exists_again [Idna] [LawfulIdna] (h : ofAddresses addresses limit = .ok p) {is : List String}
    (his : ∀ i, i ∈ is ↔ i ∈ p.identities) (limit' : Nat) :
    ∃ p', ofAddresses is limit' = .ok p' ∧ ∀ i, i ∈ p'.identities ↔ i ∈ p.identities := by
  have hagain : ∀ i ∈ is, IsIdentity i i := by
    intro i hi
    obtain ⟨address, _, haddress⟩ := (mem_identities h).1 ((his i).1 hi)
    exact haddress.again
  obtain ⟨p', hp'⟩ := (exists_ofAddresses_iff is limit').2 fun i hi => by
    obtain ⟨base, hbase, _⟩ := hagain i hi
    exact ⟨base, hbase⟩
  refine ⟨p', hp', fun i => ?_⟩
  rw [mem_identities hp', ← his i]
  constructor
  · rintro ⟨j, hj, hi⟩
    rwa [hi.unique (hagain j hj)]
  · exact fun hi => ⟨i, hi, hagain i hi⟩

/-! ## Selection -/

/-- A selection that names a backend of the pool does not fall back on all of them. -/
theorem select_eq_filter {ids : List String} (h : ∃ b ∈ p.backends, b.identity ∈ ids) :
    p.select ids = p.backends.filter fun b => ids.contains b.identity := by
  have hsome : ¬ (p.backends.filter fun b => ids.contains b.identity).isEmpty = true := by
    intro hempty
    obtain ⟨b, hb, hid⟩ := h
    exact List.filter_eq_nil_iff.1 (List.isEmpty_iff.1 hempty) b hb (List.contains_iff_mem.2 hid)
  exact if_neg hsome

/-- A pool stands for the addresses that it was built from, by their identities. -/
structure StandsFor [Idna] (p : Pool) (addresses : List String) : Prop where
  distinct : p.identities.Nodup
  /-- It has the identities of its addresses, in the order in which they come first. -/
  firsts : ∃ is, List.Forall₂ IsIdentity addresses is ∧ p.identities = is.eraseDups
  /-- A pool with the same identities is built from them, however they are listed. -/
  again : ∀ is limit, (∀ i, i ∈ is ↔ i ∈ p.identities) →
    ∃ p', ofAddresses is limit = .ok p' ∧ ∀ i, i ∈ p'.identities ↔ i ∈ p.identities
  /-- Identities of some of its backends select these, in the pool's order, and no others. -/
  selects : ∀ ids, (∃ b ∈ p.backends, b.identity ∈ ids) →
    (p.select ids).Sublist p.backends ∧ ∀ b, b ∈ p.select ids ↔ b ∈ p.backends ∧ b.identity ∈ ids

theorem standsFor_of_ofAddresses [Idna] [LawfulIdna] (h : ofAddresses addresses limit = .ok p) :
    p.StandsFor addresses := by
  constructor
  case distinct => exact nodup_ofAddresses h
  case firsts => exact exists_identities h
  case again => exact fun is limit' his => exists_again h his limit'
  case selects =>
    intro ids hids
    rw [select_eq_filter hids]
    exact ⟨List.filter_sublist, fun b => by rw [List.mem_filter, List.contains_iff_mem]⟩

/-- **Identities are a normal form of addresses.** An identity is an address with the same identity. A pool is
built exactly if each of its addresses is a backend, and then stands for them by their identities. -/
theorem identities_normal [Idna] [LawfulIdna] :
    (∀ address limit b, Backend.ofAddress address limit = .ok b → ∀ limit',
      ∃ b', Backend.ofAddress b.identity limit' = .ok b' ∧ b'.identity = b.identity) ∧
    ∀ addresses limit,
      ((∃ p, ofAddresses addresses limit = .ok p) ↔ ∀ address ∈ addresses, ∃ base, baseUrl address = .ok base) ∧
      ∀ p, ofAddresses addresses limit = .ok p → p.StandsFor addresses := by
  refine ⟨fun address limit b hb limit' => ?_, fun addresses limit => ⟨?_, fun p hp => ?_⟩⟩
  · exact Backend.exists_ofAddress (Backend.isIdentity hb).again limit'
  · exact exists_ofAddresses_iff addresses limit
  · exact standsFor_of_ofAddresses hp

open Umlaut

/-- Three spellings of one address, two of them beyond ASCII, and another address: built again with the other first,
and the other selected. -/
theorem identities_normal_spellings :
    (∃ b, Backend.ofAddress "http://xn--bcher-kva.example/x" 3 = .ok b ∧
      b.identity = "http://xn--bcher-kva.example/x") ∧
    ∃ p, ofAddresses ["bücher.example/x//", "a:1", "HTTP://XN--BCHER-KVA.example:80/x",
        "b%C3%BCcher.example/x"] 0 = .ok p ∧
      p.identities = ["http://xn--bcher-kva.example/x", "http://a:1"] ∧
      (∃ p', ofAddresses ["http://a:1", "http://xn--bcher-kva.example/x", "http://a:1"] 2 = .ok p' ∧
        ∀ i, i ∈ p'.identities ↔ i ∈ p.identities) ∧
      ∀ b, b ∈ p.select ["http://a:1", "http://c"] ↔
        b ∈ p.backends ∧ b.identity ∈ ["http://a:1", "http://c"] := by
  have hb : Backend.ofAddress "bücher.example/x//" 0 =
      .ok ⟨⟨.http, [], [], .domain "xn--bcher-kva.example".toList, none, ⟨[['x'], []], []⟩, none, none⟩,
        "http://xn--bcher-kva.example/x", 0⟩ := by
    decide +kernel
  have hp : ofAddresses ["bücher.example/x//", "a:1", "HTTP://XN--BCHER-KVA.example:80/x",
      "b%C3%BCcher.example/x"] 0 =
      .ok ⟨[⟨⟨.http, [], [], .domain "xn--bcher-kva.example".toList, none, ⟨[['x'], []], []⟩, none, none⟩,
          "http://xn--bcher-kva.example/x", 0⟩,
        ⟨⟨.http, [], [], .domain ['a'], some 1, {}, none, none⟩, "http://a:1", 0⟩], 0⟩ := by
    decide +kernel
  have hstands := (identities_normal.2 _ _).2 _ hp
  refine ⟨identities_normal.1 _ _ _ hb 3, _, hp, rfl, hstands.again _ 2 ?_, (hstands.selects _ ?_).2⟩
  · simp [identities, or_comm]
  · simp

end Pool

end MetricFanout
