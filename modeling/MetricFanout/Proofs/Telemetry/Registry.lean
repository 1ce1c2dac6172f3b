import MetricFanout.Telemetry.Registry
/-!
# What has been counted

Counting adds to one counter and leaves the others as they are. What is recorded about a request is a list
of charges, each an amount to be added to a counter, and the charges of a counter add up.

A counter that is not there has the value 0, so that charging nothing changes no value even where it makes
a counter appear.
-/

namespace MetricFanout

/-- The sum of the charges to counters of a kind. -/
def charged (p : Counter → Bool) : List (Counter × Nat) → Nat
  | [] => 0
  | c :: rest => (if p c.1 then c.2 else 0) + charged p rest

@[simp] theorem charged_nil (p : Counter → Bool) : charged p [] = 0 := rfl

@[simp] theorem charged_cons (p : Counter → Bool) (c : Counter × Nat) (rest : List (Counter × Nat)) :
    charged p (c :: rest) = (if p c.1 then c.2 else 0) + charged p rest := rfl

@[simp] theorem charged_append (p : Counter → Bool) (cs ds : List (Counter × Nat)) :
    charged p (cs ++ ds) = charged p cs + charged p ds := by
  induction cs with
  | nil => rw [List.nil_append, charged_nil, Nat.zero_add]
  | cons c rest ih => rw [List.cons_append, charged_cons, charged_cons, ih, Nat.add_assoc]

/-- Counters of other kinds do not matter. -/
theorem charged_eq_zero {p : Counter → Bool} {cs : List (Counter × Nat)}
    (h : ∀ c ∈ cs, p c.1 = false) : charged p cs = 0 := by
  induction cs with
  | nil => rfl
  | cons c rest ih =>
      obtain ⟨hc, hrest⟩ := List.forall_mem_cons.1 h
      simp only [charged_cons, hc, ih hrest, Bool.false_eq_true, if_false]

/-- The counters of a sum are the sums of the counters. -/
theorem Stats.exists_of_mem_toList_add {s t : Stats} {c : String × Nat} (h : c ∈ (s + t).toList) :
    ∃ m n, (c.1, m) ∈ s.toList ∧ (c.1, n) ∈ t.toList ∧ c.2 = m + n := by
  have hadd : s + t = s.add t := rfl
  simp only [hadd, Stats.toList, Stats.add, List.mem_cons, List.not_mem_nil, or_false] at h
  rcases h with rfl | rfl | rfl | rfl | rfl | rfl | rfl | rfl | rfl <;>
    exact ⟨_, _, by simp [Stats.toList], by simp [Stats.toList], rfl⟩

namespace Registry

/-- The value of a counter. -/
def value (r : Registry) (c : Counter) : Nat :=
  ((r.counters.find? fun e => decide (e.1 = c)).map Prod.snd).getD 0

/-- The sum of the values of counters of a kind. -/
def total (r : Registry) (p : Counter → Bool) : Nat := charged p r.counters

theorem value_count (r : Registry) (c : Counter) (n : Nat) (d : Counter) :
    (r.count c n).value d = r.value d + if c = d then n else 0 := by
  unfold value count
  dsimp only
  induction r.counters with
  | nil =>
      by_cases hd : c = d
      · simp [update, hd]
      · simp [update, hd]
  | cons e rest ih =>
      by_cases he : e.1 = c
      · by_cases hd : c = d
        · simp [update, he, hd]
        · simp [update, he, hd]
      · by_cases hd : e.1 = d
        · subst hd
          simp [update, he, Ne.symm he]
        · simpa [update, he, hd] using ih

theorem total_count (r : Registry) (c : Counter) (n : Nat) (p : Counter → Bool) :
    (r.count c n).total p = r.total p + if p c then n else 0 := by
  unfold total count
  dsimp only
  induction r.counters with
  | nil => simp [update]
  | cons e rest ih =>
      by_cases he : e.1 = c
      · subst he
        by_cases hp : p e.1 = true
        · simp [update, hp]; omega
        · simp [update, hp]
      · simp only [update, he, if_false, charged_cons, ih, Nat.add_assoc]

/-- Count several things. -/
def countAll (r : Registry) (charges : List (Counter × Nat)) : Registry :=
  charges.foldl (fun r c => r.count c.1 c.2) r

theorem countAll_cons (r : Registry) (c : Counter × Nat) (rest : List (Counter × Nat)) :
    r.countAll (c :: rest) = (r.count c.1 c.2).countAll rest := rfl

theorem value_countAll (r : Registry) (charges : List (Counter × Nat)) (d : Counter) :
    (r.countAll charges).value d = r.value d + charged (fun c => decide (c = d)) charges := by
  induction charges generalizing r with
  | nil => rfl
  | cons c rest ih =>
      rw [countAll_cons, ih, value_count, charged_cons, Nat.add_assoc]
      simp only [decide_eq_true_eq]

theorem total_countAll (r : Registry) (charges : List (Counter × Nat)) (p : Counter → Bool) :
    (r.countAll charges).total p = r.total p + charged p charges := by
  induction charges generalizing r with
  | nil => rfl
  | cons c rest ih =>
      rw [countAll_cons, ih, total_count, charged_cons, Nat.add_assoc]

/-! ## What is recorded -/

/-- The charges of the counters of a call. -/
def statCharges (s : Stats) : List (Counter × Nat) := s.toList.map fun c => (.stat c.1, c.2)

/-- The charges of an operation that has been answered, well or not: the counters of its call, if there was
one, and the index of its latency bucket. -/
def charges (op : Operation) (stats : List (Counter × Nat)) (ok : Bool) (bucket : Nat) :
    List (Counter × Nat) :=
  [(.requests, 1), (.operationRequests op, 1)] ++ stats ++
    [(if ok then .responses else .errors, 1), (.bucket bucket, 1)]

theorem recordStats_eq (r : Registry) (s : Stats) : r.recordStats s = r.countAll (statCharges s) := by
  rw [recordStats, countAll, statCharges, List.foldl_map]

/-- A rejected operation is charged without a call. -/
theorem counters_rejected (r : Registry) (op : Operation) (ms buckets : Nat) :
    ((r.recordRequest op).recordResponse op ms false buckets).counters =
      (r.countAll (charges op [] false (Bucket.ofMillis ms buckets))).counters := rfl

/-- An operation that was carried out is charged with what its call has counted. -/
theorem counters_answered {α β : Type} (r : Registry) (op : Operation) (s : Stats) (ms : Nat) (ok : Bool)
    (buckets : Nat) (paths : TtlCache α) (searches : TtlCache β) :
    ((((r.recordRequest op).recordStats s).recordResponse op ms ok buckets).recordCaches paths
        searches).counters =
      (r.countAll (charges op (statCharges s) ok (Bucket.ofMillis ms buckets))).counters := by
  have happend : ∀ (r : Registry) (cs ds : List (Counter × Nat)),
      r.countAll (cs ++ ds) = (r.countAll cs).countAll ds := fun r cs ds => List.foldl_append
  rw [charges, happend, happend, ← recordStats_eq]
  rfl

/-! ## How values change -/

/-- What a registry has after charges. -/
structure ChargedWith (r after : Registry) (cs : List (Counter × Nat)) : Prop where
  value : ∀ d, after.value d = r.value d + charged (fun c => decide (c = d)) cs
  total : ∀ p, after.total p = r.total p + charged p cs

theorem chargedWith_of_counters {r after : Registry} {cs : List (Counter × Nat)}
    (h : after.counters = (r.countAll cs).counters) : r.ChargedWith after cs where
  value d := by
    rw [← value_countAll]
    simp only [Registry.value, h]
  total p := by
    rw [← total_countAll]
    simp only [Registry.total, h]

theorem charged_charges (p : Counter → Bool) (op : Operation) (stats : List (Counter × Nat)) (ok : Bool)
    (bucket : Nat) : charged p (charges op stats ok bucket) =
      (if p .requests then 1 else 0) + (if p (.operationRequests op) then 1 else 0) + charged p stats +
        (if p (if ok then .responses else .errors) then 1 else 0) + if p (.bucket bucket) then 1 else 0 := by
  simp only [charges, charged_append, charged_cons, charged_nil]
  omega

/-- The counters of calls are told apart from all others. -/
theorem charged_statCharges_eq_zero {p : Counter → Bool} (h : ∀ name, p (.stat name) = false)
    (s : Stats) : charged p (statCharges s) = 0 := by
  refine charged_eq_zero fun c hc => ?_
  obtain ⟨named, _, rfl⟩ := List.mem_map.1 hc
  exact h named.1

/-- The counters of calls are told apart by their names. -/
theorem charged_statCharges {s : Stats} {c : String × Nat} (h : c ∈ s.toList) :
    charged (fun d => decide (d = .stat c.1)) (statCharges s) = c.2 := by
  simp only [Stats.toList, List.mem_cons, List.not_mem_nil, or_false] at h
  rcases h with rfl | rfl | rfl | rfl | rfl | rfl | rfl | rfl | rfl <;>
    simp [statCharges, Stats.toList]

theorem charged_statCharges_empty (p : Counter → Bool) : charged p (statCharges {}) = 0 := by
  simp [statCharges, Stats.toList]

theorem ChargedWith.value_eq {r after : Registry} {op : Operation} {s : Stats} {ok : Bool} {bucket : Nat}
    (h : r.ChargedWith after (charges op (statCharges s) ok bucket)) {d : Counter}
    (hd : ∀ name, Counter.stat name ≠ d) : after.value d = r.value d +
      ((if Counter.requests = d then 1 else 0) + (if .operationRequests op = d then 1 else 0) +
        (if (if ok then .responses else .errors) = d then 1 else 0) +
          if .bucket bucket = d then 1 else 0) := by
  have hstats : charged (fun c => decide (c = d)) (statCharges s) = 0 :=
    charged_statCharges_eq_zero (fun name => decide_eq_false (hd name)) s
  rw [h.value, charged_charges, hstats]
  simp only [decide_eq_true_eq, Nat.add_zero]

theorem ChargedWith.value_stat {r after : Registry} {op : Operation} {s : Stats} {ok : Bool}
    {bucket : Nat} (h : r.ChargedWith after (charges op (statCharges s) ok bucket)) {c : String × Nat}
    (hc : c ∈ s.toList) : after.value (.stat c.1) = r.value (.stat c.1) + c.2 := by
  rw [h.value, charged_charges, charged_statCharges hc]
  cases ok <;> simp

end Registry

end MetricFanout
