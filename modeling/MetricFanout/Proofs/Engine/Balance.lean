import Mathlib.Algebra.GroupWithZero.Nat
import MetricFanout.Proofs.Engine.Narrowing
import MetricFanout.Proofs.Engine.Watch
import MetricFanout.Proofs.Reply.Tally
/-!
# The balance of a call

The counters of a call that has ended account for every reply of every gathering that it began: those that
are neither successes nor ordinary misses are counted once, timeouts as such and other failures as errors
of the operation that was asked for.

## Implementation notes

Counters are added up through sub-calls and stages. `Counts` says what a counter has to be like to count
the records of one kind; the induction over the course of a call is done once for all such counters.
-/

namespace MetricFanout

/-- What a gathering recorded about one backend: the operation, and the reply. -/
abbrev Entry := Operation × Reply Answer

/-- All that has been recorded by the gatherings that were heard of. -/
def records (deeds : List Deed) : List Entry :=
  (heard deeds).flatMap fun h => h.2.replies.map fun reply => (h.1.operation, reply)

@[simp] theorem records_append (deeds deeds' : List Deed) :
    records (deeds ++ deeds') = records deeds ++ records deeds' := by
  rw [records, heard_append, List.flatMap_append]
  rfl

/-- What is recorded depends on what is heard. -/
theorem records_of_heard {deeds : List Deed} (h : heard deeds = []) : records deeds = [] := by
  rw [records, h]
  rfl

theorem records_of_report {deeds : List Deed} {r : Request} {f : Finished Answer}
    (h : heard deeds = [(r, f)]) : records deeds = f.replies.map fun reply => (r.operation, reply) := by
  rw [records, h, List.flatMap_singleton]

/-- Every record is a success, an ordinary miss, a timeout, or an error of one of the operations. -/
theorem length_records (entries : List Entry) : entries.length =
    (entries.countP fun x => x.2.isSuccess) + (entries.countP fun x => x.2.isMiss) +
      (entries.countP fun x => x.2.isTimeout) +
      ((entries.countP fun x => x.1 = .find ∧ x.2.isFault) +
        (entries.countP fun x => x.1 = .render ∧ x.2.isFault) +
        (entries.countP fun x => x.1 = .info ∧ x.2.isFault)) := by
  have hkinds := Reply.length_eq_countP (entries.map Prod.snd)
  simp only [List.length_map, List.countP_map, Function.comp_def] at hkinds
  have hfaults : (entries.countP fun x => x.2.isFault) =
      (entries.countP fun x => x.1 = .find ∧ x.2.isFault) +
        (entries.countP fun x => x.1 = .render ∧ x.2.isFault) +
        (entries.countP fun x => x.1 = .info ∧ x.2.isFault) := by
    clear hkinds
    induction entries with
    | nil => rfl
    | cons x rest ih =>
        obtain ⟨op, reply⟩ := x
        simp only [List.countP_cons, ih]
        cases op <;> simp <;> omega
  rw [hkinds, hfaults]

/-! ## Counters -/

/-- A counter that counts the records of one kind, and nothing else. -/
structure Counts (count : Stats → Nat) (kind : Entry → Bool) : Prop where
  zero : count {} = 0
  add : ∀ a b, count (a + b) = count a + count b
  record : ∀ s op (replies : List (Reply Answer)), count (s.recordFailures op replies) =
    count s + (replies.map fun reply => (op, reply)).countP kind
  lookup : ∀ hit, count (Stats.countLookup {} hit) = 0
  searchLookup : ∀ hit, count (Stats.countSearchLookup {} hit) = 0
  search : ∀ s, count (Stats.countSearch s) = count s

theorem counts_timeouts : Counts Stats.timeouts fun x => x.2.isTimeout where
  zero := rfl
  add _ _ := rfl
  record s op replies := by
    rw [Stats.timeouts_recordFailures, List.countP_map]
    rfl
  lookup hit := by cases hit <;> rfl
  searchLookup hit := by cases hit <;> rfl
  search _ := rfl

theorem counts_errors (o : Operation) : Counts (fun s => s.errors o) fun x => x.1 = o ∧ x.2.isFault where
  zero := by cases o <;> rfl
  add a b := by cases o <;> rfl
  record s op replies := by
    rw [Stats.errors_recordFailures, List.countP_map]
    by_cases ho : op = o
    · simp [ho, Function.comp_def]
    · have hno : ¬ o = op := fun h => ho h.symm
      simp [ho, hno, Function.comp_def]
  lookup hit := by cases hit <;> cases o <;> rfl
  searchLookup hit := by cases hit <;> cases o <;> rfl
  search _ := by cases o <;> rfl

/-- What a sub-call has counted so far. -/
def Branch.counted : Branch → Stats
  | .waiting _ _ stats => stats
  | .done _ stats => stats

/-- What a call has counted so far, together with its sub-calls. -/
def Call.counted (c : Call) : Stats :=
  match c.stage with
  | .plain b => c.stats + b.counted
  | .leaves bs => (bs.map Branch.counted).foldl (· + ·) c.stats
  | _ => c.stats

/-- A counter that adds up is added up through sub-calls. -/
theorem Stats.count_foldl {count : Stats → Nat} (hadd : ∀ a b, count (a + b) = count a + count b)
    (ss : List Stats) (a : Stats) :
    count (ss.foldl (· + ·) a) = count a + (ss.map count).sum := by
  induction ss generalizing a with
  | nil => rfl
  | cons s rest ih => rw [List.foldl_cons, ih, hadd, List.map_cons, List.sum_cons, Nat.add_assoc]

section Counts

variable {count : Stats → Nat} {kind : Entry → Bool} (hk : Counts count kind)
include hk

/-! ## Starting -/

namespace Session

theorem count_startPlain (s : Session) (behaviour : Behaviour) (deadline : Nat) (r : Request) :
    count (s.startPlain behaviour deadline r).1.counted = 0 := by
  have hconsult : (s.engine.consult s.now r).2.1 =
      Stats.countLookup {} (s.engine.paths.get s.now r.key).1.isSome := rfl
  cases hplan : (s.engine.consult s.now r).1 with
  | known found =>
      rw [startPlain_of_known s behaviour deadline hplan, hconsult]
      exact hk.lookup _
  | ask backends =>
      rw [startPlain_of_ask s behaviour deadline hplan, hconsult]
      exact hk.lookup _

theorem count_startLeaves (s : Session) (behaviour : Behaviour) (deadline : Nat) (r : Request)
    (leaves : List String) :
    (((s.startLeaves behaviour deadline r leaves).1.map Branch.counted).map count).sum = 0 := by
  induction leaves generalizing s with
  | nil => rfl
  | cons leaf rest ih =>
      have hfirst := count_startPlain hk s behaviour deadline (r.withKey leaf)
      simp only [startLeaves, List.map_cons, List.sum_cons, hfirst]
      exact (Nat.zero_add _).trans (ih _)

/-- Leaves that are entered add nothing to what a call has counted. -/
theorem count_enterLeaves (s : Session) (behaviour : Behaviour) (deadline : Nat) (r : Request)
    (leaves : List String) {c : Call}
    (hc : c.stage = (s.enterLeaves behaviour deadline r leaves).1) :
    count c.counted = count c.stats := by
  unfold enterLeaves at hc
  split at hc
  · rw [Call.counted, hc]
  · rw [Call.counted, hc]
    simp only
    rw [Stats.count_foldl hk.add, count_startLeaves hk, Nat.add_zero]

/-- A call that is entered has counted nothing yet. -/
theorem count_enter (s : Session) (behaviour : Behaviour) (deadline : Nat) (r : Request) {c : Call}
    (hstage : c.stage = (s.enter behaviour deadline r).1)
    (hstats : c.stats = (s.enter behaviour deadline r).2.1) : count c.counted = 0 := by
  have hplain : c.stage = .plain (s.startPlain behaviour deadline r).1 → c.stats = {} →
      count c.counted = 0 := by
    intro hstage hstats
    rw [Call.counted, hstage]
    simp only
    rw [hk.add, hstats, hk.zero, count_startPlain hk]
  cases hroute : s.engine.route r with
  | plain =>
      simp only [enter, hroute] at hstage hstats
      exact hplain hstage hstats
  | completer =>
      cases hsearch : s.engine.search with
      | none =>
          simp only [enter, hroute, hsearch] at hstage hstats
          exact hplain hstage hstats
      | some route =>
          simp only [enter, hroute, hsearch] at hstage hstats
          rw [Call.counted, hstage]
          simp only
          rw [hstats, hk.search, hk.zero]
  | search =>
      cases hsearch : s.engine.search with
      | none =>
          simp only [enter, hroute, hsearch] at hstage hstats
          exact hplain hstage hstats
      | some route =>
          have hlookup : (s.engine.consultSearch s.now r.key).2.1 =
              Stats.countSearchLookup {} (s.engine.searches.get s.now r.key).1.isSome := rfl
          simp only [enter, hroute, hsearch] at hstage hstats
          cases hleaves : (s.engine.consultSearch s.now r.key).1 with
          | some leaves =>
              simp only [hleaves] at hstage hstats
              rw [count_enterLeaves hk _ behaviour deadline r leaves hstage, hstats, hk.search, hlookup,
                hk.searchLookup]
          | none =>
              simp only [hleaves] at hstage hstats
              rw [Call.counted, hstage]
              simp only
              rw [hstats, hk.search, hlookup, hk.searchLookup]

end Session

/-! ## Going on -/

namespace Branch

/-- A sub-call counts what it hears. -/
theorem count_receive (s : Session) (f : Finished Answer) (b : Branch) :
    count (b.receive s f).1.counted = count b.counted + (records (b.deeds f)).countP kind := by
  cases b with
  | done result stats => rfl
  | waiting r id stats =>
      by_cases hid : id = f.gather
      · have hrecords : records (Branch.deeds f (.waiting r id stats)) =
            f.replies.map fun reply => (r.operation, reply) := by
          apply records_of_report
          rw [deeds, if_pos hid]
          rfl
        rw [hrecords]
        simp only [receive, if_pos hid, counted]
        exact hk.record _ _ _
      · simp only [receive, deeds, if_neg hid]
        rfl

theorem count_receiveAll (s : Session) (f : Finished Answer) (bs : List Branch) :
    (((receiveAll s f bs).1.map counted).map count).sum =
      ((bs.map counted).map count).sum + (records (bs.flatMap (deeds f))).countP kind := by
  induction bs generalizing s with
  | nil => rfl
  | cons b rest ih =>
      simp only [receiveAll, List.map_cons, List.sum_cons, List.flatMap_cons, records_append,
        List.countP_append, count_receive hk, ih]
      omega

end Branch

namespace Call

omit hk in
theorem counted_stamp (c : Call) (now : Nat) : (c.stamp now).counted = c.counted := by
  unfold stamp
  split <;> rfl

theorem count_start (s : Session) (behaviour : Behaviour) (r : Request) :
    count (start s behaviour r).1.counted = 0 := by
  rw [start]
  simp only [counted_stamp]
  exact Session.count_enter hk s behaviour _ r rfl rfl

/-- A call counts what it hears. -/
theorem count_receive (s : Session) (behaviour : Behaviour) (f : Finished Answer) (c : Call) :
    count (c.receive s behaviour f).1.counted =
      count c.counted + (records (c.deeds s behaviour f)).countP kind := by
  cases hstage : c.stage with
  | completing id =>
      by_cases hid : id = f.gather
      · have hrecords : records (c.deeds s behaviour f) =
            f.replies.map fun reply => (Operation.find, reply) := by
          apply records_of_report (r := .find c.request.key)
          simp [deeds, hstage, hid]
        rw [hrecords]
        simp only [receive, hstage, if_pos hid, counted_stamp]
        simp only [counted, hstage]
        exact hk.record _ _ _
      · simp only [receive, deeds, hstage, if_neg hid]
        rfl
  | resolving id =>
      by_cases hid : id = f.gather
      · have hrecords : records (c.deeds s behaviour f) =
            f.replies.map fun reply => (Operation.find, reply) := by
          apply records_of_report (r := .find c.request.key)
          simp only [deeds, hstage, if_pos hid]
          cases (s.engine.resolve s.now c.request.key f.replies).1 <;> simp
        have hbefore : count c.counted = count c.stats := by simp only [counted, hstage]
        rw [hrecords, hbefore, ← hk.record]
        simp only [receive, hstage, if_pos hid]
        cases (s.engine.resolve s.now c.request.key f.replies).1 with
        | error err =>
            simp only [counted_stamp]
            rfl
        | ok leaves =>
            simp only [counted_stamp]
            exact Session.count_enterLeaves hk (s.resolved c.request.key f) behaviour c.deadline
              c.request leaves (c := { c with
                stage := ((s.resolved c.request.key f).enterLeaves behaviour c.deadline c.request
                  leaves).1
                stats := c.stats.recordFailures .find f.replies }) rfl
      · simp only [receive, deeds, hstage, if_neg hid]
        rfl
  | plain b =>
      simp only [receive, deeds, hstage, counted_stamp]
      simp only [counted, hstage, hk.add, Branch.count_receive hk]
      exact (Nat.add_assoc _ _ _).symm
  | leaves bs =>
      simp only [receive, deeds, hstage, counted_stamp]
      simp only [counted, hstage, Stats.count_foldl hk.add, Branch.count_receiveAll hk]
      exact (Nat.add_assoc _ _ _).symm
  | ended result =>
      simp only [receive, deeds, hstage]
      rfl

end Call

/-- What a call has counted is what has been recorded for it. -/
theorem Watch.Course.count_counted {may : Session → Nat → Prop} {r : Run} {behaviour : Behaviour}
    {request : Request} {own all : List Deed} {w : Watch}
    (h : Course may r behaviour request own all w) :
    count w.call.counted = (records own).countP kind := by
  induction h with
  | start =>
      have hquiet : records (r.session.startDeeds behaviour request) = [] :=
        records_of_heard (Session.heard_enterDeeds _ _ _ _)
      rw [hquiet]
      exact Call.count_start hk _ _ _
  | @move own own' all all' w v _ m ih =>
      rcases m.call_cases with ⟨hcall, rfl⟩ | ⟨later, f, rest, _, rfl, rfl⟩
      · rw [hcall, List.append_nil]
        exact ih
      · rw [records_append, List.countP_append, ← ih]
        exact Call.count_receive hk _ _ _ _

end Counts

/-! ## The balance -/

/-- The counters of a result are those of the call and of all its sub-calls. -/
theorem Call.counted_of_result? {c : Call} {result : Except CallError CallResult} {stats : Stats}
    (h : c.result? = some (result, stats)) : stats = c.counted := by
  unfold result? at h
  unfold counted
  cases hstage : c.stage with
  | completing id =>
      rw [hstage] at h
      cases h
  | resolving id =>
      rw [hstage] at h
      cases h
  | plain b =>
      rw [hstage] at h
      cases b with
      | waiting r id stats => cases h
      | done result stats =>
          cases h
          rfl
  | leaves bs =>
      rw [hstage] at h
      obtain ⟨rs, hrs, hpair⟩ := Option.map_eq_some_iff.1 h
      cases hpair
      simp only
      rw [Branch.eq_of_mapM_result? hrs, List.map_map]
      rfl
  | ended result =>
      rw [hstage] at h
      cases h
      rfl

/-- A call of an engine, in any run and on any route, that has ended with a result or an error: it has heard
exactly once of each of its gatherings, which recorded one reply for each backend that was asked, and its
counters account for all that was recorded. A record is a success, an ordinary miss, which is not counted,
a timeout, or an error of the operation that was asked for. -/
theorem Watch.Course.balance {e : Engine} {log : List Event} {r : Run}
    (hr : Run.Reach ⟨.ofEngine e, []⟩ log r) {may : Session → Nat → Prop} {behaviour : Behaviour}
    {request : Request} {own all : List Deed} {w : Watch}
    (h : Course may r behaviour request own all w) {result : Except CallError CallResult}
    {stats : Stats} (hresult : w.call.result? = some (result, stats)) :
    (((heard own).map reportSlot).Perm ((asked own).map Inquiry.slot) ∧
      ((asked own).map Inquiry.gather).Nodup ∧
      ∀ i ∈ asked own, ∃ f, (i.request, f) ∈ heard own ∧ f.gather = i.gather ∧
        (f.replies.map Reply.backend).Perm (i.backends.map Backend.identity)) ∧
    (records own).length = ((records own).countP fun x => x.2.isSuccess) +
      ((records own).countP fun x => x.2.isMiss) + stats.timeouts + stats.findErrors +
        stats.renderErrors + stats.infoErrors ∧
    stats.timeouts = ((records own).countP fun x => x.2.isTimeout) ∧
    ∀ op, stats.errors op = (records own).countP fun x => x.1 = op ∧ x.2.isFault := by
  obtain ⟨asks, hfloor⟩ := Run.floor_sound_of_reach hr
  obtain ⟨asks', haccounts⟩ := h.accounts hfloor
  have hstats := Call.counted_of_result? hresult
  have htimeouts : stats.timeouts = (records own).countP fun x => x.2.isTimeout := by
    rw [hstats]
    exact h.count_counted counts_timeouts
  have herrors : ∀ op, stats.errors op = (records own).countP fun x => x.1 = op ∧ x.2.isFault := by
    intro op
    rw [hstats]
    exact h.count_counted (counts_errors op)
  have hslots : ((heard own).map reportSlot).Perm ((asked own).map Inquiry.slot) := by
    have hslots := h.slots
    rw [(Call.isSome_result? w.call).1 (by rw [hresult]; rfl), List.append_nil] at hslots
    exact hslots.symm
  refine ⟨⟨hslots, haccounts.nodup, ?_⟩, ?_, htimeouts, herrors⟩
  · intro i hi
    obtain ⟨⟨req, f⟩, hf, hslot⟩ := List.mem_map.1 (hslots.mem_iff.2 (List.mem_map_of_mem hi))
    obtain ⟨hgather, hreq⟩ := Prod.mk.inj hslot
    refine ⟨f, ?_, hgather, haccounts.replies hi hf hgather⟩
    have hrequest : req = i.request := hreq
    rw [← hrequest]
    exact hf
  · rw [length_records, ← htimeouts, ← herrors, ← herrors, ← herrors]
    simp only [Stats.errors]
    omega

/-- A find of which one backend knows nothing. -/
theorem Watch.Course.balance_pair : ∃ own all w result stats,
    Course Session.Prompt ⟨.ofEngine Pair.engine, []⟩ Pair.behaviour (.find "a*") own all w ∧
      w.call.result? = some (result, stats) ∧
      (records own).length = ((records own).countP fun x => x.2.isSuccess) +
        ((records own).countP fun x => x.2.isMiss) + stats.timeouts + stats.findErrors +
          stats.renderErrors + stats.infoErrors := by
  have hstart : Course Session.Prompt ⟨.ofEngine Pair.engine, []⟩ Pair.behaviour (.find "a*") _ _ _ :=
    .start
  have hended : (Pair.found.calls[0]?.bind Call.result?).isSome = true := by decide +kernel
  obtain ⟨⟨result, stats⟩, hended⟩ := Option.isSome_iff_exists.1 hended
  obtain ⟨own, all, w, hw, hresult⟩ :=
    hstart.ended_of_steps Pair.behaviour 3 hended
  exact ⟨own, all, w, result, stats, hw, hresult, (balance .refl hw hresult).2.1⟩

end MetricFanout
