import MetricFanout.Proofs.Engine.Budget
/-!
# Runs in which no call is lost

Calls that have ended hand over what they have counted and leave; no call is given up. Requests that are made
at once and run to the end are served in this sense, one batch after the other.

A call may leave at any time after its end and from any place, so that nothing is assumed of the order in
which results are taken. Batches need more: that every call has ended when nothing happens any more. That is
what the time limit is for.
-/

namespace MetricFanout

namespace Run

/-- The runs of an engine in which no call is lost, with what the calls that have left have counted. -/
inductive Served (e : Engine) : List Stats → Run → Prop where
  | start : Served e [] ⟨.ofEngine e, []⟩
  | move {past : List Stats} {r q : Run} {events : List Event} (h : Served e past r)
      (m : Move r events q) (hkept : r.calls.length ≤ q.calls.length) : Served e past q
  | report {past : List Stats} {s : Session} {before after : List Call} {c : Call}
      {result : Except CallError CallResult} {stats : Stats}
      (h : Served e past ⟨s, before ++ c :: after⟩) (hresult : c.result? = some (result, stats)) :
      Served e (past ++ [stats]) ⟨s, before ++ after⟩

variable {e : Engine} {past : List Stats} {r q : Run} {behaviour : Behaviour}

theorem Served.reach (h : Served e past r) : ∃ log, Reach ⟨.ofEngine e, []⟩ log r := by
  induction h with
  | start => exact ⟨[], .refl⟩
  | move _ m _ ih =>
      obtain ⟨log, hlog⟩ := ih
      exact ⟨_, hlog.move m⟩
  | @report past s before after c result stats _ _ ih =>
      obtain ⟨log, hlog⟩ := ih
      have hsub : (before ++ after).Sublist (before ++ c :: after) :=
        (List.sublist_cons_self c after).append_left before
      exact ⟨_, hlog.move (.leave (r := ⟨s, before ++ c :: after⟩) hsub)⟩

/-! ## Batches -/

theorem Served.startAll {s : Session} {calls : List Call} (h : Served e past ⟨s, calls⟩)
    (behaviour : Behaviour) (requests : List Request) :
    Served e past
      ⟨(startAll s behaviour requests).2, calls ++ (startAll s behaviour requests).1⟩ := by
  induction requests generalizing s calls with
  | nil =>
      simp only [Run.startAll, List.append_nil]
      exact h
  | cons request rest ih =>
      have hfirst := h.move (.call ⟨s, calls⟩ behaviour request) (by simp)
      have hrest := ih hfirst
      rw [List.append_assoc] at hrest
      exact hrest

theorem length_step? (h : r.step? behaviour = some q) : q.calls.length = r.calls.length := by
  rcases step?_cases h with ⟨f, rest, _, rfl⟩ | ⟨_, ev, _, rfl⟩
  · exact length_receiveAll _ _ _ _
  · rfl

theorem Served.finish (h : Served e past r) (behaviour : Behaviour) :
    Served e past (r.finish behaviour) := by
  fun_induction Run.finish behaviour r with
  | case1 r _ => exact h
  | case2 r q hstep ih => exact ih (h.move (.step behaviour hstep) (Nat.le_of_eq (length_step? hstep).symm))

/-- Calls that have all ended leave one after the other. -/
theorem Served.reports {s : Session} {calls : List Call} (h : Served e past ⟨s, calls⟩)
    (hended : ∀ c ∈ calls, c.result?.isSome = true) (now : Nat) :
    Served e (past ++ calls.map fun c => (c.report now).stats) ⟨s, []⟩ := by
  induction calls generalizing past with
  | nil =>
      rw [List.map_nil, List.append_nil]
      exact h
  | cons c rest ih =>
      obtain ⟨hc, hrest⟩ := List.forall_mem_cons.1 hended
      obtain ⟨⟨result, stats⟩, hresult⟩ := Option.isSome_iff_exists.1 hc
      have hstats : (c.report now).stats = stats := by simp only [Call.report, hresult]
      have hfirst : Served e past ⟨s, [] ++ c :: rest⟩ := h
      have hleft : Served e (past ++ [stats]) ⟨s, rest⟩ := hfirst.report hresult
      rw [List.map_cons, hstats, List.append_cons]
      exact ih hleft hrest

/-! ## All calls end -/

theorem startAll_append (s : Session) (behaviour : Behaviour) (requests later : List Request) :
    startAll s behaviour (requests ++ later) =
      ((startAll s behaviour requests).1 ++
          (startAll (startAll s behaviour requests).2 behaviour later).1,
        (startAll (startAll s behaviour requests).2 behaviour later).2) := by
  induction requests generalizing s with
  | nil => rfl
  | cons request rest ih => simp only [List.cons_append, startAll, ih]

theorem length_startAll (s : Session) (behaviour : Behaviour) (requests : List Request) :
    (startAll s behaviour requests).1.length = requests.length := by
  induction requests generalizing s with
  | nil => rfl
  | cons request rest ih => simp only [startAll, List.length_cons, ih]

theorem length_finish (behaviour : Behaviour) (r : Run) :
    (r.finish behaviour).calls.length = r.calls.length := by
  fun_induction finish behaviour r with
  | case1 r _ => rfl
  | case2 r q hstep ih => exact ih.trans (length_step? hstep)

end Run

/-- A call may be watched while further calls start. -/
theorem Watch.Course.startAll {may : Session → Nat → Prop} {r : Run} {behaviour : Behaviour}
    {request : Request} {own all : List Deed} {w : Watch}
    (h : Course may r behaviour request own all w) (later : Behaviour) (requests : List Request) :
    ∃ own all v, Course may r behaviour request own all v ∧
      v.run = ⟨(Run.startAll w.session later requests).2,
        w.run.calls ++ (Run.startAll w.session later requests).1⟩ ∧
      v.before.length = w.before.length := by
  induction requests generalizing own all w with
  | nil => exact ⟨own, all, w, h, by simp only [Run.startAll, List.append_nil]; rfl, rfl⟩
  | cons next rest ih =>
      obtain ⟨own', all', v, hv, hrun, hplace⟩ := ih (h.move (.call w later next))
      refine ⟨own', all', v, hv, hrun.trans ?_, hplace⟩
      simp [Watch.run, Run.startAll]

namespace Run

/-- When requests that are made at once have been run to the end, the call of each of them has ended. -/
theorem ended_of_finish (s : Session) (behaviour : Behaviour) (before : List Request)
    (request : Request) (after : List Request) :
    ∃ c, (finish behaviour ⟨(startAll s behaviour (before ++ request :: after)).2,
        (startAll s behaviour (before ++ request :: after)).1⟩).calls[before.length]? = some c ∧
      c.result?.isSome = true := by
  -- The call is watched from its start, behind the calls of the requests before its own.
  have hstart : Watch.Course Session.Prompt
      ⟨(startAll s behaviour before).2, (startAll s behaviour before).1⟩ behaviour request _ _ _ :=
    .start
  obtain ⟨_, _, v, hv, hrun, hplace⟩ := hstart.startAll behaviour after
  obtain ⟨_, _, w, hw, hfinish, hplace'⟩ := hv.finish behaviour
  have hbatch : v.run = ⟨(startAll s behaviour (before ++ request :: after)).2,
      (startAll s behaviour (before ++ request :: after)).1⟩ := by
    rw [hrun, startAll_append]
    simp [Watch.run, Watch.start, startAll]
  have hbefore : w.before.length = before.length :=
    (hplace'.trans hplace).trans (length_startAll s behaviour before)
  have hend : w.run.step? behaviour = none := by
    rw [hfinish]
    exact step?_finish _ _
  obtain ⟨t, ht⟩ := hw.onTime.of_finished hend
  obtain ⟨result, stats, hresult⟩ := hw.onTime.result ht
  refine ⟨w.call, ?_, by rw [hresult]; rfl⟩
  rw [← hbatch, ← hfinish, ← hbefore]
  exact w.getElem?_run

theorem isSome_result?_of_finish (s : Session) (behaviour : Behaviour) (requests : List Request) :
    ∀ c ∈ (finish behaviour
        ⟨(startAll s behaviour requests).2, (startAll s behaviour requests).1⟩).calls,
      c.result?.isSome = true := by
  intro c hc
  obtain ⟨i, hi⟩ := List.mem_iff_getElem?.1 hc
  have hlt : i < requests.length := by
    obtain ⟨hlt, _⟩ := List.getElem?_eq_some_iff.1 hi
    rwa [length_finish, length_startAll] at hlt
  obtain ⟨d, hd, hended⟩ :=
    ended_of_finish s behaviour (requests.take i) requests[i] (requests.drop (i + 1))
  rw [← List.drop_eq_getElem_cons hlt, List.take_append_drop,
    List.length_take_of_le (Nat.le_of_lt hlt), hi] at hd
  rwa [Option.some.inj hd]

/-- Requests that are made at once in a session without calls, and run to the end, are served. -/
theorem Served.run {s : Session} (h : Served e past ⟨s, []⟩) (behaviour : Behaviour)
    (requests : List Request) :
    Served e (past ++ (s.run behaviour requests).1.map CallReport.stats)
      ⟨(s.run behaviour requests).2, []⟩ := by
  have hall := ((h.startAll behaviour requests).finish behaviour).reports
    (isSome_result?_of_finish s behaviour requests)
    (Run.finish behaviour
      ⟨(Run.startAll s behaviour requests).2, (Run.startAll s behaviour requests).1⟩).session.now
  rw [Session.run, List.map_map]
  exact hall

end Run

end MetricFanout
