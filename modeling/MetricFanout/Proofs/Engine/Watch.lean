import MetricFanout.Proofs.Engine.Waits
/-!
# Following one call

A call starts in any run, and is followed while other calls start, go on and are given up, gatherings end,
time passes and caches are purged. Its course says what it has done so far, and what all calls have done
since it started.

## Implementation notes

The run is split at the call, so that nothing has to be looked up by its place. How long time may pass
before something else happens is a parameter: for most laws it does not matter.
-/

namespace MetricFanout

/-- The session from which results have been taken. -/
def Session.take (s : Session) (rest : List (Finished Answer)) : Session :=
  { s with floor := { s.floor with finished := rest } }

/-- Computation takes no time: time may pass when all results have been taken, up to the first timer. -/
def Session.Prompt (s : Session) (ms : Nat) : Prop :=
  s.floor.finished = [] ∧ ∀ g ∈ s.floor.gathers, s.now + ms ≤ g.2.timer

namespace Run

theorem receiveAll_append (s : Session) (behaviour : Behaviour) (f : Finished Answer)
    (cs ds : List Call) :
    receiveAll s behaviour f (cs ++ ds) =
      ((receiveAll s behaviour f cs).1 ++
          (receiveAll (receiveAll s behaviour f cs).2 behaviour f ds).1,
        (receiveAll (receiveAll s behaviour f cs).2 behaviour f ds).2) := by
  induction cs generalizing s with
  | nil => rfl
  | cons c rest ih =>
      simp only [List.cons_append, receiveAll, ih]

theorem deeds_append (s : Session) (behaviour : Behaviour) (f : Finished Answer) (cs ds : List Call) :
    deeds s behaviour f (cs ++ ds) = deeds s behaviour f cs ++
      deeds (receiveAll s behaviour f cs).2 behaviour f ds := by
  induction cs generalizing s with
  | nil => rfl
  | cons c rest ih =>
      simp only [List.cons_append, deeds, receiveAll, ih, List.append_assoc]

theorem receiveAllEvents_append (s : Session) (behaviour : Behaviour) (f : Finished Answer)
    (cs ds : List Call) : receiveAllEvents s behaviour f (cs ++ ds) =
      receiveAllEvents s behaviour f cs ++
        receiveAllEvents (receiveAll s behaviour f cs).2 behaviour f ds := by
  induction cs generalizing s with
  | nil => rfl
  | cons c rest ih =>
      simp only [List.cons_append, receiveAllEvents, receiveAll, ih, List.append_assoc]

theorem length_receiveAll (s : Session) (behaviour : Behaviour) (f : Finished Answer)
    (cs : List Call) : (receiveAll s behaviour f cs).1.length = cs.length := by
  induction cs generalizing s with
  | nil => rfl
  | cons c rest ih => simp only [receiveAll, List.length_cons, ih]

end Run

/-- A call among others. -/
structure Watch where
  session : Session
  before : List Call
  call : Call
  after : List Call

namespace Watch

/-- The run that is watched. -/
def run (w : Watch) : Run := ⟨w.session, w.before ++ w.call :: w.after⟩

/-- A call starts behind the others. -/
def start (r : Run) (behaviour : Behaviour) (request : Request) : Watch where
  session := (Call.start r.session behaviour request).2
  before := r.calls
  call := (Call.start r.session behaviour request).1
  after := []

/-- The session in which the call is handed a gathering, after the calls before it. -/
def midway (w : Watch) (behaviour : Behaviour) (f : Finished Answer) (rest : List (Finished Answer)) :
    Session :=
  (Run.receiveAll (w.session.take rest) behaviour f w.before).2

/-- Hand a gathering to all calls in turn. -/
def handOver (w : Watch) (behaviour : Behaviour) (f : Finished Answer)
    (rest : List (Finished Answer)) : Watch :=
  let s := w.midway behaviour f rest
  let later := Run.receiveAll (w.call.receive s behaviour f).2 behaviour f w.after
  { session := later.2
    before := (Run.receiveAll (w.session.take rest) behaviour f w.before).1
    call := (w.call.receive s behaviour f).1
    after := later.1 }

/-- Let something happen on the floor. -/
def happen (w : Watch) (behaviour : Behaviour) (e : FloorEvent Ask Answer) : Watch :=
  { w with session := (w.run.happen behaviour e).session }

/-- A move, with what the call does and what all calls do in it. Time passes as it may. -/
inductive Move (may : Session → Nat → Prop) : Watch → List Deed → List Deed → Watch → Prop where
  | call (w : Watch) (behaviour : Behaviour) (request : Request) :
      Move may w [] (w.session.startDeeds behaviour request)
        { w with
          session := (Call.start w.session behaviour request).2
          after := w.after ++ [(Call.start w.session behaviour request).1] }
  | handOver {w : Watch} (behaviour : Behaviour) {f : Finished Answer} {rest : List (Finished Answer)}
      (h : w.session.floor.finished = f :: rest) :
      Move may w (w.call.deeds (w.midway behaviour f rest) behaviour f)
        (Run.deeds (w.session.take rest) behaviour f w.run.calls) (w.handOver behaviour f rest)
  | happen {w : Watch} (behaviour : Behaviour) {e : FloorEvent Ask Answer}
      (h : w.session.floor.finished = []) (hnext : w.session.floor.next? behaviour.network = some e) :
      Move may w [] [] (w.happen behaviour e)
  | wait {w : Watch} {ms : Nat} (h : may w.session ms) :
      Move may w [] [] { w with session := w.session.advance ms }
  | purge (w : Watch) : Move may w [] [] { w with session := w.session.purge.2 }
  /-- Others are given up. -/
  | leave {w : Watch} {before after : List Call} (hbefore : before.Sublist w.before)
      (hafter : after.Sublist w.after) : Move may w [] [] { w with before := before, after := after }

/-- What a call that starts in a run, and what all calls from then on, have done when the call is watched
later. -/
inductive Course (may : Session → Nat → Prop) (r : Run) (behaviour : Behaviour) (request : Request) :
    List Deed → List Deed → Watch → Prop where
  | start : Course may r behaviour request (r.session.startDeeds behaviour request)
      (r.session.startDeeds behaviour request) (.start r behaviour request)
  | move {own own' all all' : List Deed} {w v : Watch} (h : Course may r behaviour request own all w)
      (m : Move may w own' all' v) : Course may r behaviour request (own ++ own') (all ++ all') v

/-! ## Steps of the run -/

section Steps

variable {may : Session → Nat → Prop} {r : Run} {behaviour : Behaviour} {request : Request}
  {own all : List Deed} {w : Watch}

theorem run_handOver (w : Watch) (behaviour : Behaviour) (f : Finished Answer)
    (rest : List (Finished Answer)) :
    (w.handOver behaviour f rest).run = w.run.handOver behaviour f rest := by
  simp only [run, handOver, Run.handOver, Run.receiveAll_append, midway, Run.receiveAll]
  rfl

/-- A step of the run is a move. -/
theorem move_of_step (may : Session → Nat → Prop) {later : Behaviour} {q : Run}
    (h : w.run.step? later = some q) :
    ∃ own all v, Move may w own all v ∧ v.run = q ∧ v.before.length = w.before.length := by
  rcases Run.step?_cases h with ⟨f, rest, hfinished, rfl⟩ | ⟨hfinished, e, hnext, rfl⟩
  · exact ⟨_, _, _, .handOver later hfinished, w.run_handOver later f rest,
      Run.length_receiveAll _ _ _ _⟩
  · exact ⟨_, _, _, .happen later hfinished hnext, rfl, rfl⟩

theorem Course.steps (h : Course may r behaviour request own all w) (later : Behaviour) (n : Nat) :
    ∃ own all v, Course may r behaviour request own all v ∧ v.run = w.run.steps later n ∧
      v.before.length = w.before.length := by
  induction n generalizing own all w with
  | zero => exact ⟨own, all, w, h, rfl, rfl⟩
  | succ n ih =>
      unfold Run.steps
      split
      · rename_i q hq
        obtain ⟨own', all', v, m, rfl, hplace⟩ := move_of_step may hq
        obtain ⟨own'', all'', u, hu, hrun, hplace'⟩ := ih (h.move m)
        exact ⟨own'', all'', u, hu, hrun, hplace'.trans hplace⟩
      · exact ⟨own, all, w, h, rfl, rfl⟩

/-- The call is at its place in the run. -/
theorem getElem?_run (w : Watch) : w.run.calls[w.before.length]? = some w.call := by
  simp [run]

/-- A call that has ended after some steps of the run may be watched then. -/
theorem Course.ended_of_steps (h : Course may r behaviour request own all w) (later : Behaviour)
    (n : Nat) {x : Except CallError CallResult × Stats}
    (hended : (w.run.steps later n).calls[w.before.length]?.bind Call.result? = some x) :
    ∃ own all v, Course may r behaviour request own all v ∧ v.call.result? = some x := by
  obtain ⟨own', all', v, hv, hrun, hplace⟩ := h.steps later n
  rw [← hrun, ← hplace, v.getElem?_run] at hended
  exact ⟨own', all', v, hv, hended⟩

/-- A call may be watched until nothing happens any more. -/
theorem Course.finish (h : Course may r behaviour request own all w) (later : Behaviour) :
    ∃ own all v, Course may r behaviour request own all v ∧ v.run = w.run.finish later ∧
      v.before.length = w.before.length := by
  generalize hq : w.run = q
  fun_induction Run.finish later q generalizing own all w with
  | case1 q _ => exact ⟨own, all, w, h, hq, rfl⟩
  | case2 q q' hstep ih =>
      rw [← hq] at hstep
      obtain ⟨own', all', v, m, hv, hplace⟩ := move_of_step may hstep
      obtain ⟨own'', all'', u, hu, hrun, hplace'⟩ := ih (h.move m) hv
      exact ⟨own'', all'', u, hu, hrun, hplace'.trans hplace⟩

end Steps

/-! ## What the session goes through -/

section Session

variable {may : Session → Nat → Prop} {own all : List Deed} {w v : Watch} {behaviour : Behaviour}

/-- Handing a gathering over, the session changes by what all calls do. -/
theorem acts_handOver (w : Watch) (behaviour : Behaviour) (f : Finished Answer)
    (rest : List (Finished Answer)) :
    (w.session.take rest).Acts behaviour (Run.deeds (w.session.take rest) behaviour f w.run.calls)
      (w.handOver behaviour f rest).session := by
  have hrun : (w.handOver behaviour f rest).session = _ :=
    congrArg Run.session (w.run_handOver behaviour f rest)
  rw [hrun]
  exact Run.acts_receiveAll (w.session.take rest) behaviour f w.run.calls

/-- The same up to the call, which is then handed the gathering, and after it. -/
theorem acts_midway (w : Watch) (behaviour : Behaviour) (f : Finished Answer)
    (rest : List (Finished Answer)) :
    (w.session.take rest).Acts behaviour
      (Run.deeds (w.session.take rest) behaviour f w.before) (w.midway behaviour f rest) :=
  Run.acts_receiveAll _ _ _ _

theorem acts_afterwards (w : Watch) (behaviour : Behaviour) (f : Finished Answer)
    (rest : List (Finished Answer)) :
    ((w.call.receive (w.midway behaviour f rest) behaviour f).2).Acts behaviour
      (Run.deeds (w.call.receive (w.midway behaviour f rest) behaviour f).2 behaviour f w.after)
      (w.handOver behaviour f rest).session :=
  Run.acts_receiveAll _ _ _ _

/-- What the call does is part of what all calls do. -/
theorem deeds_handOver (w : Watch) (behaviour : Behaviour) (f : Finished Answer)
    (rest : List (Finished Answer)) :
    Run.deeds (w.session.take rest) behaviour f w.run.calls =
      Run.deeds (w.session.take rest) behaviour f w.before ++
        (w.call.deeds (w.midway behaviour f rest) behaviour f ++
          Run.deeds (w.call.receive (w.midway behaviour f rest) behaviour f).2 behaviour f w.after) := by
  simp only [run, Run.deeds_append]
  rfl

/-- The pool, the search route and the time limits stay as they are. -/
theorem Move.alike (m : Move may w own all v) : w.session.Alike v.session := by
  cases m with
  | call behaviour request => exact (Call.acts_start w.session behaviour request).alike
  | handOver behaviour h =>
      have htaken : ∀ rest, w.session.Alike (w.session.take rest) := fun _ => ⟨rfl, rfl, rfl⟩
      exact (htaken _).trans (w.acts_handOver behaviour _ _).alike
  | happen behaviour h hnext => exact ⟨rfl, rfl, rfl⟩
  | wait h => exact ⟨rfl, rfl, rfl⟩
  | purge => exact ⟨rfl, rfl, rfl⟩
  | leave hbefore hafter => exact .refl _

theorem Course.alike {r : Run} {request : Request} (h : Course may r behaviour request own all w) :
    r.session.Alike w.session := by
  induction h with
  | start => exact (Call.acts_start r.session behaviour request).alike
  | move _ m ih => exact ih.trans m.alike

/-- What the call has done is among what all calls have done. -/
theorem Course.own_sublist {r : Run} {request : Request}
    (h : Course may r behaviour request own all w) : own.Sublist all := by
  induction h with
  | start => exact List.Sublist.refl _
  | move _ m ih =>
      refine ih.append ?_
      cases m with
      | call behaviour request => exact List.nil_sublist _
      | handOver behaviour h =>
          rw [deeds_handOver]
          exact (List.sublist_append_left _ _).trans (List.sublist_append_right _ _)
      | happen behaviour h hnext => exact List.Sublist.refl _
      | wait h => exact List.Sublist.refl _
      | purge => exact List.Sublist.refl _
      | leave hbefore hafter => exact List.Sublist.refl _

end Session

/-! ## The call -/

section Call

variable {may : Session → Nat → Prop} {r : Run} {behaviour : Behaviour} {request : Request}
  {own all own' all' : List Deed} {w v : Watch}

/-- What a move does to the call. -/
theorem Move.call_cases (m : Move may w own' all' v) :
    (v.call = w.call ∧ own' = []) ∨ ∃ behaviour f rest, w.session.floor.finished = f :: rest ∧
      v = w.handOver behaviour f rest ∧
      own' = w.call.deeds (w.midway behaviour f rest) behaviour f := by
  cases m with
  | call behaviour request => exact .inl ⟨rfl, rfl⟩
  | handOver behaviour h => exact .inr ⟨behaviour, _, _, h, rfl, rfl⟩
  | happen behaviour h hnext => exact .inl ⟨rfl, rfl⟩
  | wait h => exact .inl ⟨rfl, rfl⟩
  | purge => exact .inl ⟨rfl, rfl⟩
  | leave hbefore hafter => exact .inl ⟨rfl, rfl⟩

theorem Course.request_eq (h : Course may r behaviour request own all w) :
    w.call.request = request := by
  induction h with
  | start => exact Call.request_start _ _ _
  | move _ m ih =>
      rcases m.call_cases with ⟨hcall, _⟩ | ⟨_, _, _, _, rfl, _⟩
      · rw [hcall, ih]
      · rw [← ih]
        exact Call.request_receive _ _ _ _

theorem Course.deadline_eq (h : Course may r behaviour request own all w) :
    w.call.deadline = r.session.now + r.session.engine.timeouts.globalMs := by
  induction h with
  | start => exact Call.deadline_start _ _ _
  | move _ m ih =>
      rcases m.call_cases with ⟨hcall, _⟩ | ⟨_, _, _, _, rfl, _⟩
      · rw [hcall, ih]
      · rw [← ih]
        exact Call.deadline_receive _ _ _ _

/-- What the call has asked is what it has heard and what it still waits for. -/
theorem Course.slots (h : Course may r behaviour request own all w) :
    ((asked own).map Inquiry.slot).Perm ((heard own).map reportSlot ++ w.call.awaited) := by
  induction h with
  | start =>
      rw [Session.startDeeds, Session.heard_enterDeeds]
      exact .of_eq (Call.awaited_start _ _ _).symm
  | @move own own' all all' w v _ m ih =>
      rcases m.call_cases with ⟨hcall, rfl⟩ | ⟨later, f, rest, _, rfl, rfl⟩
      · rw [hcall, List.append_nil]
        exact ih
      · rw [asked_append, heard_append, List.map_append, List.map_append, Call.heard_deeds]
        have hcall : (w.handOver later f rest).call.awaited = _ :=
          Call.awaited_receive (w.midway later f rest) later f w.call
        -- What is awaited splits into what this gathering answers and what is still awaited.
        have hsplit := List.filter_append_perm (fun x : Slot => decide (x.1 = f.gather)) w.call.awaited
        simp only [← decide_not] at hsplit
        rw [hcall, List.append_assoc, ← List.append_assoc (List.filter _ _), ← List.append_assoc]
        exact (ih.trans (hsplit.symm.append_left _)).append_right _

/-- Whatever the call asks has its deadline. -/
theorem Course.deadlines (h : Course may r behaviour request own all w) :
    ∀ i ∈ asked own, i.deadline = w.call.deadline := by
  induction h with
  | start =>
      have hdeadline : (Watch.start r behaviour request).call.deadline = _ :=
        Call.deadline_start r.session behaviour request
      rw [hdeadline]
      exact Session.deadline_enterDeeds _ _ _ _
  | @move own own' all all' w v _ m ih =>
      rcases m.call_cases with ⟨hcall, rfl⟩ | ⟨later, f, rest, _, rfl, rfl⟩
      · rw [hcall, List.append_nil]
        exact ih
      · have hdeadline : (w.handOver later f rest).call.deadline = w.call.deadline :=
          Call.deadline_receive _ _ _ _
        intro i hi
        rw [hdeadline]
        rw [asked_append] at hi
        cases List.mem_append.1 hi with
        | inl hi => exact ih i hi
        | inr hi => exact Call.deadline_deeds _ _ _ _ i hi

end Call

/-! ## Requests that are accounted for -/

section Accounts

variable {asks : Ledger Ask} {may : Session → Nat → Prop} {r : Run} {behaviour : Behaviour}
  {request : Request} {own all own' all' : List Deed} {w v : Watch}

/-- Every request on the floor is accounted for, the ledger has the backends of all that the call has
asked, under different numbers, and what it has heard was one reply for each of them. -/
structure Accounts (asks : Ledger Ask) (own : List Deed) (w : Watch) : Prop where
  floor : w.session.floor.Sound asks w.session.nextGather
  lists : Session.Lists asks w.session.nextGather (asked own)
  nodup : ((asked own).map Inquiry.gather).Nodup
  answers : ∀ h ∈ heard own, h.2.Answers asks w.session.nextGather

theorem Accounts.of_same (h : w.Accounts asks own) (hfloor : v.session.floor = w.session.floor)
    (hnext : v.session.nextGather = w.session.nextGather) : v.Accounts asks own := by
  constructor
  case floor =>
    rw [hfloor, hnext]
    exact h.floor
  case lists =>
    rw [hnext]
    exact h.lists
  case nodup => exact h.nodup
  case answers =>
    rw [hnext]
    exact h.answers

theorem Accounts.handOver (h : w.Accounts asks own) (behaviour : Behaviour) {f : Finished Answer}
    {rest : List (Finished Answer)} (hfinished : w.session.floor.finished = f :: rest) :
    ∃ asks', (w.handOver behaviour f rest).Accounts asks'
      (own ++ w.call.deeds (w.midway behaviour f rest) behaviour f) := by
  have htaken : (w.session.take rest).floor.Sound asks (w.session.take rest).nextGather := by
    apply h.floor.take
    rw [hfinished]
    exact List.sublist_cons_self f rest
  have hf : f.Answers asks w.session.nextGather := by
    apply h.floor.finished
    rw [hfinished]
    exact List.mem_cons_self
  have hcall := w.call.acts_receive (w.midway behaviour f rest) behaviour f
  obtain ⟨asks₁, hsound₁, hgrows₁, _⟩ := (w.acts_midway behaviour f rest).sound htaken
  obtain ⟨asks₂, hsound₂, hgrows₂, hlists⟩ := hcall.sound hsound₁
  obtain ⟨asks₃, hsound₃, hgrows₃, _⟩ := (w.acts_afterwards behaviour f rest).sound hsound₂
  have hgrows : asks.Grows w.session.nextGather asks₃ (w.handOver behaviour f rest).session.nextGather :=
    hgrows₁.trans (hgrows₂.trans hgrows₃)
  refine ⟨asks₃, ?_⟩
  constructor
  case floor => exact hsound₃
  case lists =>
    rw [asked_append]
    exact (h.lists.grow hgrows).append (hlists.grow hgrows₃)
  case nodup =>
    rw [asked_append, List.map_append, hcall.numbers.1]
    refine List.nodup_append.2 ⟨h.nodup, List.nodup_range', ?_⟩
    intro a ha b hb hab
    -- Numbers are given out in order: those of the call so far are below all that it is given now.
    obtain ⟨i, hi, rfl⟩ := List.mem_map.1 ha
    have hold : i.gather < w.session.nextGather := (h.lists i hi).1
    have hnew := (List.mem_range'_1.1 hb).1
    have hle : w.session.nextGather ≤ (w.midway behaviour f rest).nextGather := hgrows₁.le
    omega
  case answers =>
    intro d hd
    rw [heard_append] at hd
    cases List.mem_append.1 hd with
    | inl hd => exact (h.answers d hd).grow hgrows
    | inr hd =>
        rw [Call.mem_heard_deeds _ _ _ _ hd]
        exact hf.grow hgrows

theorem Accounts.move (h : w.Accounts asks own) (m : Move may w own' all' v) :
    ∃ asks', v.Accounts asks' (own ++ own') := by
  cases m with
  | call behaviour request =>
      obtain ⟨asks', hsound, hgrows, _⟩ :=
        (Call.acts_start w.session behaviour request).sound h.floor
      rw [List.append_nil]
      exact ⟨asks', hsound, h.lists.grow hgrows, h.nodup, fun d hd => (h.answers d hd).grow hgrows⟩
  | handOver behaviour hfinished => exact h.handOver behaviour hfinished
  | happen behaviour hfinished hnext =>
      rw [List.append_nil]
      exact ⟨asks, h.floor.happen hnext, h.lists, h.nodup, h.answers⟩
  | wait _ =>
      rw [List.append_nil]
      exact ⟨asks, h.of_same rfl rfl⟩
  | purge =>
      rw [List.append_nil]
      exact ⟨asks, h.of_same rfl rfl⟩
  | leave _ _ =>
      rw [List.append_nil]
      exact ⟨asks, h.of_same rfl rfl⟩

/-- A gathering that is over has recorded one reply for each backend that was asked. -/
theorem Accounts.replies (h : w.Accounts asks own) {i : Inquiry} (hi : i ∈ asked own) {r' : Request}
    {f : Finished Answer} (hf : (r', f) ∈ heard own) (hid : f.gather = i.gather) :
    (f.replies.map Reply.backend).Perm (i.backends.map Backend.identity) := by
  have hasked : (asks f.gather).map Target.name = i.backends.map Backend.identity := by
    rw [hid]
    exact (h.lists i hi).2
  have hnames := (h.answers _ hf).2
  rw [hasked] at hnames
  exact hnames

/-- A gathering that was put to a single backend is over with a single reply. -/
theorem Accounts.single (h : w.Accounts asks own) {i : Inquiry} (hi : i ∈ asked own) {r' : Request}
    {f : Finished Answer} (hf : (r', f) ∈ heard own) (hid : f.gather = i.gather) {b : Backend}
    (hb : i.backends = [b]) : ∃ reply, f.replies = [reply] ∧ reply.backend = b.identity := by
  have hnames := h.replies hi hf hid
  rw [hb] at hnames
  obtain ⟨reply, hreplies, hbackend⟩ := List.map_eq_singleton_iff.1 hnames.eq_singleton
  exact ⟨reply, hreplies, hbackend⟩

/-- All that a call asks is accounted for if all requests were when it started. -/
theorem Course.accounts (h : Course may r behaviour request own all w)
    (hr : r.session.floor.Sound asks r.session.nextGather) : ∃ asks', w.Accounts asks' own := by
  induction h with
  | start =>
      have hstart := Call.acts_start r.session behaviour request
      obtain ⟨asks', hsound, _, hlists⟩ := hstart.sound hr
      refine ⟨asks', hsound, hlists, ?_, ?_⟩
      · rw [hstart.numbers.1]
        exact List.nodup_range'
      · rw [Session.startDeeds, Session.heard_enterDeeds]
        exact fun _ hd => absurd hd List.not_mem_nil
  | move _ m ih =>
      obtain ⟨_, haccounts⟩ := ih
      exact haccounts.move m

end Accounts

end Watch

/-! ## Runs of an engine -/

/-- What an engine starts with, and neither deeds nor anything else breaks, holds in every run of it. -/
theorem Run.session_of_reach {P : Session → Prop} {e : Engine} (hstart : P (.ofEngine e))
    (hacts : ∀ behaviour s deeds q, Session.Acts behaviour s deeds q → P s → P q)
    (htake : ∀ s f rest, s.floor.finished = f :: rest → P s → P (s.take rest))
    (hhappen : ∀ (s : Session) (behaviour : Behaviour) ev,
      s.floor.next? behaviour.network = some ev → P s →
        P { s with now := max s.now ev.time, floor := s.floor.happen behaviour.network ev })
    (hadvance : ∀ s ms, P s → P (s.advance ms)) (hpurge : ∀ s, P s → P s.purge.2) {log : List Event}
    {r : Run} (h : Reach ⟨.ofEngine e, []⟩ log r) : P r.session := by
  induction h with
  | refl => exact hstart
  | @move r q log events _ m ih =>
      cases m with
      | call behaviour request => exact hacts _ _ _ _ (Call.acts_start r.session behaviour request) ih
      | wait ms => exact hadvance _ _ ih
      | purge => exact hpurge _ ih
      | leave hsub => exact ih
      | step behaviour hstep =>
          rcases step?_cases hstep with ⟨f, rest, hfinished, rfl⟩ | ⟨_, ev, hnext, rfl⟩
          · exact hacts _ _ _ _ (acts_receiveAll (r.session.take rest) behaviour f r.calls)
              (htake _ f rest hfinished ih)
          · exact hhappen _ behaviour ev hnext ih

/-- In every run of an engine that starts with nothing to do, all requests are accounted for. -/
theorem Run.floor_sound_of_reach {e : Engine} {log : List Event} {r : Run}
    (h : Reach ⟨.ofEngine e, []⟩ log r) :
    ∃ asks, r.session.floor.Sound asks r.session.nextGather := by
  refine session_of_reach (P := fun s => ∃ asks, s.floor.Sound asks s.nextGather)
    ⟨fun _ => [], .ofLimits _ _⟩ ?_ ?_ ?_ (fun _ _ hs => hs) (fun _ hs => hs) h
  · rintro behaviour s deeds q hacts ⟨asks, hs⟩
    obtain ⟨asks', hsound, _⟩ := hacts.sound hs
    exact ⟨asks', hsound⟩
  · rintro s f rest hfinished ⟨asks, hs⟩
    refine ⟨asks, hs.take ?_⟩
    rw [hfinished]
    exact List.sublist_cons_self f rest
  · rintro s behaviour ev hnext ⟨asks, hs⟩
    exact ⟨asks, hs.happen hnext⟩

end MetricFanout
