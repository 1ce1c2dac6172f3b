import MetricFanout.Proofs.Engine.Deeds
import MetricFanout.Proofs.Engine.Reach
/-!
# What calls wait for

A call waits for what it has asked and not heard yet. It has a result as soon as it waits for nothing, and
the time of that is noted.

## Implementation notes

A slot is the number of a gathering with the request that it is for. Handing a gathering to a call clears
the slots with its number and adds those of what the call asks then; the laws are equations between lists,
and the stages of a call occur in their proofs only.
-/

namespace MetricFanout

/-- The number of a gathering, and what it is for. -/
abbrev Slot := Nat × Request

/-- The slot of an inquiry. -/
def Inquiry.slot (i : Inquiry) : Slot := (i.gather, i.request)

/-- The slot of a report. -/
def reportSlot (h : Request × Finished Answer) : Slot := (h.2.gather, h.1)

/-- What a sub-call waits for. -/
def Branch.awaited : Branch → List Slot
  | .waiting r id _ => [(id, r)]
  | .done _ _ => []

/-- What a call waits for at a stage. The search backend is asked about the subject of the call. -/
def Stage.awaited (key : String) : Stage → List Slot
  | .completing id => [(id, .find key)]
  | .resolving id => [(id, .find key)]
  | .plain b => b.awaited
  | .leaves bs => bs.flatMap Branch.awaited
  | .ended _ => []

/-- What a call waits for. -/
def Call.awaited (c : Call) : List Slot := c.stage.awaited c.request.key

/-! ## Starting -/

namespace Session

@[simp] theorem heard_plainDeeds (s : Session) (deadline : Nat) (r : Request) :
    heard (s.plainDeeds deadline r) = [] := by
  unfold plainDeeds
  split <;> rfl

@[simp] theorem heard_leafDeeds (s : Session) (behaviour : Behaviour) (deadline : Nat) (r : Request)
    (leaves : List String) : heard (s.leafDeeds behaviour deadline r leaves) = [] := by
  induction leaves generalizing s with
  | nil => rfl
  | cons leaf rest ih => rw [leafDeeds, heard_append, heard_plainDeeds, ih]; rfl

/-- Nothing is heard when a call is entered. -/
@[simp] theorem heard_enterDeeds (s : Session) (behaviour : Behaviour) (deadline : Nat) (r : Request) :
    heard (s.enterDeeds behaviour deadline r) = [] := by
  unfold enterDeeds
  split
  · rfl
  · split
    · exact heard_leafDeeds _ _ _ _ _
    · rfl
  · exact heard_plainDeeds _ _ _

theorem awaited_startPlain (s : Session) (behaviour : Behaviour) (deadline : Nat) (r : Request) :
    (s.startPlain behaviour deadline r).1.awaited =
      (asked (s.plainDeeds deadline r)).map Inquiry.slot := by
  cases hplan : (s.engine.consult s.now r).1 with
  | known found =>
      rw [startPlain_of_known s behaviour deadline hplan, plainDeeds, hplan]
      rfl
  | ask backends =>
      rw [startPlain_of_ask s behaviour deadline hplan, plainDeeds, hplan]
      rfl

theorem awaited_startLeaves (s : Session) (behaviour : Behaviour) (deadline : Nat) (r : Request)
    (leaves : List String) :
    (s.startLeaves behaviour deadline r leaves).1.flatMap Branch.awaited =
      (asked (s.leafDeeds behaviour deadline r leaves)).map Inquiry.slot := by
  induction leaves generalizing s with
  | nil => rfl
  | cons leaf rest ih =>
      rw [leafDeeds, asked_append, List.map_append, ← ih, ← s.awaited_startPlain behaviour]
      rfl

theorem awaited_enterLeaves (s : Session) (behaviour : Behaviour) (deadline : Nat) (r : Request)
    (leaves : List String) (key : String) :
    (s.enterLeaves behaviour deadline r leaves).1.awaited key =
      (asked (s.leafDeeds behaviour deadline r leaves)).map Inquiry.slot := by
  unfold enterLeaves
  split
  · rename_i hempty
    rw [List.isEmpty_iff.1 hempty]
    rfl
  · exact s.awaited_startLeaves behaviour deadline r leaves

/-- A call that is entered waits for what it has asked. -/
theorem awaited_enter (s : Session) (behaviour : Behaviour) (deadline : Nat) (r : Request) :
    (s.enter behaviour deadline r).1.awaited r.key =
      (asked (s.enterDeeds behaviour deadline r)).map Inquiry.slot := by
  have hplain := s.awaited_startPlain behaviour deadline r
  cases hroute : s.engine.route r with
  | plain =>
      simp only [enter, enterDeeds, hroute]
      exact hplain
  | completer =>
      cases hsearch : s.engine.search with
      | none =>
          simp only [enter, enterDeeds, hroute, hsearch]
          exact hplain
      | some route =>
          simp only [enter, enterDeeds, hroute, hsearch]
          rfl
  | search =>
      cases hsearch : s.engine.search with
      | none =>
          simp only [enter, enterDeeds, hroute, hsearch]
          exact hplain
      | some route =>
          simp only [enter, enterDeeds, hroute, hsearch]
          cases (s.engine.consultSearch s.now r.key).1 with
          | some leaves => exact awaited_enterLeaves _ behaviour deadline r leaves r.key
          | none => rfl

/-! ## Deadlines -/

theorem deadline_plainDeeds (s : Session) (deadline : Nat) (r : Request) :
    ∀ i ∈ asked (s.plainDeeds deadline r), i.deadline = deadline := by
  intro i hi
  unfold plainDeeds at hi
  split at hi
  · cases hi
  · rw [List.mem_singleton.1 hi]

theorem deadline_leafDeeds (s : Session) (behaviour : Behaviour) (deadline : Nat) (r : Request)
    (leaves : List String) :
    ∀ i ∈ asked (s.leafDeeds behaviour deadline r leaves), i.deadline = deadline := by
  induction leaves generalizing s with
  | nil => exact fun _ hi => absurd hi List.not_mem_nil
  | cons leaf rest ih =>
      intro i hi
      rw [leafDeeds, asked_append] at hi
      cases List.mem_append.1 hi with
      | inl hi => exact s.deadline_plainDeeds deadline _ i hi
      | inr hi => exact ih _ i hi

/-- Whatever a call asks when it is entered has the deadline of the call. -/
theorem deadline_enterDeeds (s : Session) (behaviour : Behaviour) (deadline : Nat) (r : Request) :
    ∀ i ∈ asked (s.enterDeeds behaviour deadline r), i.deadline = deadline := by
  unfold enterDeeds
  split
  · intro i hi
    rw [List.mem_singleton.1 hi]
    rfl
  · split
    · exact deadline_leafDeeds _ behaviour deadline r _
    · intro i hi
      rw [List.mem_singleton.1 hi]
      rfl
  · exact s.deadline_plainDeeds deadline r

end Session

/-! ## Going on -/

/-- Nothing is asked or heard when leaves are remembered. -/
@[simp] theorem asked_resolveDeeds (time : Nat) (query : String) (leaves : List String) :
    asked (resolveDeeds time query leaves) = [] := by
  cases leaves <;> rfl

@[simp] theorem heard_resolveDeeds (time : Nat) (query : String) (leaves : List String) :
    heard (resolveDeeds time query leaves) = [] := by
  cases leaves <;> rfl

namespace Branch

variable (s : Session) (f : Finished Answer)

theorem asked_deeds (b : Branch) : asked (b.deeds f) = [] := by
  unfold deeds
  split
  · split <;> rfl
  · rfl

theorem asked_deedsAll (bs : List Branch) : asked (bs.flatMap (deeds f)) = [] := by
  induction bs with
  | nil => rfl
  | cons b rest ih => rw [List.flatMap_cons, asked_append, asked_deeds, ih]; rfl

/-- A gathering clears its slot. -/
theorem awaited_receive (b : Branch) :
    (b.receive s f).1.awaited = b.awaited.filter fun w => w.1 ≠ f.gather := by
  cases b with
  | done result stats => rfl
  | waiting r id stats => by_cases hid : id = f.gather <;> simp [receive, awaited, hid]

/-- What is heard is what was waited for. -/
theorem heard_deeds (b : Branch) :
    (heard (b.deeds f)).map reportSlot = b.awaited.filter fun w => w.1 = f.gather := by
  cases b with
  | done result stats => rfl
  | waiting r id stats => by_cases hid : id = f.gather <;> simp [deeds, awaited, reportSlot, hid]

theorem mem_heard_deeds {b : Branch} {h : Request × Finished Answer} (hh : h ∈ heard (b.deeds f)) :
    h.2 = f := by
  unfold deeds at hh
  split at hh
  · split at hh
    · rw [List.mem_singleton.1 hh]
    · cases hh
  · cases hh

theorem mem_heard_deedsAll {bs : List Branch} {h : Request × Finished Answer}
    (hh : h ∈ heard (bs.flatMap (deeds f))) : h.2 = f := by
  induction bs with
  | nil => cases hh
  | cons b rest ih =>
      rw [List.flatMap_cons, heard_append] at hh
      cases List.mem_append.1 hh with
      | inl hh => exact mem_heard_deeds f hh
      | inr hh => exact ih hh

theorem awaited_receiveAll (bs : List Branch) :
    (receiveAll s f bs).1.flatMap awaited =
      (bs.flatMap awaited).filter fun w => w.1 ≠ f.gather := by
  induction bs generalizing s with
  | nil => rfl
  | cons b rest ih =>
      rw [receiveAll, List.flatMap_cons, List.flatMap_cons, List.filter_append, awaited_receive, ih]

theorem heard_deedsAll (bs : List Branch) :
    (heard (bs.flatMap (deeds f))).map reportSlot =
      (bs.flatMap awaited).filter fun w => w.1 = f.gather := by
  induction bs with
  | nil => rfl
  | cons b rest ih =>
      rw [List.flatMap_cons, List.flatMap_cons, heard_append, List.map_append, heard_deeds, ih,
        List.filter_append]

/-- Sub-calls that wait for nothing go on no more. -/
theorem receiveAll_of_done {bs : List Branch} (h : bs.flatMap awaited = []) :
    (receiveAll s f bs).1 = bs := by
  induction bs generalizing s with
  | nil => rfl
  | cons b rest ih =>
      obtain ⟨hb, hrest⟩ := List.append_eq_nil_iff.1 h
      cases b with
      | waiting r id stats => cases hb
      | done result stats => exact congrArg _ (ih _ hrest)

/-- Sub-calls that have all ended have nothing but their results. -/
theorem eq_of_mapM_result? {bs : List Branch} {rs : List (Except CallError CallResult × Stats)}
    (h : bs.mapM result? = some rs) : bs = rs.map fun r => .done r.1 r.2 := by
  induction bs generalizing rs with
  | nil =>
      cases h
      rfl
  | cons b rest ih =>
      rw [List.mapM_cons] at h
      cases b with
      | waiting r id stats => cases h
      | done result stats =>
          simp only [result?, Option.bind_eq_bind, Option.bind_some] at h
          obtain ⟨rs', hrest, hcons⟩ := Option.bind_eq_some_iff.1 h
          cases hcons
          exact congrArg _ (ih hrest)

theorem isSome_result? (b : Branch) : b.result?.isSome = true ↔ b.awaited = [] := by
  cases b <;> simp [result?, awaited]

end Branch

namespace Call

@[simp] theorem request_stamp (c : Call) (now : Nat) : (c.stamp now).request = c.request := by
  unfold stamp
  split <;> rfl

@[simp] theorem deadline_stamp (c : Call) (now : Nat) : (c.stamp now).deadline = c.deadline := by
  unfold stamp
  split <;> rfl

@[simp] theorem awaited_stamp (c : Call) (now : Nat) : (c.stamp now).awaited = c.awaited := by
  rw [awaited, stage_stamp, request_stamp]
  rfl

/-- A call has a result as soon as it waits for nothing. -/
theorem isSome_result? (c : Call) : c.result?.isSome = true ↔ c.awaited = [] := by
  have hall : ∀ bs : List Branch,
      (bs.mapM Branch.result?).isSome = true ↔ bs.flatMap Branch.awaited = [] := by
    intro bs
    induction bs with
    | nil => simp
    | cons b rest ih =>
        rw [List.flatMap_cons, List.append_eq_nil_iff, ← b.isSome_result?, ← ih, List.mapM_cons]
        cases b.result? with
        | none => simp
        | some _ => cases rest.mapM Branch.result? <;> simp
  unfold result? awaited
  cases c.stage with
  | completing id => simp [Stage.awaited]
  | resolving id => simp [Stage.awaited]
  | plain b => simp [Stage.awaited, b.isSome_result?]
  | leaves bs => simp [Stage.awaited, hall]
  | ended result => simp [Stage.awaited]

/-- A call that has started waits for what it has asked. -/
theorem awaited_start (s : Session) (behaviour : Behaviour) (r : Request) :
    (start s behaviour r).1.awaited = (asked (s.startDeeds behaviour r)).map Inquiry.slot := by
  rw [start]
  simp only [awaited_stamp]
  exact s.awaited_enter behaviour _ r

@[simp] theorem request_start (s : Session) (behaviour : Behaviour) (r : Request) :
    (start s behaviour r).1.request = r := by
  simp only [start, request_stamp]

@[simp] theorem deadline_start (s : Session) (behaviour : Behaviour) (r : Request) :
    (start s behaviour r).1.deadline = s.now + s.engine.timeouts.globalMs := by
  simp only [start, deadline_stamp]

section Receive

variable (s : Session) (behaviour : Behaviour) (f : Finished Answer) (c : Call)

/-- A call stays as it is, or goes on to another stage and is stamped. -/
theorem receive_eq_stamp : (c.receive s behaviour f).1 = c ∨ ∃ stage stats,
    (c.receive s behaviour f).1 = ({ c with stage := stage, stats := stats } : Call).stamp s.now := by
  cases hstage : c.stage with
  | completing id =>
      by_cases hid : id = f.gather
      · simp only [receive, hstage, if_pos hid]
        exact .inr ⟨_, _, rfl⟩
      · simp only [receive, hstage, if_neg hid]
        exact .inl trivial
  | resolving id =>
      by_cases hid : id = f.gather
      · simp only [receive, hstage, if_pos hid]
        cases (s.engine.resolve s.now c.request.key f.replies).1 with
        | error err => exact .inr ⟨_, _, rfl⟩
        | ok leaves =>
            have hnow := (Session.acts_enterLeaves (s.resolved c.request.key f) behaviour c.deadline
              c.request leaves).now_eq
            rw [Session.resolved] at hnow
            simp only [hnow]
            exact .inr ⟨_, _, rfl⟩
      · simp only [receive, hstage, if_neg hid]
        exact .inl trivial
  | plain b =>
      simp only [receive, hstage, Branch.receive_now]
      exact .inr ⟨_, _, rfl⟩
  | leaves bs =>
      simp only [receive, hstage, (Branch.acts_receiveAll s behaviour f bs).now_eq]
      exact .inr ⟨_, _, rfl⟩
  | ended result =>
      simp only [receive, hstage]
      exact .inl trivial

@[simp] theorem request_receive : (c.receive s behaviour f).1.request = c.request := by
  rcases c.receive_eq_stamp s behaviour f with h | ⟨stage, stats, h⟩
  · rw [h]
  · rw [h, request_stamp]

@[simp] theorem deadline_receive : (c.receive s behaviour f).1.deadline = c.deadline := by
  rcases c.receive_eq_stamp s behaviour f with h | ⟨stage, stats, h⟩
  · rw [h]
  · rw [h, deadline_stamp]

/-- A gathering clears the slots with its number, and the call waits for what it asks then. -/
theorem awaited_receive : (c.receive s behaviour f).1.awaited =
    (c.awaited.filter fun w => w.1 ≠ f.gather) ++
      (asked (c.deeds s behaviour f)).map Inquiry.slot := by
  cases hstage : c.stage with
  | completing id =>
      by_cases hid : id = f.gather
      · simp only [receive, deeds, hstage, if_pos hid, awaited_stamp]
        simp [awaited, Stage.awaited, hstage, hid]
      · simp [receive, deeds, hstage, awaited, Stage.awaited, hid]
  | resolving id =>
      by_cases hid : id = f.gather
      · have hclear : c.awaited.filter (fun w => w.1 ≠ f.gather) = [] := by
          simp [awaited, Stage.awaited, hstage, hid]
        rw [hclear, List.nil_append]
        simp only [receive, deeds, hstage, if_pos hid]
        cases (s.engine.resolve s.now c.request.key f.replies).1 with
        | error err =>
            simp only [awaited_stamp]
            rfl
        | ok leaves =>
            simp only [awaited_stamp, asked_cons, asked_append, asked_resolveDeeds]
            exact Session.awaited_enterLeaves _ behaviour c.deadline c.request leaves c.request.key
      · simp [receive, deeds, hstage, awaited, Stage.awaited, hid]
  | plain b =>
      simp only [receive, deeds, hstage, awaited_stamp, Branch.asked_deeds, List.map_nil,
        List.append_nil]
      simp only [awaited, Stage.awaited, hstage, Branch.awaited_receive]
  | leaves bs =>
      simp only [receive, deeds, hstage, awaited_stamp, Branch.asked_deedsAll, List.map_nil,
        List.append_nil]
      simp only [awaited, Stage.awaited, hstage, Branch.awaited_receiveAll]
  | ended result => simp [receive, deeds, hstage, awaited, Stage.awaited]

/-- What a call hears is what it has waited for. -/
theorem heard_deeds : (heard (c.deeds s behaviour f)).map reportSlot =
    c.awaited.filter fun w => w.1 = f.gather := by
  cases hstage : c.stage with
  | completing id =>
      by_cases hid : id = f.gather <;>
        simp [deeds, hstage, awaited, Stage.awaited, reportSlot, hid]
  | resolving id =>
      by_cases hid : id = f.gather
      · simp only [deeds, hstage, if_pos hid]
        cases (s.engine.resolve s.now c.request.key f.replies).1 <;>
          simp [hstage, awaited, Stage.awaited, reportSlot, hid]
      · simp [deeds, hstage, awaited, Stage.awaited, hid]
  | plain b =>
      simp only [deeds, hstage, awaited, Stage.awaited, Branch.heard_deeds]
  | leaves bs =>
      simp only [deeds, hstage, awaited, Stage.awaited, Branch.heard_deedsAll]
  | ended result => simp [deeds, hstage, awaited, Stage.awaited]

/-- A call hears nothing but what it is handed. -/
theorem mem_heard_deeds {h : Request × Finished Answer} (hh : h ∈ heard (c.deeds s behaviour f)) :
    h.2 = f := by
  cases hstage : c.stage with
  | completing id =>
      simp only [deeds, hstage] at hh
      split at hh
      · rw [List.mem_singleton.1 hh]
      · cases hh
  | resolving id =>
      simp only [deeds, hstage] at hh
      split at hh
      · rw [heard_cons] at hh
        split at hh
        · rw [heard_append, heard_resolveDeeds, Session.heard_leafDeeds] at hh
          rw [List.mem_singleton.1 hh]
        · rw [List.mem_singleton.1 hh]
      · cases hh
  | plain b =>
      simp only [deeds, hstage] at hh
      exact Branch.mem_heard_deeds f hh
  | leaves bs =>
      simp only [deeds, hstage] at hh
      exact Branch.mem_heard_deedsAll f hh
  | ended result =>
      simp only [deeds, hstage] at hh
      cases hh

/-- Whatever a call asks has the deadline of the call. -/
theorem deadline_deeds : ∀ i ∈ asked (c.deeds s behaviour f), i.deadline = c.deadline := by
  have hnone : ∀ i ∈ ([] : List Inquiry), i.deadline = c.deadline :=
    fun _ hi => absurd hi List.not_mem_nil
  cases hstage : c.stage with
  | completing id =>
      by_cases hid : id = f.gather <;> simp [deeds, hstage, hid]
  | resolving id =>
      by_cases hid : id = f.gather
      · simp only [deeds, hstage, if_pos hid]
        cases (s.engine.resolve s.now c.request.key f.replies).1 with
        | error err => exact hnone
        | ok leaves =>
            simp only [asked_cons, asked_append, asked_resolveDeeds]
            exact Session.deadline_leafDeeds _ behaviour c.deadline c.request leaves
      · simp [deeds, hstage, hid]
  | plain b =>
      simp only [deeds, hstage, Branch.asked_deeds]
      exact hnone
  | leaves bs =>
      simp only [deeds, hstage, Branch.asked_deedsAll]
      exact hnone
  | ended result =>
      simp only [deeds, hstage]
      exact hnone

end Receive

/-! ## When a call ends -/

/-- The time at which a call has ended is noted as soon as it waits for nothing. -/
def Stamped (c : Call) : Prop := c.endedAt.isSome = true ↔ c.awaited = []

theorem stamp_of_ended {c : Call} (h : c.endedAt.isSome = true) (now : Nat) : c.stamp now = c := by
  have hnot : c.endedAt.isNone = false := by simpa using h
  simp [stamp, hnot]

theorem stamped_stamp {c : Call} (h : c.endedAt = none) (now : Nat) :
    (c.stamp now).Stamped ∧ ∀ t, (c.stamp now).endedAt = some t → t = now := by
  rw [Stamped, awaited_stamp, ← isSome_result?]
  cases hresult : c.result?.isSome with
  | true => simp [stamp, h, hresult]
  | false => simp [stamp, h, hresult]

theorem stamped_start (s : Session) (behaviour : Behaviour) (r : Request) :
    (start s behaviour r).1.Stamped ∧
      ∀ t, (start s behaviour r).1.endedAt = some t → t = s.now := by
  have hnow : (start s behaviour r).2.now = s.now := (acts_start s behaviour r).now_eq
  rw [← hnow]
  exact stamped_stamp rfl _

/-- A call that has ended goes on no more. -/
theorem receive_of_ended {c : Call} (hwaits : c.awaited = []) (hended : c.endedAt.isSome = true)
    (s : Session) (behaviour : Behaviour) (f : Finished Answer) :
    (c.receive s behaviour f).1 = c := by
  have hstay : ∀ stage now, c.stage = stage → ({ c with stage := stage } : Call).stamp now = c := by
    rintro _ now rfl
    exact stamp_of_ended hended now
  cases hstage : c.stage with
  | completing id => simp [awaited, Stage.awaited, hstage] at hwaits
  | resolving id => simp [awaited, Stage.awaited, hstage] at hwaits
  | plain b =>
      cases b with
      | waiting r id stats => simp [awaited, Stage.awaited, Branch.awaited, hstage] at hwaits
      | done result stats =>
          simp only [receive, hstage, Branch.receive]
          exact hstay _ _ hstage
  | leaves bs =>
      have hdone : (Branch.receiveAll s f bs).1 = bs := by
        apply Branch.receiveAll_of_done
        rwa [awaited, hstage] at hwaits
      simp only [receive, hstage, hdone]
      exact hstay _ _ hstage
  | ended result => simp only [receive, hstage]

/-- A call that goes on is stamped with the time if it ends. -/
theorem stamped_receive {c : Call} (hc : c.Stamped) (hopen : c.endedAt = none) (s : Session)
    (behaviour : Behaviour) (f : Finished Answer) :
    (c.receive s behaviour f).1.Stamped ∧
      ∀ t, (c.receive s behaviour f).1.endedAt = some t → t = s.now := by
  rcases c.receive_eq_stamp s behaviour f with h | ⟨stage, stats, h⟩
  · rw [h]
    refine ⟨hc, fun t ht => ?_⟩
    rw [hopen] at ht
    cases ht
  · rw [h]
    exact stamped_stamp (c := { c with stage := stage, stats := stats }) hopen s.now

end Call

end MetricFanout
