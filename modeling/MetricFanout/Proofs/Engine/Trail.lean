import MetricFanout.Proofs.Engine.Marks
import MetricFanout.Proofs.Engine.Watch
/-!
# The trail of a call

A call that is followed among others leaves a trail: its marks between those of other calls and of purges,
in order of time. The caches are what the whole trail has made of them.

A trail is a course with marks instead of deeds, and every course has one. Laws about the call alone go by
`Trail.own_induction`, in which other calls do not occur.
-/

namespace MetricFanout

/-- A mark, and whether it belongs to the call that is followed. -/
structure Footprint where
  own : Bool
  mark : Mark

namespace Footprint

/-- The marks of the call. -/
def owned (marks : List Mark) : List Footprint := marks.map (⟨true, ·⟩)

/-- The marks of others. -/
def foreign (marks : List Mark) : List Footprint := marks.map (⟨false, ·⟩)

end Footprint

open Footprint (owned foreign)

/-- All marks of a trail. -/
def allMarks (log : List Footprint) : List Mark := log.map Footprint.mark

/-- What the call has left. -/
def ownMarks (log : List Footprint) : List Mark := (log.filter Footprint.own).map Footprint.mark

/-- What would be there without the call. -/
def otherMarks (log : List Footprint) : List Mark :=
  (log.filter fun x => !x.own).map Footprint.mark

section Lists

variable (log log' : List Footprint) (marks : List Mark)

@[simp] theorem allMarks_append : allMarks (log ++ log') = allMarks log ++ allMarks log' :=
  List.map_append

@[simp] theorem ownMarks_append : ownMarks (log ++ log') = ownMarks log ++ ownMarks log' := by
  simp only [ownMarks, List.filter_append, List.map_append]

@[simp] theorem allMarks_owned : allMarks (owned marks) = marks := by
  simp [allMarks, owned, Function.comp_def]

@[simp] theorem allMarks_foreign : allMarks (foreign marks) = marks := by
  simp [allMarks, foreign, Function.comp_def]

@[simp] theorem ownMarks_owned : ownMarks (owned marks) = marks := by
  simp [ownMarks, owned, List.filter_map, Function.comp_def]

@[simp] theorem ownMarks_foreign : ownMarks (foreign marks) = [] := by
  simp [ownMarks, foreign, List.filter_map, Function.comp_def]

variable {log}

theorem ownMarks_sublist : (ownMarks log).Sublist (allMarks log) := List.filter_sublist.map _

theorem otherMarks_sublist : (otherMarks log).Sublist (allMarks log) := List.filter_sublist.map _

end Lists

namespace Watch

/-- A move, with the marks that it leaves. Time passes as it may. -/
inductive Step (may : Session → Nat → Prop) : Watch → List Footprint → Watch → Prop where
  | call (w : Watch) (behaviour : Behaviour) (request : Request) :
      Step may w (foreign (w.session.startMarks behaviour request))
        { w with
          session := (Call.start w.session behaviour request).2
          after := w.after ++ [(Call.start w.session behaviour request).1] }
  | handOver {w : Watch} (behaviour : Behaviour) {f : Finished Answer} {rest : List (Finished Answer)}
      (h : w.session.floor.finished = f :: rest) :
      Step may w
        (foreign (Run.marks (w.session.take rest) behaviour f w.before) ++
          (owned (w.call.marks (w.midway behaviour f rest) behaviour f) ++
            foreign (Run.marks (w.call.receive (w.midway behaviour f rest) behaviour f).2 behaviour f
              w.after)))
        (w.handOver behaviour f rest)
  | happen {w : Watch} (behaviour : Behaviour) {e : FloorEvent Ask Answer}
      (h : w.session.floor.finished = []) (hnext : w.session.floor.next? behaviour.network = some e) :
      Step may w [] (w.happen behaviour e)
  | wait {w : Watch} {ms : Nat} (h : may w.session ms) :
      Step may w [] { w with session := w.session.advance ms }
  | purge (w : Watch) :
      Step may w (foreign [.purge w.session.now]) { w with session := w.session.purge.2 }
  /-- Others are given up. -/
  | leave {w : Watch} {before after : List Call} (hbefore : before.Sublist w.before)
      (hafter : after.Sublist w.after) : Step may w [] { w with before := before, after := after }

/-- What a call that starts in a run, and everybody else from then on, has left when the call is watched
later. -/
inductive Trail (may : Session → Nat → Prop) (r : Run) (behaviour : Behaviour) (request : Request) :
    List Footprint → Watch → Prop where
  | start : Trail may r behaviour request (owned (r.session.startMarks behaviour request))
      (.start r behaviour request)
  | step {log log' : List Footprint} {w v : Watch} (h : Trail may r behaviour request log w)
      (m : Step may w log' v) : Trail may r behaviour request (log ++ log') v

variable {may : Session → Nat → Prop} {r : Run} {behaviour : Behaviour} {request : Request}
  {log : List Footprint} {w v : Watch}

/-! ## Trails and courses -/

theorem Step.move (m : Step may w log v) : ∃ own all, Move may w own all v := by
  cases m with
  | call behaviour request => exact ⟨_, _, .call w behaviour request⟩
  | handOver behaviour h => exact ⟨_, _, .handOver behaviour h⟩
  | happen behaviour h hnext => exact ⟨_, _, .happen behaviour h hnext⟩
  | wait h => exact ⟨_, _, .wait h⟩
  | purge => exact ⟨_, _, .purge w⟩
  | leave hbefore hafter => exact ⟨_, _, .leave hbefore hafter⟩

theorem Move.step {own all : List Deed} (m : Move may w own all v) : ∃ log, Step may w log v := by
  cases m with
  | call behaviour request => exact ⟨_, .call w behaviour request⟩
  | handOver behaviour h => exact ⟨_, .handOver behaviour h⟩
  | happen behaviour h hnext => exact ⟨_, .happen behaviour h hnext⟩
  | wait h => exact ⟨_, .wait h⟩
  | purge => exact ⟨_, .purge w⟩
  | leave hbefore hafter => exact ⟨_, .leave hbefore hafter⟩

theorem Trail.course (h : Trail may r behaviour request log w) :
    ∃ own all, Course may r behaviour request own all w := by
  induction h with
  | start => exact ⟨_, _, .start⟩
  | step _ m ih =>
      obtain ⟨_, _, hcourse⟩ := ih
      obtain ⟨_, _, hmove⟩ := m.move
      exact ⟨_, _, hcourse.move hmove⟩

/-- Every course leaves a trail. -/
theorem Course.trail {own all : List Deed} (h : Course may r behaviour request own all w) :
    ∃ log, Trail may r behaviour request log w := by
  induction h with
  | start => exact ⟨_, .start⟩
  | move _ m ih =>
      obtain ⟨_, htrail⟩ := ih
      obtain ⟨_, hstep⟩ := m.step
      exact ⟨_, htrail.step hstep⟩

/-! ## The call -/

/-- What a move does to the call. -/
theorem Step.call_cases (m : Step may w log v) :
    (v.call = w.call ∧ ownMarks log = []) ∨ ∃ later f rest, v = w.handOver later f rest ∧
      ownMarks log = w.call.marks (w.midway later f rest) later f := by
  cases m with
  | call behaviour request => exact .inl ⟨rfl, ownMarks_foreign _⟩
  | @handOver behaviour f rest h => exact .inr ⟨behaviour, f, rest, rfl, by simp⟩
  | happen behaviour h hnext => exact .inl ⟨rfl, rfl⟩
  | wait h => exact .inl ⟨rfl, rfl⟩
  | purge => exact .inl ⟨rfl, ownMarks_foreign _⟩
  | leave hbefore hafter => exact .inl ⟨rfl, rfl⟩

/-- What a call has left depends on the gatherings that it is handed, in sessions whose engines differ at
most in their caches from the one in which it started. -/
theorem Trail.own_induction {P : List Mark → Call → Prop}
    (hstart : P (r.session.startMarks behaviour request) (Call.start r.session behaviour request).1)
    (hreceive : ∀ s later f own c, r.session.Alike s → c.request = request → P own c →
      P (own ++ c.marks s later f) (c.receive s later f).1)
    (h : Trail may r behaviour request log w) : P (ownMarks log) w.call := by
  induction h with
  | start =>
      rw [ownMarks_owned]
      exact hstart
  | @step log log' w v h m ih =>
      obtain ⟨own, all, hcourse⟩ := h.course
      rw [ownMarks_append]
      rcases m.call_cases with ⟨hcall, hown⟩ | ⟨later, f, rest, rfl, hown⟩
      · rw [hcall, hown, List.append_nil]
        exact ih
      · rw [hown]
        have htaken : r.session.Alike (w.session.take rest) := hcourse.alike.trans ⟨rfl, rfl, rfl⟩
        have hmidway := htaken.trans (w.acts_midway later f rest).alike
        exact hreceive _ _ _ _ _ hmidway hcourse.request_eq ih

/-! ## The session -/

/-- Handing a gathering over, the session changes as the marks of all calls say. -/
theorem track_handOver (w : Watch) (behaviour : Behaviour) (f : Finished Answer)
    (rest : List (Finished Answer)) :
    (w.session.take rest).Track behaviour
      (Run.marks (w.session.take rest) behaviour f w.before ++
        (w.call.marks (w.midway behaviour f rest) behaviour f ++
          Run.marks (w.call.receive (w.midway behaviour f rest) behaviour f).2 behaviour f w.after))
      (w.handOver behaviour f rest).session :=
  (Run.track_receiveAll _ behaviour f w.before).trans
    ((w.call.track_receive _ behaviour f).trans (Run.track_receiveAll _ behaviour f w.after))

/-- What a move does to the session: calls leave their marks on it, or caches are purged, or nothing is done
to the caches and no gathering begins. -/
theorem Step.session_cases (m : Step may w log v) :
    (∃ behaviour rest, rest.Sublist w.session.floor.finished ∧
      (w.session.take rest).Track behaviour (allMarks log) v.session) ∨
    (allMarks log = [.purge w.session.now] ∧ v.session = w.session.purge.2) ∨
    (allMarks log = [] ∧ v.session.engine = w.session.engine ∧ w.session.now ≤ v.session.now ∧
      v.session.nextGather = w.session.nextGather ∧
      ∀ asks bound, w.session.floor.Sound asks bound → v.session.floor.Sound asks bound) := by
  cases m with
  | call behaviour request =>
      rw [allMarks_foreign]
      exact .inl ⟨behaviour, _, List.Sublist.refl _, Call.track_start w.session behaviour request⟩
  | @handOver behaviour f rest h =>
      simp only [allMarks_append, allMarks_foreign, allMarks_owned]
      rw [h]
      exact .inl ⟨behaviour, rest, List.sublist_cons_self f rest, w.track_handOver behaviour f rest⟩
  | purge => exact .inr (.inl ⟨rfl, rfl⟩)
  | happen behaviour h hnext =>
      exact .inr (.inr ⟨rfl, rfl, Nat.le_max_left _ _, rfl, fun _ _ hs => hs.happen hnext⟩)
  | wait h => exact .inr (.inr ⟨rfl, rfl, Nat.le_add_right _ _, rfl, fun _ _ hs => hs⟩)
  | leave hbefore hafter => exact .inr (.inr ⟨rfl, rfl, Nat.le_refl _, rfl, fun _ _ hs => hs⟩)

/-- Marks are left at the time of the move. -/
theorem Step.dated (m : Step may w log v) :
    w.session.now ≤ v.session.now ∧ ∀ x ∈ allMarks log, x.time = w.session.now := by
  rcases m.session_cases with ⟨behaviour, rest, _, htrack⟩ | ⟨hlog, hv⟩ | ⟨hlog, _, hle, _⟩
  · exact ⟨Nat.le_of_eq htrack.now_eq.symm, htrack.time_eq⟩
  · rw [hlog, hv]
    exact ⟨Nat.le_refl _, fun x hx => by rw [List.mem_singleton.1 hx]; rfl⟩
  · rw [hlog]
    exact ⟨hle, fun _ hx => absurd hx List.not_mem_nil⟩

/-- A trail is in order of time, and nothing on it is still to come. -/
theorem Trail.dated (h : Trail may r behaviour request log w) :
    (allMarks log).Pairwise (fun x y => x.time ≤ y.time) ∧
      ∀ x ∈ allMarks log, x.time ≤ w.session.now := by
  have hsame : ∀ {t : Nat} {marks : List Mark}, (∀ x ∈ marks, x.time = t) →
      marks.Pairwise fun x y => x.time ≤ y.time := fun hmarks =>
    List.pairwise_of_forall_mem_list fun x hx y hy =>
      Nat.le_of_eq ((hmarks x hx).trans (hmarks y hy).symm)
  induction h with
  | start =>
      have htrack := Call.track_start r.session behaviour request
      rw [allMarks_owned]
      refine ⟨hsame htrack.time_eq, fun x hx => ?_⟩
      exact Nat.le_of_eq ((htrack.time_eq x hx).trans htrack.now_eq.symm)
  | @step log log' w v _ m ih =>
      obtain ⟨hsorted, hpast⟩ := ih
      obtain ⟨hle, htime⟩ := m.dated
      rw [allMarks_append]
      refine ⟨List.pairwise_append.2 ⟨hsorted, hsame htime, fun x hx y hy => ?_⟩, fun x hx => ?_⟩
      · rw [htime y hy]
        exact hpast x hx
      · rcases List.mem_append.1 hx with hx | hx
        · exact Nat.le_trans (hpast x hx) hle
        · rw [htime x hx]
          exact hle

theorem Step.touched (m : Step may w log v) : w.session.Touched (allMarks log) v.session := by
  rcases m.session_cases with ⟨behaviour, rest, _, htrack⟩ | ⟨hlog, hv⟩ | ⟨hlog, hengine, _, _⟩
  · exact ⟨htrack.touched.paths, htrack.touched.searches⟩
  · rw [hlog, hv]
    exact ⟨rfl, rfl⟩
  · rw [hlog]
    exact ⟨congrArg Engine.paths hengine, congrArg Engine.searches hengine⟩

/-- The caches are what the whole trail has made of them. -/
theorem Trail.touched (h : Trail may r behaviour request log w) :
    r.session.Touched (allMarks log) w.session := by
  induction h with
  | start =>
      rw [allMarks_owned]
      exact (Call.track_start r.session behaviour request).touched
  | step _ m ih =>
      rw [allMarks_append]
      exact ih.trans m.touched

/-- Only leaves that exist are remembered, by whomever. -/
theorem Trail.leaves_ne_nil (h : Trail may r behaviour request log w) {time : Nat} {query : String}
    {leaves : List String} (hm : .keep time query leaves ∈ allMarks log) : leaves ≠ [] := by
  induction h with
  | start =>
      rw [allMarks_owned] at hm
      exact (Call.track_start r.session behaviour request).leaves_ne_nil hm
  | @step log log' w v _ m ih =>
      rw [allMarks_append] at hm
      rcases List.mem_append.1 hm with hm | hm
      · exact ih hm
      rcases m.session_cases with ⟨behaviour, rest, _, htrack⟩ | ⟨hlog, _⟩ | ⟨hlog, _⟩
      · exact htrack.leaves_ne_nil hm
      · rw [hlog] at hm
        cases List.mem_singleton.1 hm
      · rw [hlog] at hm
        cases hm

/-- Everything on the floor is accounted for, and all that has been sent is on the ledger. -/
theorem Trail.sound (h : Trail may r behaviour request log w) {asks : Ledger Ask}
    (hr : r.session.floor.Sound asks r.session.nextGather) :
    ∃ asks', w.session.floor.Sound asks' w.session.nextGather ∧
      Session.Pages asks' w.session.nextGather (allMarks log) := by
  induction h with
  | start =>
      obtain ⟨asks', hsound, _, hpages⟩ := (Call.track_start r.session behaviour request).sound hr
      rw [allMarks_owned]
      exact ⟨asks', hsound, hpages⟩
  | @step log log' w v _ m ih =>
      obtain ⟨asks', hsound, hpages⟩ := ih
      rw [allMarks_append]
      rcases m.session_cases with ⟨behaviour, rest, hrest, htrack⟩ | ⟨hlog, hv⟩ |
        ⟨hlog, _, _, hnext, hfloor⟩
      · obtain ⟨asks'', hsound', hgrows, hpages'⟩ := htrack.sound (hsound.take hrest)
        exact ⟨asks'', hsound', (hpages.grow hgrows).append hpages'⟩
      · rw [hlog, hv]
        exact ⟨asks', hsound, hpages.append fun d hd => nomatch List.mem_singleton.1 hd⟩
      · rw [hlog, List.append_nil, hnext]
        exact ⟨asks', hfloor _ _ hsound, hpages⟩

end Watch

end MetricFanout
