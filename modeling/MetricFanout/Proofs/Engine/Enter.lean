import MetricFanout.Proofs.Engine.PathCache
import MetricFanout.Proofs.Gather.Sound
/-!
# Starting calls

Calls may start at any time, also while others are in progress. Entering a call keeps a session sound: the
path cache recalls the history, the floor accounts for every request, and what was asked is on a ledger.

There is one lemma for each thing that a call may start with. Each of them says which events it adds to
the history and that the ledger only grows, so that what waits for older pages does not change.
-/

namespace MetricFanout

/-! ## Histories that fit -/

/-- A find that is over has started as one that the path cache could not answer, and has heard from
every backend of the pool. -/
structure Harvest.Follows (pool : Pool) (past : List Event) (h : Harvest) : Prop where
  replies : (h.replies.map Reply.backend).Perm pool.identities
  start : ∃ s behaviour deadline, Event.start s behaviour deadline (.find h.query) ∈ past ∧
    s.nextGather = h.gather ∧ (s.engine.paths.get s.now h.query).1 = none

/-- A call starts in a session that recalls what was before, and a find that is over has started. -/
def Event.Fits (e : Engine) (past : List Event) : Event → Prop
  | .start s _ _ _ => s.Recalls e past
  | .harvest h => h.Follows e.pool past

/-- Every event of a history fits what was before it. -/
def Fitting (e : Engine) (log : List Event) : Prop :=
  ∀ pre ev post, log = pre ++ ev :: post → ev.Fits e pre

theorem fitting_nil (e : Engine) : Fitting e [] := by
  intro pre ev post h
  cases pre <;> cases h

theorem Fitting.snoc {e : Engine} {log : List Event} (h : Fitting e log) {ev : Event}
    (hev : ev.Fits e log) : Fitting e (log ++ [ev]) := by
  intro pre ev' post heq
  induction post using List.reverseRecOn with
  | nil =>
      obtain ⟨rfl, hlast⟩ := List.append_inj' heq rfl
      cases hlast
      exact hev
  | append_singleton post last _ =>
      rw [← List.cons_append, ← List.append_assoc] at heq
      exact h pre ev' post (List.append_inj' heq rfl).1

theorem Fitting.of_append {e : Engine} {past future : List Event} (h : Fitting e (past ++ future)) :
    Fitting e past := by
  intro pre ev post hpast
  apply h pre ev (post ++ future)
  rw [hpast, List.append_assoc, List.cons_append]

/-! ## Ledgers that grow -/

/-- A ledger gets new pages, and those that were there stay. -/
structure Ledger.Grows {σ : Type} (asks : Ledger σ) (bound : Nat) (asks' : Ledger σ) (bound' : Nat) :
    Prop where
  le : bound ≤ bound'
  same : ∀ i, i < bound → asks' i = asks i

namespace Ledger.Grows

variable {σ : Type} {asks asks' asks'' : Ledger σ} {bound bound' bound'' : Nat}

theorem refl (asks : Ledger σ) (bound : Nat) : asks.Grows bound asks bound :=
  ⟨Nat.le_refl _, fun _ _ => rfl⟩

theorem trans (h : asks.Grows bound asks' bound') (h' : asks'.Grows bound' asks'' bound'') :
    asks.Grows bound asks'' bound'' := by
  refine ⟨Nat.le_trans h.le h'.le, ?_⟩
  intro i hi
  rw [h'.same i (Nat.lt_of_lt_of_le hi h.le), h.same i hi]

theorem note (asks : Ledger σ) (bound : Nat) (targets : List (Target σ)) :
    asks.Grows bound (asks.note bound targets) (bound + 1) :=
  ⟨Nat.le_succ bound, fun _ hi => asks.note_of_lt targets hi⟩

end Ledger.Grows

/-- A gathering that is over has one reply for each of the targets that the ledger has for it. -/
def Finished.Answers (asks : Ledger Ask) (bound : Nat) (f : Finished Answer) : Prop :=
  f.gather < bound ∧ (f.replies.map Reply.backend).Perm ((asks f.gather).map Target.name)

theorem Finished.Answers.grow {asks asks' : Ledger Ask} {bound bound' : Nat} {f : Finished Answer}
    (h : f.Answers asks bound) (hg : asks.Grows bound asks' bound') : f.Answers asks' bound' := by
  obtain ⟨hid, hnames⟩ := h
  refine ⟨Nat.lt_of_lt_of_le hid hg.le, ?_⟩
  rw [hg.same f.gather hid]
  exact hnames

/-! ## What calls wait for -/

/-- A find waits for a gathering under whose number it has started. -/
def Branch.Awaits (log : List Event) : Branch → Prop
  | .waiting (.find query) id _ =>
      ∃ s behaviour deadline, Event.start s behaviour deadline (.find query) ∈ log ∧
        s.nextGather = id ∧ (s.engine.paths.get s.now query).1 = none
  | _ => True

/-- The finds of a call have started. -/
def Stage.Awaits (log : List Event) : Stage → Prop
  | .plain b => b.Awaits log
  | .leaves bs => ∀ b ∈ bs, b.Awaits log
  | _ => True

theorem Branch.Awaits.grow {log log' : List Event} {b : Branch} (h : b.Awaits log)
    (hsub : log ⊆ log') : b.Awaits log' := by
  cases b with
  | done _ _ => trivial
  | waiting r id _ =>
      cases r with
      | find _ =>
          obtain ⟨s, behaviour, deadline, hstart, hmiss⟩ := h
          exact ⟨s, behaviour, deadline, hsub hstart, hmiss⟩
      | render _ _ _ => trivial
      | info _ => trivial

theorem Stage.Awaits.grow {log log' : List Event} {stage : Stage} (h : stage.Awaits log)
    (hsub : log ⊆ log') : stage.Awaits log' := by
  cases stage with
  | plain b => exact Branch.Awaits.grow h hsub
  | leaves bs => exact fun b hb => Branch.Awaits.grow (h b hb) hsub
  | completing _ => trivial
  | resolving _ => trivial
  | ended _ => trivial

/-! ## Starting plain calls -/

namespace Session

/-- The targets of a request to backends of the pool. -/
def targetsOf (s : Session) (r : Request) (backends : List Backend) : List (Target Ask) :=
  backends.map fun b => ⟨s.numberOf b, b.identity, ⟨b, r⟩⟩

/-- The session after a look-up in the path cache. -/
def looked (s : Session) (r : Request) : Session :=
  { s with engine := { s.engine with paths := (s.engine.paths.get s.now r.key).2 } }

theorem startPlain_of_known (s : Session) (behaviour : Behaviour) (deadline : Nat) {r : Request}
    {found : List Match} (h : (s.engine.consult s.now r).1 = .known found) :
    s.startPlain behaviour deadline r =
      (.done (.ok (.found found)) (s.engine.consult s.now r).2.1, s.looked r) := by
  simp only [startPlain, h]
  rfl

theorem startPlain_of_ask (s : Session) (behaviour : Behaviour) (deadline : Nat) {r : Request}
    {backends : List Backend} (h : (s.engine.consult s.now r).1 = .ask backends) :
    s.startPlain behaviour deadline r =
      (.waiting r s.nextGather (s.engine.consult s.now r).2.1,
        { s.looked r with
          floor := s.floor.begin behaviour.network s.now s.nextGather
            s.engine.timeouts.afterStartedMs deadline (s.targetsOf r backends)
          nextGather := s.nextGather + 1 }) := by
  simp only [startPlain, h, gather, List.map_map]
  rfl

/-- A find is answered from the path cache or put to the whole pool. -/
theorem consult_find (e : Engine) (now : Nat) (query : String) :
    (e.consult now (.find query)).1 =
      match (e.paths.get now query).1 with
      | none => .ask e.pool.backends
      | some c => .known c.found := by
  simp only [Engine.consult, Request.key]
  cases (e.paths.get now query).1 <;> rfl

theorem names_targetsOf (s : Session) (r : Request) (backends : List Backend) :
    (s.targetsOf r backends).map Target.name = backends.map Backend.identity := by
  rw [targetsOf, List.map_map]
  rfl

end Session

/-- A ledger has the targets of every call that has asked. -/
def Ledger.Tells (asks : Ledger Ask) (bound : Nat) (log : List Event) : Prop :=
  ∀ s behaviour deadline r backends, Event.start s behaviour deadline r ∈ log →
    (s.engine.consult s.now r).1 = .ask backends →
    s.nextGather < bound ∧ asks s.nextGather = s.targetsOf r backends

namespace Ledger.Tells

variable {asks asks' : Ledger Ask} {bound bound' : Nat} {log : List Event}

theorem grow (h : asks.Tells bound log) (hg : asks.Grows bound asks' bound') :
    asks'.Tells bound' log := by
  intro s behaviour deadline r backends hs hask
  obtain ⟨hlt, hasks⟩ := h s behaviour deadline r backends hs hask
  exact ⟨Nat.lt_of_lt_of_le hlt hg.le, (hg.same _ hlt).trans hasks⟩

theorem snoc (h : asks.Tells bound log) {ev : Event}
    (hev : ∀ s behaviour deadline r backends, ev = .start s behaviour deadline r →
      (s.engine.consult s.now r).1 = .ask backends →
      s.nextGather < bound ∧ asks s.nextGather = s.targetsOf r backends) :
    asks.Tells bound (log ++ [ev]) := by
  intro s behaviour deadline r backends hs hask
  cases List.mem_append.1 hs with
  | inl hs => exact h s behaviour deadline r backends hs hask
  | inr hs => exact hev s behaviour deadline r backends (List.mem_singleton.1 hs).symm hask

end Ledger.Tells

namespace Session

/-- A session that recalls its history, accounts for every request, and has put on the ledger what its
calls have asked. -/
structure Sound (e : Engine) (asks : Ledger Ask) (log : List Event) (s : Session) : Prop where
  recalls : s.Recalls e log
  fitting : Fitting e log
  floor : s.floor.Sound asks s.nextGather
  asked : asks.Tells s.nextGather log

namespace Sound

variable {e : Engine} {asks : Ledger Ask} {log : List Event} {s : Session}

/-- A find that the path cache could not answer has asked the whole pool. -/
theorem names_find (h : s.Sound e asks log) {p : Session} {behaviour : Behaviour} {deadline : Nat}
    {query : String} (hp : Event.start p behaviour deadline (.find query) ∈ log)
    (hmiss : (p.engine.paths.get p.now query).1 = none) :
    (asks p.nextGather).map Target.name = e.pool.identities := by
  obtain ⟨pre, post, hlog⟩ := List.append_of_mem hp
  have hp' : p.Recalls e pre := h.fitting pre _ post hlog
  have hask : (p.engine.consult p.now (.find query)).1 = .ask e.pool.backends := by
    rw [consult_find, hmiss, hp'.pool]
  rw [(h.asked p behaviour deadline _ _ hp hask).2, names_targetsOf]
  rfl

theorem startPlain (h : s.Sound e asks log) (behaviour : Behaviour) (deadline : Nat) (r : Request) :
    ∃ asks', (s.startPlain behaviour deadline r).2.Sound e asks'
        (log ++ [.start s behaviour deadline r]) ∧
      asks.Grows s.nextGather asks' (s.startPlain behaviour deadline r).2.nextGather ∧
      (s.startPlain behaviour deadline r).1.Awaits (log ++ [.start s behaviour deadline r]) := by
  have hfitting : Fitting e (log ++ [.start s behaviour deadline r]) := h.fitting.snoc h.recalls
  have hlooked : (s.looked r).Recalls e (log ++ [.start s behaviour deadline r]) :=
    h.recalls.look (q := s.looked r) rfl rfl r.key rfl behaviour deadline r
  cases hplan : (s.engine.consult s.now r).1 with
  | known found =>
      rw [startPlain_of_known s behaviour deadline hplan]
      refine ⟨asks, ⟨hlooked, hfitting, h.floor, h.asked.snoc ?_⟩, .refl _ _, trivial⟩
      intro p b d q backends hp hask
      cases hp
      rw [hplan] at hask
      cases hask
  | ask backends =>
      rw [startPlain_of_ask s behaviour deadline hplan]
      have hgrows := Ledger.Grows.note asks s.nextGather (s.targetsOf r backends)
      refine ⟨asks.note s.nextGather (s.targetsOf r backends),
        ⟨?_, hfitting, ?_, (h.asked.grow hgrows).snoc ?_⟩, hgrows, ?_⟩
      · exact hlooked.of_same rfl rfl (Nat.le_refl _)
      · exact h.floor.begin behaviour.network s.now _ deadline _
      · intro p b d q backends' hp hask
        cases hp
        rw [hplan] at hask
        cases hask
        exact ⟨Nat.lt_succ_self _, Ledger.note_self _ _ _⟩
      · cases r with
        | render _ _ _ => trivial
        | info _ => trivial
        | find query =>
            refine ⟨s, behaviour, deadline, List.mem_append_right _ (List.mem_singleton_self _), rfl, ?_⟩
            rw [consult_find] at hplan
            cases hget : (s.engine.paths.get s.now query).1 with
            | none => rfl
            | some c =>
                rw [hget] at hplan
                cases hplan

theorem startLeaves (h : s.Sound e asks log) (behaviour : Behaviour) (deadline : Nat) (r : Request)
    (leaves : List String) :
    ∃ asks', (s.startLeaves behaviour deadline r leaves).2.Sound e asks'
        (log ++ s.leafEvents behaviour deadline r leaves) ∧
      asks.Grows s.nextGather asks' (s.startLeaves behaviour deadline r leaves).2.nextGather ∧
      ∀ b ∈ (s.startLeaves behaviour deadline r leaves).1,
        b.Awaits (log ++ s.leafEvents behaviour deadline r leaves) := by
  induction leaves generalizing s asks log with
  | nil =>
      simp only [leafEvents, List.append_nil]
      exact ⟨asks, h, .refl _ _, fun _ hb => absurd hb List.not_mem_nil⟩
  | cons leaf rest ih =>
      obtain ⟨asks', hfirst, hgrows, hawaits⟩ := h.startPlain behaviour deadline (r.withKey leaf)
      obtain ⟨asks'', hrest, hgrows', hawaits'⟩ := ih hfirst
      rw [List.append_assoc] at hrest hawaits'
      refine ⟨asks'', hrest, hgrows.trans hgrows', ?_⟩
      refine List.forall_mem_cons.2 ⟨hawaits.grow ?_, hawaits'⟩
      apply List.append_subset.2
      constructor
      · exact List.subset_append_left _ _
      · exact List.cons_subset.2 ⟨List.mem_append_right _ List.mem_cons_self, List.nil_subset _⟩

/-- What touches neither the path cache nor the floor. -/
theorem of_same (h : s.Sound e asks log) {q : Session} (hpool : q.engine.pool = s.engine.pool)
    (hpaths : q.engine.paths = s.engine.paths) (hnow : s.now ≤ q.now) (hfloor : q.floor = s.floor)
    (hgather : q.nextGather = s.nextGather) : q.Sound e asks log := by
  refine ⟨h.recalls.of_same hpool hpaths hnow, h.fitting, ?_, ?_⟩
  · rw [hfloor, hgather]
    exact h.floor
  · rw [hgather]
    exact h.asked

theorem gatherSearch (h : s.Sound e asks log) (behaviour : Behaviour) (deadline : Nat)
    (route : SearchRoute Backend) (query : String) :
    ∃ asks', (s.gatherSearch behaviour deadline route query).2.Sound e asks' log ∧
      asks.Grows s.nextGather asks' (s.gatherSearch behaviour deadline route query).2.nextGather := by
  have hgrows := Ledger.Grows.note asks s.nextGather
    [⟨s.engine.pool.size, route.backend.identity, ⟨route.backend, .find query⟩⟩]
  refine ⟨_, ⟨?_, h.fitting, ?_, h.asked.grow hgrows⟩, hgrows⟩
  · exact h.recalls.of_same rfl rfl (Nat.le_refl _)
  · exact h.floor.begin behaviour.network s.now _ deadline _

theorem enterLeaves (h : s.Sound e asks log) (behaviour : Behaviour) (deadline : Nat) (r : Request)
    (leaves : List String) :
    ∃ asks', (s.enterLeaves behaviour deadline r leaves).2.Sound e asks'
        (log ++ s.leafEvents behaviour deadline r leaves) ∧
      asks.Grows s.nextGather asks' (s.enterLeaves behaviour deadline r leaves).2.nextGather ∧
      (s.enterLeaves behaviour deadline r leaves).1.Awaits
        (log ++ s.leafEvents behaviour deadline r leaves) := by
  unfold Session.enterLeaves
  split
  · rename_i hempty
    rw [List.isEmpty_iff.1 hempty]
    simp only [leafEvents, List.append_nil]
    exact ⟨asks, h, .refl _ _, trivial⟩
  · exact h.startLeaves behaviour deadline r leaves

theorem enter (h : s.Sound e asks log) (behaviour : Behaviour) (deadline : Nat) (r : Request) :
    ∃ asks', (s.enter behaviour deadline r).2.2.Sound e asks'
        (log ++ s.enterEvents behaviour deadline r) ∧
      asks.Grows s.nextGather asks' (s.enter behaviour deadline r).2.2.nextGather ∧
      (s.enter behaviour deadline r).1.Awaits (log ++ s.enterEvents behaviour deadline r) := by
  have hplain := h.startPlain behaviour deadline r
  cases hroute : s.engine.route r with
  | plain =>
      simp only [Session.enter, enterEvents, hroute]
      exact hplain
  | completer =>
      cases hsearch : s.engine.search with
      | none =>
          simp only [Session.enter, enterEvents, hroute, hsearch]
          exact hplain
      | some route =>
          obtain ⟨asks', hsound, hgrows⟩ := h.gatherSearch behaviour deadline route r.key
          simp only [Session.enter, enterEvents, hroute, hsearch, List.append_nil]
          exact ⟨asks', hsound, hgrows, trivial⟩
  | search =>
      cases hsearch : s.engine.search with
      | none =>
          simp only [Session.enter, enterEvents, hroute, hsearch]
          exact hplain
      | some route =>
          have hlooked : { s with engine := (s.engine.consultSearch s.now r.key).2.2 }.Sound e asks
              log := h.of_same rfl rfl (Nat.le_refl _) rfl rfl
          simp only [Session.enter, enterEvents, hroute, hsearch]
          cases (s.engine.consultSearch s.now r.key).1 with
          | some leaves => exact hlooked.enterLeaves behaviour deadline r leaves
          | none =>
              obtain ⟨asks', hsound, hgrows⟩ := hlooked.gatherSearch behaviour deadline route r.key
              simp only [List.append_nil]
              exact ⟨asks', hsound, hgrows, trivial⟩

end Sound

end Session

end MetricFanout
