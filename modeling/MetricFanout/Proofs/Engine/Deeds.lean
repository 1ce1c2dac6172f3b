import MetricFanout.Proofs.Engine.Enter
/-!
# What calls do

A call asks backends, is told by the path cache, hears what a gathering came to, and has the leaves of a
search remembered. These are its deeds. All that a call does to a session it does by its deeds and by
looking into the caches.

## Implementation notes

Deeds are listed by functions that follow those of the engine and add nothing to what they do. `Acts` says
how the session changes meanwhile, one small change after the other; what no change breaks, no call breaks.
-/

namespace MetricFanout

/-- A request that is put to backends: the number under which replies are gathered, and the time at which
they are no longer waited for. -/
structure Inquiry where
  gather : Nat
  request : Request
  backends : List Backend
  deadline : Nat

/-- What a call does. -/
inductive Deed where
  | ask (i : Inquiry)
  /-- The path cache answers a find. -/
  | know (request : Request) (found : List Match)
  /-- A gathering of replies to a request is over. -/
  | hear (request : Request) (f : Finished Answer)
  /-- The leaves that a search query stands for are remembered. -/
  | resolve (time : Nat) (query : String) (leaves : List String)

namespace Deed

/-- What is asked. -/
@[simp] def inquiry? : Deed → Option Inquiry
  | .ask i => some i
  | _ => none

/-- What is heard. -/
@[simp] def report? : Deed → Option (Request × Finished Answer)
  | .hear r f => some (r, f)
  | _ => none

/-- The request that is dealt with, whether anybody has to be asked or not. -/
@[simp] def request? : Deed → Option Request
  | .ask i => some i.request
  | .know r _ => some r
  | _ => none

end Deed

/-- The inquiries among deeds. -/
def asked (deeds : List Deed) : List Inquiry := deeds.filterMap Deed.inquiry?

/-- The reports among deeds. -/
def heard (deeds : List Deed) : List (Request × Finished Answer) := deeds.filterMap Deed.report?

/-- The requests among deeds. -/
def opened (deeds : List Deed) : List Request := deeds.filterMap Deed.request?

section Lists

variable (d : Deed) (deeds deeds' : List Deed)

@[simp] theorem asked_nil : asked [] = [] := rfl

@[simp] theorem heard_nil : heard [] = [] := rfl

@[simp] theorem asked_cons : asked (d :: deeds) = d.inquiry?.toList ++ asked deeds := by
  cases d <;> rfl

@[simp] theorem heard_cons : heard (d :: deeds) = d.report?.toList ++ heard deeds := by
  cases d <;> rfl

@[simp] theorem asked_append : asked (deeds ++ deeds') = asked deeds ++ asked deeds' :=
  List.filterMap_append

@[simp] theorem heard_append : heard (deeds ++ deeds') = heard deeds ++ heard deeds' :=
  List.filterMap_append

@[simp] theorem opened_append : opened (deeds ++ deeds') = opened deeds ++ opened deeds' :=
  List.filterMap_append

variable {deeds}

theorem mem_asked {i : Inquiry} : i ∈ asked deeds ↔ .ask i ∈ deeds := by
  rw [asked, List.mem_filterMap]
  constructor
  · rintro ⟨d, hd, hi⟩
    cases d <;> cases hi
    exact hd
  · exact fun hi => ⟨_, hi, rfl⟩

end Lists

/-! ## Deeds beside the engine -/

namespace Session

/-- A plain call is answered from the path cache, or asks. -/
def plainDeeds (s : Session) (deadline : Nat) (r : Request) : List Deed :=
  match (s.engine.consult s.now r).1 with
  | .known found => [.know r found]
  | .ask backends => [.ask ⟨s.nextGather, r, backends, deadline⟩]

/-- The sub-calls of leaves start one after the other. -/
def leafDeeds (s : Session) (behaviour : Behaviour) (deadline : Nat) (r : Request) :
    List String → List Deed
  | [] => []
  | leaf :: rest =>
      s.plainDeeds deadline (r.withKey leaf) ++
        leafDeeds (s.startPlain behaviour deadline (r.withKey leaf)).2 behaviour deadline r rest

/-- What the search backend is asked. -/
def searchInquiry (s : Session) (deadline : Nat) (route : SearchRoute Backend) (query : String) :
    Inquiry :=
  ⟨s.nextGather, .find query, [route.backend], deadline⟩

/-- The session after a look-up in the search cache. -/
def searched (s : Session) (query : String) : Session :=
  { s with engine := (s.engine.consultSearch s.now query).2.2 }

/-- What a call does when it is entered. -/
def enterDeeds (s : Session) (behaviour : Behaviour) (deadline : Nat) (r : Request) : List Deed :=
  match s.engine.route r, s.engine.search with
  | .completer, some route => [.ask (s.searchInquiry deadline route r.key)]
  | .search, some route =>
      match (s.engine.consultSearch s.now r.key).1 with
      | some leaves => (s.searched r.key).leafDeeds behaviour deadline r leaves
      | none => [.ask (s.searchInquiry deadline route r.key)]
  | _, _ => s.plainDeeds deadline r

/-- What a call does when it starts. -/
def startDeeds (s : Session) (behaviour : Behaviour) (r : Request) : List Deed :=
  s.enterDeeds behaviour (s.now + s.engine.timeouts.globalMs) r

/-- The session after a resolution. -/
def resolved (s : Session) (query : String) (f : Finished Answer) : Session :=
  { s with engine := (s.engine.resolve s.now query f.replies).2 }

end Session

/-- What a sub-call does when it is handed a gathering. -/
def Branch.deeds (f : Finished Answer) : Branch → List Deed
  | .waiting r id _ => if id = f.gather then [.hear r f] else []
  | .done _ _ => []

/-- Leaves are remembered if there are any. -/
def resolveDeeds (time : Nat) (query : String) : List String → List Deed
  | [] => []
  | leaf :: rest => [.resolve time query (leaf :: rest)]

namespace Call

/-- What a call does when it is handed a gathering. -/
def deeds (s : Session) (behaviour : Behaviour) (f : Finished Answer) (c : Call) : List Deed :=
  match c.stage with
  | .completing id => if id = f.gather then [.hear (.find c.request.key) f] else []
  | .resolving id =>
      if id = f.gather then
        .hear (.find c.request.key) f ::
          match (s.engine.resolve s.now c.request.key f.replies).1 with
          | .ok leaves =>
              resolveDeeds s.now c.request.key leaves ++
                (s.resolved c.request.key f).leafDeeds behaviour c.deadline c.request leaves
          | .error _ => []
      else []
  | .plain b => b.deeds f
  | .leaves bs => bs.flatMap (Branch.deeds f)
  | .ended _ => []

end Call

/-- What several calls do when they are handed a gathering. -/
def Run.deeds (s : Session) (behaviour : Behaviour) (f : Finished Answer) : List Call → List Deed
  | [] => []
  | c :: rest => c.deeds s behaviour f ++ deeds (c.receive s behaviour f).2 behaviour f rest

/-! ## Small changes of a session -/

namespace Session

variable {behaviour : Behaviour}

/-- A small change of a session, with what is done. -/
inductive Act (behaviour : Behaviour) : Session → List Deed → Session → Prop where
  /-- The path cache changes. -/
  | change (s : Session) (paths : TtlCache CachedFind) :
      Act behaviour s [] { s with engine := { s.engine with paths := paths } }
  /-- A query is looked up in the search cache. -/
  | search (s : Session) (query : String) : Act behaviour s [] (s.searched query)
  | know (s : Session) (r : Request) (found : List Match) : Act behaviour s [.know r found] s
  | hear (s : Session) (r : Request) (f : Finished Answer) : Act behaviour s [.hear r f] s
  | resolve (s : Session) (query : String) (leaves : List String) :
      Act behaviour s [.resolve s.now query leaves]
        { s with
          engine := { s.engine with searches := s.engine.searches.put s.now query leaves } }
  | ask (s : Session) (deadline : Nat) (r : Request) (backends : List (Nat × Backend)) :
      Act behaviour s [.ask ⟨s.nextGather, r, backends.map Prod.snd, deadline⟩]
        (s.gather behaviour deadline r backends).2

/-- Small changes, one after the other. -/
inductive Acts (behaviour : Behaviour) (s : Session) : List Deed → Session → Prop where
  | refl : Acts behaviour s [] s
  | act {deeds deeds' : List Deed} {q v : Session} (h : Acts behaviour s deeds q)
      (a : Act behaviour q deeds' v) : Acts behaviour s (deeds ++ deeds') v

theorem Act.acts {s q : Session} {deeds : List Deed} (a : Act behaviour s deeds q) :
    Acts behaviour s deeds q := Acts.refl.act a

theorem Acts.trans {s q v : Session} {deeds deeds' : List Deed} (h : Acts behaviour s deeds q)
    (h' : Acts behaviour q deeds' v) : Acts behaviour s (deeds ++ deeds') v := by
  induction h' with
  | refl =>
      rw [List.append_nil]
      exact h
  | act _ a ih =>
      rw [← List.append_assoc]
      exact ih.act a

/-- Changes without deeds come before or after. -/
theorem Acts.after {s q v : Session} {deeds : List Deed} (h : Acts behaviour s [] q)
    (h' : Acts behaviour q deeds v) : Acts behaviour s deeds v := h.trans h'

theorem Acts.before {s q v : Session} {deeds : List Deed} (h : Acts behaviour s deeds q)
    (h' : Acts behaviour q [] v) : Acts behaviour s deeds v := by
  have hall := h.trans h'
  rwa [List.append_nil] at hall

/-! ## Entering -/

theorem acts_startPlain (s : Session) (behaviour : Behaviour) (deadline : Nat) (r : Request) :
    Acts behaviour s (s.plainDeeds deadline r) (s.startPlain behaviour deadline r).2 := by
  have hlooked : Acts behaviour s [] (s.looked r) := (Act.change s _).acts
  cases hplan : (s.engine.consult s.now r).1 with
  | known found =>
      simp only [plainDeeds, startPlain_of_known s behaviour deadline hplan, hplan]
      exact hlooked.after (Act.know _ r found).acts
  | ask backends =>
      simp only [plainDeeds, startPlain_of_ask s behaviour deadline hplan, hplan]
      have hask : Act behaviour (s.looked r) _ _ :=
        .ask (s.looked r) deadline r (backends.map fun b => (s.numberOf b, b))
      simp only [gather, List.map_map, Function.comp_def, List.map_id'] at hask
      exact hlooked.after hask.acts

theorem acts_startLeaves (s : Session) (behaviour : Behaviour) (deadline : Nat) (r : Request)
    (leaves : List String) :
    Acts behaviour s (s.leafDeeds behaviour deadline r leaves)
      (s.startLeaves behaviour deadline r leaves).2 := by
  induction leaves generalizing s with
  | nil => exact .refl
  | cons leaf rest ih => exact (s.acts_startPlain behaviour deadline _).trans (ih _)

theorem acts_enterLeaves (s : Session) (behaviour : Behaviour) (deadline : Nat) (r : Request)
    (leaves : List String) :
    Acts behaviour s (s.leafDeeds behaviour deadline r leaves)
      (s.enterLeaves behaviour deadline r leaves).2 := by
  unfold enterLeaves
  split
  · rename_i hempty
    rw [List.isEmpty_iff.1 hempty]
    exact .refl
  · exact s.acts_startLeaves behaviour deadline r leaves

theorem acts_gatherSearch (s : Session) (behaviour : Behaviour) (deadline : Nat)
    (route : SearchRoute Backend) (query : String) :
    Acts behaviour s [.ask (s.searchInquiry deadline route query)]
      (s.gatherSearch behaviour deadline route query).2 :=
  (Act.ask s deadline (.find query) [(s.engine.pool.size, route.backend)]).acts

theorem acts_enter (s : Session) (behaviour : Behaviour) (deadline : Nat) (r : Request) :
    Acts behaviour s (s.enterDeeds behaviour deadline r) (s.enter behaviour deadline r).2.2 := by
  have hplain := s.acts_startPlain behaviour deadline r
  cases hroute : s.engine.route r with
  | plain =>
      simp only [enter, enterDeeds, hroute]
      exact hplain
  | completer =>
      cases hsearch : s.engine.search with
      | none =>
          simp only [enter, enterDeeds, hroute, hsearch]
          exact hplain
      | some route =>
          simp only [enter, enterDeeds, hroute, hsearch]
          exact s.acts_gatherSearch behaviour deadline route r.key
  | search =>
      cases hsearch : s.engine.search with
      | none =>
          simp only [enter, enterDeeds, hroute, hsearch]
          exact hplain
      | some route =>
          have hsearched : Acts behaviour s [] (s.searched r.key) := (Act.search s r.key).acts
          simp only [enter, enterDeeds, hroute, hsearch]
          cases (s.engine.consultSearch s.now r.key).1 with
          | some leaves => exact hsearched.after (acts_enterLeaves _ behaviour deadline r leaves)
          | none => exact hsearched.after (acts_gatherSearch _ behaviour deadline route r.key)

end Session

/-! ## Going on -/

/-- What the replies of the search backend resolve a query to. -/
def Engine.resolution (replies : List (Reply Answer)) : Except CallError (List String) :=
  match mergeFind (replies.map (Reply.map Answer.found?)) with
  | .ok m => .ok ((m.found.filter Match.isLeaf).map Match.path)
  | .error err => if replies.all isMiss then .ok [] else .error err

theorem Engine.resolve_fst (e : Engine) (now : Nat) (query : String) (replies : List (Reply Answer)) :
    (e.resolve now query replies).1 = resolution replies := by
  unfold resolve resolution
  cases mergeFind (replies.map (Reply.map Answer.found?)) <;> rfl

/-- A resolution is remembered if it leaves anything. -/
theorem Engine.resolve_snd (e : Engine) (now : Nat) (query : String) (replies : List (Reply Answer)) :
    (e.resolve now query replies).2 =
      match resolution replies with
      | .ok (leaf :: rest) => { e with searches := e.searches.put now query (leaf :: rest) }
      | _ => e := by
  unfold resolve resolution
  cases mergeFind (replies.map (Reply.map Answer.found?)) with
  | ok m =>
      dsimp only
      cases (m.found.filter Match.isLeaf).map Match.path with
      | nil => rfl
      | cons leaf rest => rfl
  | error err =>
      dsimp only
      cases replies.all isMiss <;> rfl

/-- What a sub-call makes of the replies is the same for every engine. -/
def Request.conclusion (r : Request) (replies : List (Reply Answer)) : Except CallError CallResult :=
  match r with
  | .find _ => (mergeFind (replies.map (Reply.map Answer.found?))).map fun m => .found m.found
  | .render _ _ _ => (mergeRender (replies.map (Reply.map Answer.fetched?))).map .fetched
  | .info _ => (mergeInfo (replies.map (Reply.map Answer.described?))).map .described

theorem Engine.conclude_fst (e : Engine) (now : Nat) (r : Request) (replies : List (Reply Answer)) :
    (e.conclude now r replies).1 = r.conclusion replies := by
  cases r with
  | find query =>
      simp only [conclude, Request.conclusion]
      cases mergeFind (replies.map (Reply.map Answer.found?)) <;> rfl
  | render _ _ _ => rfl
  | info _ => rfl

/-- A conclusion changes nothing but the path cache. -/
theorem Engine.conclude_snd (e : Engine) (now : Nat) (r : Request) (replies : List (Reply Answer)) :
    ∃ paths, (e.conclude now r replies).2 = { e with paths := paths } := by
  cases r with
  | find query =>
      simp only [conclude]
      split
      · unfold remember
        split
        · exact ⟨e.paths, rfl⟩
        · exact ⟨_, rfl⟩
      · exact ⟨e.paths, rfl⟩
  | render _ _ _ => exact ⟨e.paths, rfl⟩
  | info _ => exact ⟨e.paths, rfl⟩

namespace Branch

theorem acts_receive (s : Session) (behaviour : Behaviour) (f : Finished Answer) (b : Branch) :
    s.Acts behaviour (b.deeds f) (b.receive s f).2 := by
  cases b with
  | done result stats => exact .refl
  | waiting r id stats =>
      by_cases hid : id = f.gather
      · obtain ⟨paths, hpaths⟩ := s.engine.conclude_snd s.now r f.replies
        simp only [deeds, receive, if_pos hid, hpaths]
        exact (Session.Act.hear s r f).acts.before (Session.Act.change s paths).acts
      · simp only [deeds, receive, if_neg hid]
        exact .refl

theorem acts_receiveAll (s : Session) (behaviour : Behaviour) (f : Finished Answer)
    (bs : List Branch) :
    s.Acts behaviour (bs.flatMap (Branch.deeds f)) (receiveAll s f bs).2 := by
  induction bs generalizing s with
  | nil => exact .refl
  | cons b rest ih => exact (acts_receive s behaviour f b).trans (ih _)

end Branch

namespace Session

theorem acts_resolved (s : Session) (behaviour : Behaviour) (query : String) (f : Finished Answer)
    {leaves : List String} (h : (s.engine.resolve s.now query f.replies).1 = .ok leaves) :
    Acts behaviour s (resolveDeeds s.now query leaves) (s.resolved query f) := by
  rw [Engine.resolve_fst] at h
  rw [resolved, Engine.resolve_snd, h]
  cases leaves with
  | nil => exact .refl
  | cons leaf rest => exact (Act.resolve s query (leaf :: rest)).acts

/-- A resolution that fails changes nothing. -/
theorem resolved_of_error (s : Session) (query : String) (f : Finished Answer) {err : CallError}
    (h : (s.engine.resolve s.now query f.replies).1 = .error err) : s.resolved query f = s := by
  rw [Engine.resolve_fst] at h
  rw [resolved, Engine.resolve_snd, h]

end Session

namespace Call

theorem acts_start (s : Session) (behaviour : Behaviour) (r : Request) :
    s.Acts behaviour (s.startDeeds behaviour r) (start s behaviour r).2 :=
  s.acts_enter behaviour _ r

theorem acts_receive (s : Session) (behaviour : Behaviour) (f : Finished Answer) (c : Call) :
    s.Acts behaviour (c.deeds s behaviour f) (c.receive s behaviour f).2 := by
  cases hstage : c.stage with
  | completing id =>
      by_cases hid : id = f.gather
      · simp only [deeds, receive, hstage, if_pos hid]
        exact (Session.Act.hear s _ f).acts
      · simp only [deeds, receive, hstage, if_neg hid]
        exact .refl
  | resolving id =>
      by_cases hid : id = f.gather
      · have hhear : s.Acts behaviour [.hear (.find c.request.key) f] s :=
          (Session.Act.hear s (.find c.request.key) f).acts
        simp only [deeds, receive, hstage, if_pos hid]
        cases hleaves : (s.engine.resolve s.now c.request.key f.replies).1 with
        | error err =>
            have hsame := s.resolved_of_error c.request.key f hleaves
            rw [Session.resolved] at hsame
            simp only [hsame]
            exact hhear
        | ok leaves =>
            exact hhear.trans ((s.acts_resolved behaviour c.request.key f hleaves).trans
              (Session.acts_enterLeaves _ behaviour c.deadline c.request leaves))
      · simp only [deeds, receive, hstage, if_neg hid]
        exact .refl
  | plain b =>
      simp only [deeds, receive, hstage]
      exact Branch.acts_receive s behaviour f b
  | leaves bs =>
      simp only [deeds, receive, hstage]
      exact Branch.acts_receiveAll s behaviour f bs
  | ended result =>
      simp only [deeds, receive, hstage]
      exact .refl

end Call

theorem Run.acts_receiveAll (s : Session) (behaviour : Behaviour) (f : Finished Answer)
    (cs : List Call) : s.Acts behaviour (Run.deeds s behaviour f cs) (receiveAll s behaviour f cs).2 := by
  induction cs generalizing s with
  | nil => exact .refl
  | cons c rest ih => exact (c.acts_receive s behaviour f).trans (ih _)

/-! ## What deeds leave alone -/

namespace Session

variable {behaviour : Behaviour} {s q : Session} {deeds : List Deed}

theorem Act.now_eq (a : Act behaviour s deeds q) : q.now = s.now := by
  cases a <;> rfl

/-- Deeds take no time. -/
theorem Acts.now_eq (h : Acts behaviour s deeds q) : q.now = s.now := by
  induction h with
  | refl => rfl
  | act _ a ih => exact a.now_eq.trans ih

/-- The engines of two sessions differ at most in their caches. -/
structure Alike (s q : Session) : Prop where
  pool : q.engine.pool = s.engine.pool
  search : q.engine.search = s.engine.search
  timeouts : q.engine.timeouts = s.engine.timeouts

theorem Alike.refl (s : Session) : s.Alike s := ⟨rfl, rfl, rfl⟩

theorem Alike.trans {v : Session} (h : s.Alike q) (h' : q.Alike v) : s.Alike v :=
  ⟨h'.pool.trans h.pool, h'.search.trans h.search, h'.timeouts.trans h.timeouts⟩

theorem Act.alike (a : Act behaviour s deeds q) : s.Alike q := by
  cases a <;> exact ⟨rfl, rfl, rfl⟩

theorem Acts.alike (h : Acts behaviour s deeds q) : s.Alike q := by
  induction h with
  | refl => exact .refl s
  | act _ a ih => exact ih.trans a.alike

/-! ## Numbers of gatherings -/

theorem Act.numbers (a : Act behaviour s deeds q) :
    (asked deeds).map Inquiry.gather = List.range' s.nextGather (asked deeds).length ∧
      q.nextGather = s.nextGather + (asked deeds).length := by
  cases a <;> exact ⟨rfl, rfl⟩

/-- Gatherings are numbered in the order in which they begin. -/
theorem Acts.numbers (h : Acts behaviour s deeds q) :
    (asked deeds).map Inquiry.gather = List.range' s.nextGather (asked deeds).length ∧
      q.nextGather = s.nextGather + (asked deeds).length := by
  induction h with
  | refl => exact ⟨rfl, rfl⟩
  | act _ a ih =>
      obtain ⟨hnumbers, hnext⟩ := ih
      obtain ⟨hnumbers', hnext'⟩ := a.numbers
      rw [hnext] at hnumbers' hnext'
      rw [asked_append, List.map_append, List.length_append, hnumbers, hnumbers', hnext',
        List.range'_append_1, Nat.add_assoc]
      exact ⟨rfl, rfl⟩

/-! ## Requests that are accounted for -/

variable {asks : Ledger Ask}

/-- A ledger has a page with the backends of every inquiry. -/
def Lists (asks : Ledger Ask) (bound : Nat) (is : List Inquiry) : Prop :=
  ∀ i ∈ is, i.gather < bound ∧ (asks i.gather).map Target.name = i.backends.map Backend.identity

theorem Lists.grow {asks' : Ledger Ask} {bound bound' : Nat} {is : List Inquiry}
    (h : Lists asks bound is) (hg : asks.Grows bound asks' bound') : Lists asks' bound' is := by
  intro i hi
  obtain ⟨hlt, hnames⟩ := h i hi
  exact ⟨Nat.lt_of_lt_of_le hlt hg.le, (congrArg _ (hg.same _ hlt)).trans hnames⟩

theorem Lists.append {bound : Nat} {is js : List Inquiry} (h : Lists asks bound is)
    (h' : Lists asks bound js) : Lists asks bound (is ++ js) := by
  intro i hi
  cases List.mem_append.1 hi with
  | inl hi => exact h i hi
  | inr hi => exact h' i hi

theorem Act.sound (a : Act behaviour s deeds q) (hs : s.floor.Sound asks s.nextGather) :
    ∃ asks', q.floor.Sound asks' q.nextGather ∧ asks.Grows s.nextGather asks' q.nextGather ∧
      Lists asks' q.nextGather (asked deeds) := by
  have hnone : Lists asks s.nextGather [] := fun _ hi => absurd hi List.not_mem_nil
  cases a with
  | change paths => exact ⟨asks, hs, .refl _ _, hnone⟩
  | search query => exact ⟨asks, hs, .refl _ _, hnone⟩
  | know r found => exact ⟨asks, hs, .refl _ _, hnone⟩
  | hear r f => exact ⟨asks, hs, .refl _ _, hnone⟩
  | resolve query leaves => exact ⟨asks, hs, .refl _ _, hnone⟩
  | ask deadline r backends =>
      refine ⟨_, hs.begin behaviour.network s.now _ deadline _, Ledger.Grows.note asks _ _, ?_⟩
      intro i hi
      cases List.mem_singleton.1 hi
      refine ⟨Nat.lt_succ_self _, ?_⟩
      rw [Ledger.note_self, List.map_map, List.map_map]
      rfl

/-- All requests stay accounted for, and the new ones are put on the ledger. -/
theorem Acts.sound (h : Acts behaviour s deeds q) (hs : s.floor.Sound asks s.nextGather) :
    ∃ asks', q.floor.Sound asks' q.nextGather ∧ asks.Grows s.nextGather asks' q.nextGather ∧
      Lists asks' q.nextGather (asked deeds) := by
  induction h with
  | refl => exact ⟨asks, hs, .refl _ _, fun _ hi => absurd hi List.not_mem_nil⟩
  | act _ a ih =>
      obtain ⟨asks', hsound, hgrows, hlists⟩ := ih
      obtain ⟨asks'', hsound', hgrows', hlists'⟩ := a.sound hsound
      refine ⟨asks'', hsound', hgrows.trans hgrows', ?_⟩
      rw [asked_append]
      exact (hlists.grow hgrows').append hlists'

end Session

end MetricFanout
