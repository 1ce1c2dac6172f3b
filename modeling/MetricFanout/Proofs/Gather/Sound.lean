import MetricFanout.Proofs.Gather.Floor
/-!
# A floor on which every request is accounted for

Several gatherings may share a floor. At any time the requests of a gathering that have not ended are
its errands on the floor, the others have ended with a reply or without one, and a gathering that is
over has one reply for each of its targets.

## Implementation notes

What a gathering was to ask is not kept on the floor once it is over, so `Sound` is about a ledger that
says it for every number that a gathering has had. A new gathering adds a page to the ledger.
-/

namespace MetricFanout

variable {σ α : Type}

namespace Gather

/-- The name of the target at a position. -/
def nameAt (g : Gather α) (position : Nat) : String := (g.targets[position]?).getD ""

/-- Every request of a gathering has ended with a reply, has ended without one, or is waited for. -/
def Accounts (g : Gather α) : Prop :=
  ∃ heard, (heard ++ g.lost ++ g.waiting).Perm (List.range g.targets.length) ∧
    g.replies.map Reply.backend = heard.map g.nameAt

theorem accounts_begin (targets : List String) (now after deadline : Nat) :
    (begin targets now after deadline : Gather α).Accounts :=
  ⟨[], List.Perm.refl _, rfl⟩

/-- A request that is waited for ends. -/
theorem Accounts.arrive {g : Gather α} (h : g.Accounts) {position : Nat} (hp : position ∈ g.waiting)
    (now : Nat) (o : Option (Outcome α)) : (g.arrive now position o).Accounts := by
  obtain ⟨heard, hperm, hreplies⟩ := h
  have hwaiting := List.perm_cons_erase hp
  cases o with
  | none =>
      refine ⟨heard, ?_, hreplies⟩
      have hmoved : (heard ++ (g.lost ++ [position]) ++ g.waiting.erase position).Perm
          (heard ++ g.lost ++ g.waiting) := by
        rw [← List.append_assoc, List.append_assoc _ [position]]
        exact hwaiting.symm.append_left _
      exact hmoved.trans hperm
  | some o =>
      refine ⟨heard ++ [position], ?_, ?_⟩
      · have hmoved : (heard ++ [position] ++ g.lost ++ g.waiting.erase position).Perm
            (heard ++ g.lost ++ g.waiting) := by
          rw [List.append_assoc, List.append_assoc heard, List.append_assoc heard]
          apply List.Perm.append_left
          rw [List.singleton_append]
          exact List.perm_middle.symm.trans (hwaiting.symm.append_left _)
        exact hmoved.trans hperm
      · simp only [Gather.arrive, List.map_append, hreplies]
        rfl

/-- A gathering that is closed has one reply for each of its targets. -/
theorem Accounts.close {g : Gather α} (h : g.Accounts) (now : Nat) (why : Failure) :
    ((g.close now why).map Reply.backend).Perm g.targets := by
  obtain ⟨heard, hperm, hreplies⟩ := h
  have hnodup := hperm.symm.nodup List.nodup_range
  have hrest : (g.lost ++ g.waiting).Nodup := by
    rw [List.append_assoc] at hnodup
    exact (List.nodup_append.1 hnodup).2.1
  have hsilent : g.silent.Perm (g.lost ++ g.waiting) := by
    refine (List.perm_ext_iff_of_nodup (List.nodup_range.filter _) hrest).2 fun i => ?_
    simp only [List.mem_filter, Bool.or_eq_true, List.contains_iff_mem, List.mem_append]
    constructor
    · rintro ⟨_, hw | hl⟩
      · exact .inr hw
      · exact .inl hl
    · intro hi
      refine ⟨hperm.mem_iff.1 ?_, hi.symm⟩
      rw [List.append_assoc]
      exact List.mem_append_right _ (List.mem_append.2 hi)
  have hall : (heard ++ g.silent).Perm (List.range g.targets.length) := by
    have h' := hsilent.append_left heard
    rw [← List.append_assoc] at h'
    exact h'.trans hperm
  have hnames : (List.range g.targets.length).map g.nameAt = g.targets := by
    apply List.ext_getElem
    · simp
    · intro i hi _
      simp [nameAt, List.getElem?_eq_getElem (by simpa using hi : i < g.targets.length)]
  have hclose : (g.close now why).map Reply.backend = (heard ++ g.silent).map g.nameAt := by
    simp only [Gather.close, List.map_append, hreplies, List.map_map]
    rfl
  rw [hclose]
  exact (hall.map g.nameAt).trans (List.Perm.of_eq hnames)

theorem Accounts.result? {g : Gather α} (h : g.Accounts) {now : Nat} {replies : List (Reply α)}
    (hr : g.result? now = some replies) : (replies.map Reply.backend).Perm g.targets := by
  unfold Gather.result? at hr
  split at hr
  · rw [← Option.some.inj hr]
    exact h.close now .aborted
  · split at hr
    · rw [← Option.some.inj hr]
      exact h.close now .timeout
    · cases hr

end Gather

/-- What gatherings were to ask, by their numbers. -/
abbrev Ledger (σ : Type) := Nat → List (Target σ)

/-- The ledger with a page for a new gathering. -/
def Ledger.note (asks : Ledger σ) (id : Nat) (targets : List (Target σ)) : Ledger σ :=
  fun i => if i = id then targets else asks i

@[simp] theorem Ledger.note_self (asks : Ledger σ) (id : Nat) (targets : List (Target σ)) :
    asks.note id targets id = targets := if_pos rfl

theorem Ledger.note_of_lt (asks : Ledger σ) {i id : Nat} (targets : List (Target σ)) (h : i < id) :
    asks.note id targets i = asks i := if_neg (Nat.ne_of_lt h)

namespace Floor

/-- Every request on the floor is accounted for, by a ledger in which numbers below a bound have been
given. -/
structure Sound (asks : Ledger σ) (bound : Nat) (f : Floor σ α) : Prop where
  tickets : (f.errands.map Errand.ticket).Nodup
  ticket_lt : ∀ e ∈ f.errands, e.ticket < f.nextTicket
  errands : ∀ e ∈ f.errands, e.gather < bound ∧
    ∃ t, (asks e.gather)[e.position]? = some t ∧ t.subject = e.subject
  ids : (f.gathers.map Prod.fst).Nodup
  gathers : ∀ g ∈ f.gathers, g.1 < bound ∧ g.2.targets = (asks g.1).map Target.name ∧ g.2.Accounts ∧
    ((f.errands.filter fun e => e.gather = g.1).map Errand.position).Perm g.2.waiting
  finished : ∀ r ∈ f.finished, r.gather < bound ∧
    (r.replies.map Reply.backend).Perm ((asks r.gather).map Target.name)

namespace Sound

variable {asks : Ledger σ} {bound : Nat} {f : Floor σ α}

theorem ofLimits (limits : List Nat) (asks : Ledger σ) : (Floor.ofLimits limits : Floor σ α).Sound asks 0 :=
  ⟨List.nodup_nil, fun _ h => absurd h List.not_mem_nil, fun _ h => absurd h List.not_mem_nil,
    List.nodup_nil, fun _ h => absurd h List.not_mem_nil, fun _ h => absurd h List.not_mem_nil⟩

/-- Results may be taken from the floor. -/
theorem take (h : f.Sound asks bound) {rest : List (Finished α)} (hrest : rest.Sublist f.finished) :
    { f with finished := rest }.Sound asks bound :=
  { h with finished := fun r hr => h.finished r (hrest.subset hr) }

theorem send (h : f.Sound asks bound) (net : Network σ α) (now : Nat) :
    (f.send net now).Sound asks bound := by
  have hgathers : ∀ id : Nat,
      ((f.send net now).errands.filter fun e => e.gather = id).map Errand.position =
        (f.errands.filter fun e => e.gather = id).map Errand.position := by
    intro id
    simp only [Floor.send, List.filter_map, List.map_map]
    have hsame : ∀ e : Errand σ α, (if f.isReady e then e.send net now else e).gather = e.gather := by
      intro e
      split <;> rfl
    have hfilter : f.errands.filter ((fun e => decide (e.gather = id)) ∘
        fun e => if f.isReady e then e.send net now else e) =
        f.errands.filter fun e => e.gather = id := by
      apply List.filter_congr
      intro e _
      simp only [Function.comp_apply, hsame]
    rw [hfilter]
    apply List.map_congr_left
    intro e _
    simp only [Function.comp_apply]
    split <;> rfl
  constructor
  case tickets =>
    rw [map_send Errand.ticket net now f (fun _ => rfl)]
    exact h.tickets
  case ticket_lt =>
    intro e he
    obtain ⟨d, hd, rfl | rfl⟩ := mem_send_errands he
    · exact h.ticket_lt e hd
    · exact h.ticket_lt d hd
  case errands =>
    intro e he
    obtain ⟨d, hd, rfl | rfl⟩ := mem_send_errands he
    · exact h.errands e hd
    · exact h.errands d hd
  case ids => exact h.ids
  case gathers =>
    intro g hg
    rw [hgathers]
    exact h.gathers g hg
  case finished => exact h.finished

/-- A gathering that stays keeps its errands when others are over. -/
theorem isOver_eq_false (h : f.Sound asks bound) {now : Nat} {g : Nat × Gather α} (hg : g ∈ f.gathers)
    (hopen : g.2.result? now = none) {e : Errand σ α} (he : e.gather = g.1) : f.isOver now e = false := by
  apply Bool.eq_false_iff.2
  intro hover
  obtain ⟨d, hd, hde⟩ := List.any_eq_true.1 hover
  obtain ⟨g', hg', hd'⟩ := List.mem_filterMap.1 hd
  obtain ⟨replies, hr, rfl⟩ := Option.map_eq_some_iff.1 hd'
  have hsame : g' = g := by
    apply List.inj_on_of_nodup_map h.ids hg' hg
    simpa [he] using hde
  rw [hsame, hopen] at hr
  cases hr

theorem settle (h : f.Sound asks bound) (net : Network σ α) (now : Nat) :
    (f.settle net now).Sound asks bound := by
  unfold Floor.settle
  apply Sound.send
  have hsub : ∀ e ∈ f.errands.filter (fun e => !f.isOver now e), e ∈ f.errands :=
    fun e he => (List.mem_filter.1 he).1
  constructor
  case tickets => exact h.tickets.sublist (List.filter_sublist.map _)
  case ticket_lt => exact fun e he => h.ticket_lt e (hsub e he)
  case errands => exact fun e he => h.errands e (hsub e he)
  case ids => exact h.ids.sublist (List.filter_sublist.map _)
  case gathers =>
    intro g hg
    obtain ⟨hg, hopen⟩ := List.mem_filter.1 hg
    obtain ⟨hid, htargets, haccounts, hwaiting⟩ := h.gathers g hg
    refine ⟨hid, htargets, haccounts, ?_⟩
    have hkept : (f.errands.filter fun e => !f.isOver now e).filter (fun e => e.gather = g.1) =
        f.errands.filter fun e => e.gather = g.1 := by
      rw [List.filter_filter]
      apply List.filter_congr
      intro e _
      by_cases he : e.gather = g.1
      · simp [he, h.isOver_eq_false hg (by simpa using hopen) he]
      · simp [he]
    exact (List.Perm.of_eq (congrArg (List.map Errand.position) hkept)).trans hwaiting
  case finished =>
    intro r hr
    rcases List.mem_append.1 hr with hr | hr
    · exact h.finished r hr
    · obtain ⟨g, hg, hr⟩ := List.mem_filterMap.1 hr
      obtain ⟨replies, hreplies, rfl⟩ := Option.map_eq_some_iff.1 hr
      obtain ⟨hid, htargets, haccounts, _⟩ := h.gathers g hg
      refine ⟨hid, ?_⟩
      rw [← htargets]
      exact haccounts.result? hreplies

/-- An errand comes back to its gathering. -/
theorem takeIn (h : f.Sound asks bound) {e : Errand σ α} (he : e ∈ f.errands) (now : Nat)
    (o : Option (Outcome α)) : (f.takeIn now e o).Sound asks bound := by
  have hsub : ∀ d ∈ (f.takeIn now e o).errands, d ∈ f.errands ∧ d.ticket ≠ e.ticket := by
    intro d hd
    obtain ⟨hd, hne⟩ := List.mem_filter.1 hd
    exact ⟨hd, by simpa using hne⟩
  have hids : (f.takeIn now e o).gathers.map Prod.fst = f.gathers.map Prod.fst := by
    simp only [Floor.takeIn, dismiss_gathers, List.map_map]
    rfl
  constructor
  case tickets => exact h.tickets.sublist (List.filter_sublist.map _)
  case ticket_lt => exact fun d hd => h.ticket_lt d (hsub d hd).1
  case errands => exact fun d hd => h.errands d (hsub d hd).1
  case ids =>
    rw [hids]
    exact h.ids
  case finished => exact h.finished
  case gathers =>
    intro g' hg'
    obtain ⟨g, hg, rfl⟩ := List.mem_map.1 hg'
    obtain ⟨hid, htargets, haccounts, hwaiting⟩ := h.gathers g hg
    by_cases hge : g.1 = e.gather
    · -- the errand leaves, and its gathering waits for one request less
      have herrands : ((f.errands.filter fun d => d.gather = g.1).map Errand.position).Perm
          (e.position :: ((f.takeIn now e o).errands.filter fun d => d.gather = g.1).map
            Errand.position) := by
        have hperm := ((perm_cons_filter h.tickets he).filter fun d =>
          decide (d.gather = g.1)).map Errand.position
        rwa [List.filter_cons_of_pos (by simp [hge]), List.map_cons] at hperm
      have hmem : e.position ∈ g.2.waiting :=
        (herrands.symm.trans hwaiting).mem_iff.1 List.mem_cons_self
      refine ⟨hid, ?_, ?_, ?_⟩
      · simp only [hge, if_true, Gather.arrive_targets]
        rw [← hge]
        exact htargets
      · simp only [hge, if_true]
        exact haccounts.arrive hmem now o
      · simp only [hge, if_true, Gather.arrive_waiting]
        rw [← hge]
        exact (herrands.symm.trans (hwaiting.trans (List.perm_cons_erase hmem))).cons_inv
    · simp only [hge, if_false]
      refine ⟨hid, htargets, haccounts, ?_⟩
      have hkept : (f.takeIn now e o).errands.filter (fun d => d.gather = g.1) =
          f.errands.filter fun d => d.gather = g.1 := by
        simp only [Floor.takeIn, dismiss_errands, List.filter_filter]
        apply List.filter_congr
        intro d hd
        by_cases hdg : d.gather = g.1
        · have hne : d.ticket ≠ e.ticket := by
            intro heq
            have hde := List.inj_on_of_nodup_map h.tickets hd he heq
            exact hge (by rw [← hdg, hde])
          simp [hdg, hne]
        · simp [hdg]
      exact (List.Perm.of_eq (congrArg (List.map Errand.position) hkept)).trans hwaiting

theorem arrive (h : f.Sound asks bound) (net : Network σ α) {e : Errand σ α} (he : e ∈ f.errands)
    (now : Nat) (o : Option (Outcome α)) : (f.arrive net now e o).Sound asks bound := by
  rw [arrive_eq]
  exact (h.takeIn he now o).settle net now

/-- Whatever happens next, every request stays accounted for. -/
theorem happen (h : f.Sound asks bound) {net : Network σ α} {e : FloorEvent σ α}
    (he : f.next? net = some e) : (f.happen net e).Sound asks bound := by
  cases e with
  | timer t => exact h.settle net t
  | back t d o => exact h.arrive net (mem_of_next? he) t o

/-- A gathering begins under a number that has not been given yet. -/
theorem begin (h : f.Sound asks bound) (net : Network σ α) (now after deadline : Nat)
    (targets : List (Target σ)) :
    (f.begin net now bound after deadline targets).Sound (asks.note bound targets) (bound + 1) := by
  unfold Floor.begin
  apply Sound.settle
  have hold : ∀ i, i < bound → asks.note bound targets i = asks i :=
    fun i hi => asks.note_of_lt targets hi
  have hfresh : ∀ g ∈ f.gathers, g.1 ≠ bound := fun g hg => Nat.ne_of_lt (h.gathers g hg).1
  constructor
  case tickets =>
    rw [addAll_errands, List.map_append, tickets_errandsOf]
    refine List.nodup_append.2 ⟨h.tickets, List.nodup_range', ?_⟩
    intro a ha b hb hab
    obtain ⟨d, hd, rfl⟩ := List.mem_map.1 ha
    have hlt := h.ticket_lt d hd
    have hle := (List.mem_range'_1.1 hb).1
    simp only at hle
    omega
  case ticket_lt =>
    rw [addAll_errands, addAll_nextTicket]
    intro e he
    cases List.mem_append.1 he with
    | inl he => exact Nat.lt_of_lt_of_le (h.ticket_lt e he) (Nat.le_add_right _ _)
    | inr he =>
        obtain ⟨i, t, ht, rfl⟩ := mem_errandsOf he
        exact Nat.add_lt_add_left (List.getElem?_eq_some_iff.1 ht).1 _
  case errands =>
    rw [addAll_errands]
    intro e he
    cases List.mem_append.1 he with
    | inl he =>
        obtain ⟨hlt, t, ht, hsubject⟩ := h.errands e he
        refine ⟨Nat.lt_succ_of_lt hlt, t, ?_, hsubject⟩
        rw [hold _ hlt]
        exact ht
    | inr he =>
        obtain ⟨i, t, ht, rfl⟩ := mem_errandsOf he
        refine ⟨Nat.lt_succ_self bound, t, ?_, rfl⟩
        rw [Ledger.note_self, Nat.zero_add]
        exact ht
  case ids =>
    rw [addAll_gathers, List.map_append]
    refine List.nodup_append.2 ⟨h.ids, List.pairwise_singleton _ _, ?_⟩
    intro a ha b hb hab
    obtain ⟨g, hg, rfl⟩ := List.mem_map.1 ha
    exact hfresh g hg (hab.trans (List.mem_singleton.1 hb))
  case gathers =>
    rw [addAll_gathers, addAll_errands]
    intro g hg
    rw [List.filter_append, List.map_append]
    cases List.mem_append.1 hg with
    | inl hg =>
        obtain ⟨hlt, htargets, haccounts, hwaiting⟩ := h.gathers g hg
        refine ⟨Nat.lt_succ_of_lt hlt, ?_, haccounts, ?_⟩
        · rw [hold _ hlt]
          exact htargets
        · rw [filter_errandsOf_of_ne (hfresh g hg).symm, List.map_nil, List.append_nil]
          exact hwaiting
    | inr hg =>
        obtain rfl := List.mem_singleton.1 hg
        have hnone : f.errands.filter (fun e => e.gather = bound) = [] := by
          apply List.filter_eq_nil_iff.2
          intro e he
          simpa using Nat.ne_of_lt (h.errands e he).1
        refine ⟨Nat.lt_succ_self bound, ?_, Gather.accounts_begin _ _ _ _, ?_⟩
        · rw [Ledger.note_self]
          rfl
        · rw [hnone, filter_errandsOf_self, positions_errandsOf, ← List.range_eq_range']
          simp only [Gather.begin, List.length_map]
          exact .refl _
  case finished =>
    rw [addAll_finished]
    intro r hr
    obtain ⟨hlt, hperm⟩ := h.finished r hr
    refine ⟨Nat.lt_succ_of_lt hlt, ?_⟩
    rw [hold _ hlt]
    exact hperm

end Sound

end Floor

end MetricFanout
