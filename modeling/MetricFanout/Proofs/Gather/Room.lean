import MetricFanout.Proofs.Gather.Dispatch
/-!
# With room for all

When every backend has a permit for each request, all requests are sent at once, and the schedule of a
gathering can be read off the network: it is the list of what comes back, sorted by time, then by the
order in which the network puts what is simultaneous, then by position.

Errands stand on the floor in the order of their positions, and of two errands that are on a par the
first one is found. So the position is part of the order of returns, and the order is strict.
-/

namespace MetricFanout

variable {σ α : Type}

/-! ## The order of returns -/

/-- The network puts simultaneous returns in an order; some of them may be on a par. -/
structure Network.Ordered (net : Network σ α) : Prop where
  asymm : ∀ {a b}, net.before a b = true → net.before b a = false
  cotrans : ∀ {a b c}, net.before a c = true → net.before a b = true ∨ net.before b c = true

theorem Network.Ordered.trans {net : Network σ α} (h : net.Ordered) {a b c : σ}
    (hab : net.before a b = true) (hbc : net.before b c = true) : net.before a c = true := by
  rcases h.cotrans (b := c) hab with hac | hcb
  · exact hac
  · exact absurd hcb (by simp [h.asymm hbc])

namespace Return

/-- Whether a return comes before another one. -/
def before (net : Network σ α) (a b : Return σ α) : Bool :=
  a.time < b.time ||
    (a.time = b.time && (net.before a.subject b.subject ||
      (!net.before b.subject a.subject && a.position < b.position)))

theorem before_iff {net : Network σ α} {a b : Return σ α} :
    a.before net b = true ↔ a.time < b.time ∨ (a.time = b.time ∧
      (net.before a.subject b.subject = true ∨
        (net.before b.subject a.subject = false ∧ a.position < b.position))) := by
  simp [before]

theorem before_asymm {net : Network σ α} (hnet : net.Ordered) {a b : Return σ α}
    (hab : a.before net b = true) : b.before net a = false := by
  apply Bool.eq_false_iff.2
  intro hba
  rw [before_iff] at hab hba
  rcases hab with hlt | ⟨ht, hab⟩
  · omega
  · rcases hba with hlt | ⟨_, hba⟩
    · omega
    · rcases hab with hab | ⟨hab, hp⟩ <;> rcases hba with hba | ⟨hba, hq⟩
      · simp [hnet.asymm hab] at hba
      · simp [hab] at hba
      · simp [hab] at hba
      · omega

theorem before_cotrans {net : Network σ α} (hnet : net.Ordered) {a b c : Return σ α}
    (hac : a.before net c = true) : a.before net b = true ∨ b.before net c = true := by
  simp only [before_iff] at hac ⊢
  by_cases hab : a.time < b.time
  · exact .inl (.inl hab)
  by_cases hbc : b.time < c.time
  · exact .inr (.inl hbc)
  obtain ⟨hac', hac⟩ := hac.resolve_left (by omega)
  have hb : a.time = b.time ∧ b.time = c.time := by omega
  rcases hac with hac | ⟨hca, hp⟩
  · rcases hnet.cotrans (b := b.subject) hac with h | h
    · exact .inl (.inr ⟨hb.1, .inl h⟩)
    · exact .inr (.inr ⟨hb.2, .inl h⟩)
  · -- neither of the two is earlier, so the third is on a par with both or separates them
    cases hab' : net.before a.subject b.subject with
    | true => exact .inl (.inr ⟨hb.1, .inl rfl⟩)
    | false =>
        cases hbc' : net.before b.subject c.subject with
        | true => exact .inr (.inr ⟨hb.2, .inl rfl⟩)
        | false =>
            have hba : net.before b.subject a.subject = false := by
              apply Bool.eq_false_iff.2
              intro h
              rcases hnet.cotrans (b := c.subject) h with h | h <;> simp_all
            have hcb : net.before c.subject b.subject = false := by
              apply Bool.eq_false_iff.2
              intro h
              rcases hnet.cotrans (b := a.subject) h with h | h <;> simp_all
            by_cases hq : a.position < b.position
            · exact .inl (.inr ⟨hb.1, .inr ⟨hba, hq⟩⟩)
            · exact .inr (.inr ⟨hb.2, .inr ⟨hcb, by omega⟩⟩)

theorem before_trans {net : Network σ α} (hnet : net.Ordered) {a b c : Return σ α}
    (hab : a.before net b = true) (hbc : b.before net c = true) : a.before net c = true := by
  rcases before_cotrans hnet (b := c) hab with hac | hcb
  · exact hac
  · exact absurd hcb (by simp [before_asymm hnet hbc])

theorem before_total {net : Network σ α} {a b : Return σ α} (h : a.position ≠ b.position) :
    a.before net b = true ∨ b.before net a = true := by
  rw [before_iff, before_iff]
  cases net.before a.subject b.subject <;> cases net.before b.subject a.subject <;> simp <;> omega

/-- An errand that stands further back on the floor is earlier only by time or by the order of the
network. -/
theorem earlier_eq_before (net : Network σ α) {a b : Errand σ α} {r s : Return σ α}
    (ha : a.return? = some r) (hb : b.return? = some s) (h : b.position < a.position) :
    a.earlier net b = r.before net s := by
  have hp : ¬ r.position < s.position := by
    rw [(Errand.return?_position ha).1, (Errand.return?_position hb).1]
    exact Nat.not_lt.2 (Nat.le_of_lt h)
  rw [Bool.eq_iff_iff, Errand.earlier_iff net ha hb, before_iff]
  simp [hp]

end Return

/-! ## Permits for all -/

namespace Permits

theorem acquire_of_room {p : Permits} (hline : p.line = [])
    (hroom : p.limit = 0 ∨ p.held.length < p.limit) (ticket : Nat) :
    p.acquire ticket = { p with held := p.held ++ [ticket] } := by
  have hone : 1 ≤ ({ p with line := [ticket] } : Permits).free := by
    simp only [free]
    split
    · exact Nat.le_refl 1
    · omega
  simp only [acquire, hline, List.nil_append, serve]
  rw [List.take_of_length_le (by simpa using hone), List.drop_of_length_le (by simpa using hone)]

end Permits

namespace Floor

/-- Nobody stands in line for the backends of some targets, and each of them has a permit for all targets
on it. -/
def HasRoom (f : Floor σ α) (ts : List (Target σ)) : Prop :=
  ∀ t ∈ ts, ∃ p, f.permits[t.backend]? = some p ∧ p.line = [] ∧
    (p.limit = 0 ∨ p.held.length + ts.countP (fun u => u.backend == t.backend) ≤ p.limit)

theorem holds_addAll {f : Floor σ α} {e : Errand σ α} (h : f.holds e = true) (gather position : Nat)
    (ts : List (Target σ)) : (addAll gather position f ts).holds e = true := by
  induction ts generalizing position f with
  | nil => exact h
  | cons t rest ih => exact ih (holds_add h gather position t) (position + 1)

theorem hasRoom_add {f : Floor σ α} {t : Target σ} {rest : List (Target σ)}
    (h : f.HasRoom (t :: rest)) (gather position : Nat) :
    (f.add gather position t).HasRoom rest ∧
      (f.add gather position t).holds ⟨f.nextTicket, gather, position, t.backend, t.subject, none⟩ := by
  obtain ⟨p, hp, hline, hlimit⟩ := h t List.mem_cons_self
  have hacquire := Permits.acquire_of_room hline
    (hlimit.imp_right fun hle => by rw [List.countP_cons_of_pos (by simp)] at hle; omega) f.nextTicket
  constructor
  · intro u hu
    obtain ⟨q, hq, hqline, hqlimit⟩ := h u (List.mem_cons_of_mem _ hu)
    simp only [add, List.getElem?_modify, hq]
    by_cases hb : t.backend = u.backend
    · have hpq : p = q := Option.some.inj (hp.symm.trans (by rw [hb, hq]))
      subst hpq
      refine ⟨{ p with held := p.held ++ [f.nextTicket] }, by simp [hb, hacquire], hqline,
        hqlimit.imp_right fun hle => ?_⟩
      rw [List.countP_cons_of_pos (by simp [hb])] at hle
      simp only [List.length_append, List.length_singleton]
      omega
    · refine ⟨q, by simp [hb], hqline, hqlimit.imp_right fun hle => ?_⟩
      rw [List.countP_cons_of_neg (by simpa using hb)] at hle
      exact hle
  · simp [holds, add, hp, hacquire, Permits.holds]

/-- With room for all, every errand that is put on the floor holds its permit. -/
theorem holds_of_hasRoom {f : Floor σ α} {ts : List (Target σ)} (h : f.HasRoom ts)
    (gather position : Nat) : ∀ e ∈ (errandsOf gather f.nextTicket position ts : List (Errand σ α)),
      (addAll gather position f ts).holds e = true := by
  induction ts generalizing position f with
  | nil => exact fun _ he => absurd he List.not_mem_nil
  | cons t rest ih =>
      obtain ⟨hrest, hholds⟩ := hasRoom_add h gather position
      intro e he
      cases he with
      | head => exact holds_addAll hholds gather (position + 1) rest
      | tail _ he => exact ih hrest (position + 1) e he

end Floor

/-! ## What comes back when all is sent -/

namespace Floor

/-- The errands stand in the order of their positions. -/
def InLine (f : Floor σ α) : Prop := (f.errands.map Errand.position).Pairwise (· < ·)

/-- Of errands in line, the one that is found comes back before all others. -/
theorem isLeast_before {net : Network σ α} (hnet : net.Ordered) {f : Floor σ α} (h : f.InLine) :
    IsLeast (fun r s => r = s ∨ r.before net s = true) f.errands (f.firstBack? net) := by
  apply isLeast_firstBack? (R := fun r s => r = s ∨ r.before net s = true) (fun r => .inl rfl)
  · rintro a b c (rfl | hab) (rfl | hbc)
    · exact .inl rfl
    · exact .inr hbc
    · exact .inr hab
    · exact .inr (Return.before_trans hnet hab hbc)
  · refine (List.pairwise_map.1 h).imp fun {b e} hlt r q hr hq => ?_
    have hne : r.position ≠ q.position := by
      rw [(Errand.return?_position hr).1, (Errand.return?_position hq).1]
      exact Nat.ne_of_lt hlt
    rw [Return.earlier_eq_before net hq hr hlt]
    refine ⟨fun hb => .inr hb, fun hb => .inr ?_⟩
    exact (Return.before_total hne).resolve_right (by simp [hb])

theorem release_of_transit (net : Network σ α) {f : Floor σ α}
    (ht : ∀ e ∈ f.errands, e.transit.isSome) (now : Nat) (e : Errand σ α) :
    (f.release net now e).errands = f.errands.filter fun d => !decide (d.ticket = e.ticket) := by
  rw [release, send_errands_of_transit, dismiss_errands]
  intro d hd
  exact ht d (List.mem_filter.1 hd).1

/-- On a floor on which everything has been sent, the returns are those of the errands, in order. -/
theorem returns_of_transit {net : Network σ α} (hnet : net.Ordered) {f : Floor σ α}
    (ht : ∀ e ∈ f.errands, e.transit.isSome) (hline : f.InLine) (hnum : f.Numbered) :
    (f.returns net).Perm (f.errands.filterMap Errand.return?) ∧
      (f.returns net).Pairwise fun a b => a.before net b = true := by
  refine returns_induction net
    (motive := fun f rs => (∀ e ∈ f.errands, e.transit.isSome) → f.InLine → f.Numbered →
      rs.Perm (f.errands.filterMap Errand.return?) ∧
        rs.Pairwise fun a b => a.before net b = true) ?_ ?_ f ht hline hnum
  · intro f hb _ hline _
    have hleast := isLeast_before hnet hline
    rw [hb] at hleast
    rw [List.filterMap_eq_nil_iff.2 hleast]
    exact ⟨.nil, .nil⟩
  · intro f e r hb hr ih ht hline hnum
    have hleast := isLeast_before hnet hline
    rw [hb] at hleast
    obtain ⟨he, q, hq, hmin⟩ := hleast
    obtain rfl := Option.some.inj (hq.symm.trans hr)
    have hleft := release_of_transit net ht q.time e
    have hsub : ∀ d ∈ (f.release net q.time e).errands, d ∈ f.errands ∧ d.ticket ≠ e.ticket := by
      intro d hd
      rw [hleft] at hd
      simpa using hd
    obtain ⟨hperm, hsorted⟩ := ih (fun d hd => ht d (hsub d hd).1)
      (by rw [InLine, hleft]; exact hline.sublist (List.filter_sublist.map _))
      (numbered_release net hnum q.time e)
    have htickets : (f.errands.map Errand.ticket).Nodup := by
      rw [List.map_congr_left hnum]
      exact hline.imp Nat.ne_of_lt
    have herrands : f.errands.Perm (e :: (f.release net q.time e).errands) := by
      rw [hleft]
      exact perm_cons_filter htickets he
    refine ⟨?_, List.pairwise_cons.2 ⟨?_, hsorted⟩⟩
    · have hmap := herrands.filterMap Errand.return?
      rw [List.filterMap_cons_some hr] at hmap
      exact (hperm.cons q).trans hmap.symm
    · intro s hs
      obtain ⟨d, hd, hds⟩ := List.mem_filterMap.1 (hperm.mem_iff.1 hs)
      obtain ⟨hdf, hne⟩ := hsub d hd
      rcases hmin d hdf s hds with rfl | hbefore
      · rw [hnum d hdf, hnum e he, ← (Errand.return?_position hds).1,
          (Errand.return?_position hr).1] at hne
        exact absurd rfl hne
      · exact hbefore

end Floor

/-! ## The schedule -/

namespace Dispatch

variable (net : Network σ α) (d : Dispatch σ) (limits : List Nat) (id : Nat)

/-- Nobody has to wait for a permit: every backend has no limit, or a limit that covers all targets on
it. -/
def Roomy : Prop :=
  ∀ t ∈ d.targets, ∃ l, limits[t.backend]? = some l ∧
    (l = 0 ∨ d.targets.countP (fun u => u.backend == t.backend) ≤ l)

/-- The return of the request to a target that is sent at the start, if it ever comes back. -/
def returnOf (t : Target σ) (position : Nat) : Option (Return σ α) :=
  (net.deliver t.subject).delay.map fun delay =>
    ⟨position, t.subject, d.start + delay, (net.deliver t.subject).outcome⟩

/-- What comes back when every request is sent at the start, in order. -/
def due : List (Return σ α) :=
  (d.targets.zipIdx.filterMap fun t => d.returnOf net t.1 t.2).mergeSort fun a b => !b.before net a

theorem due_perm : (d.due net).Perm
    (d.targets.zipIdx.filterMap fun t => d.returnOf net t.1 t.2) :=
  List.mergeSort_perm _ _

theorem nodup_due : (d.due net).Pairwise fun a b => a.position ≠ b.position := by
  apply (d.due_perm net).symm.pairwise _ (fun h => h.symm)
  rw [List.pairwise_filterMap]
  have hidx : (d.targets.zipIdx.map Prod.snd).Pairwise (· < ·) := by
    rw [List.zipIdx_map_snd]
    exact List.pairwise_lt_range'
  refine (List.pairwise_map.1 hidx).imp fun {a b} hab r hr s hs => ?_
  obtain ⟨_, _, rfl⟩ := Option.map_eq_some_iff.1 hr
  obtain ⟨_, _, rfl⟩ := Option.map_eq_some_iff.1 hs
  exact Nat.ne_of_lt hab

theorem pairwise_due {net : Network σ α} (hnet : net.Ordered) :
    (d.due net).Pairwise fun a b => a.before net b = true := by
  have hsorted : (d.due net).Pairwise fun a b => !b.before net a := by
    apply List.pairwise_mergeSort
    · intro a b c hab hbc
      simp only [Bool.not_eq_true'] at hab hbc ⊢
      apply Bool.eq_false_iff.2
      intro hca
      rcases Return.before_cotrans hnet (b := b) hca with h | h <;> simp_all
    · intro a b
      cases h : a.before net b with
      | false => simp
      | true => simp [Return.before_asymm hnet h]
  refine (hsorted.and (d.nodup_due net)).imp fun {a b} hab => ?_
  exact (Return.before_total hab.2).resolve_right (by simpa using hab.1)

variable {d limits}

theorem holds_asked (hroom : d.Roomy limits) :
    ∀ e ∈ (d.asked limits id : Floor σ α).errands, (d.asked limits id).holds e = true := by
  intro e he
  rw [asked, Floor.addAll_errands] at he
  refine Floor.holds_of_hasRoom ?_ id 0 e (by simpa [Floor.ofLimits] using he)
  intro t ht
  obtain ⟨l, hl, hcount⟩ := hroom t ht
  exact ⟨{ limit := l }, by simp [Floor.ofLimits, hl], rfl, by simpa using hcount⟩

theorem send_asked (hroom : d.Roomy limits) :
    ((d.asked limits id).send net d.start).errands = d.targets.zipIdx.map fun t =>
      (⟨t.2, id, t.2, t.1.backend, t.1.subject, none⟩ : Errand σ α).send net d.start := by
  have hall : ((d.asked limits id).send net d.start).errands =
      (d.asked limits id).errands.map fun e => e.send net d.start := by
    simp only [Floor.send]
    apply List.map_congr_left
    intro e he
    have hnone := (d.mem_asked limits id he).2.2
    simp only [Floor.isReady, hnone, Option.isNone_none, Bool.true_and]
    exact if_pos (holds_asked id hroom e he)
  rw [hall, asked_errands, Floor.errandsOf_eq_zipIdx, List.map_map]
  rfl

/-- With room for all, the schedule of a gathering is what is due. -/
theorem schedule_of_room {net : Network σ α} (hnet : net.Ordered) (hroom : d.Roomy limits) :
    d.schedule net limits id = d.due net := by
  have hsend := send_asked net id hroom
  have hline : ((d.asked limits id : Floor σ α).send net d.start).InLine := by
    rw [Floor.InLine, Floor.map_send Errand.position net d.start _ (fun _ => rfl), asked_positions]
    exact List.pairwise_lt_range
  have htransit : ∀ e ∈ ((d.asked limits id : Floor σ α).send net d.start).errands,
      e.transit.isSome := by
    intro e he
    rw [hsend] at he
    obtain ⟨t, _, rfl⟩ := List.mem_map.1 he
    rfl
  have hnumbered : ((d.asked limits id : Floor σ α).send net d.start).Numbered := by
    intro e he
    rw [hsend] at he
    obtain ⟨t, _, rfl⟩ := List.mem_map.1 he
    rfl
  obtain ⟨hperm, hsorted⟩ := Floor.returns_of_transit hnet htransit hline hnumbered
  have hreturns : ((d.asked limits id : Floor σ α).send net d.start).errands.filterMap
      Errand.return? = d.targets.zipIdx.filterMap fun t => d.returnOf net t.1 t.2 := by
    rw [hsend, List.filterMap_map]
    congr 1
    funext t
    simp only [Function.comp_apply, Errand.return?, Errand.send, Option.bind_some, returnOf,
      Option.map_map]
    rfl
  rw [hreturns] at hperm
  refine List.Perm.eq_of_pairwise ?_ hsorted (d.pairwise_due hnet)
    (hperm.trans (d.due_perm net).symm)
  intro a b _ _ hab hba
  rw [Return.before_asymm hnet hab] at hba
  cases hba

end Dispatch

end MetricFanout
