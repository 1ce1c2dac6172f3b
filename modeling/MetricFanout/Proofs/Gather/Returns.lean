import MetricFanout.Proofs.Gather.Schedule
/-!
# What comes back on a floor

The errand that is found to come back first is the least of all, so returns come in the order of time,
each of them once, and they depend on permits and errands alone.
-/

namespace MetricFanout

variable {σ α : Type}

/-! ## Which errand comes back first -/

namespace Errand

theorem due?_eq (e : Errand σ α) : e.due? = e.return?.map Return.time := by
  unfold due? return?
  cases e.transit with
  | none => rfl
  | some t => cases h : t.due <;> simp [h]

theorem return?_position {e : Errand σ α} {r : Return σ α} (h : e.return? = some r) :
    r.position = e.position ∧ r.subject = e.subject := by
  obtain ⟨t, _, ht⟩ := Option.bind_eq_some_iff.1 h
  obtain ⟨due, _, rfl⟩ := Option.map_eq_some_iff.1 ht
  exact ⟨rfl, rfl⟩

theorem earlier_of_none {net : Network σ α} {a b : Errand σ α} (h : a.return? = none) :
    a.earlier net b = false := by
  simp [earlier, due?_eq, h]

theorem earlier_iff (net : Network σ α) {a b : Errand σ α} {r s : Return σ α}
    (ha : a.return? = some r) (hb : b.return? = some s) : a.earlier net b = true ↔
      r.time < s.time ∨ (r.time = s.time ∧ net.before r.subject s.subject = true) := by
  simp [earlier, due?_eq, ha, hb, (return?_position ha).2, (return?_position hb).2]

end Errand

/-- An errand that is sent at a time does not come back before it. -/
theorem Errand.le_return?_send {net : Network σ α} {now : Nat} {e : Errand σ α} {r : Return σ α}
    (h : (e.send net now).return? = some r) : now ≤ r.time := by
  simp only [return?, send, Option.bind_some, Option.map_map, Option.map_eq_some_iff] at h
  obtain ⟨delay, _, rfl⟩ := h
  exact Nat.le_add_right now delay

/-- An errand comes back, and its return stands in a relation to all others that come back; nobody
comes back if there is no such errand. -/
def IsLeast (R : Return σ α → Return σ α → Prop) (es : List (Errand σ α)) :
    Option (Errand σ α) → Prop
  | none => ∀ e ∈ es, e.return? = none
  | some b => b ∈ es ∧ ∃ r, b.return? = some r ∧ ∀ e ∈ es, ∀ s, e.return? = some s → R r s

namespace Floor

/-- The earlier one of the best errand so far and another one. -/
def sooner (net : Network σ α) (best : Option (Errand σ α)) (e : Errand σ α) :
    Option (Errand σ α) :=
  match best with
  | none => if e.due?.isSome then some e else none
  | some b => if e.earlier net b then some e else some b

theorem firstBack?_eq (net : Network σ α) (f : Floor σ α) :
    f.firstBack? net = f.errands.foldl (sooner net) none := rfl

/-- Of two errands, in the order in which they stand, the one that is picked is the lesser. -/
def Picks (net : Network σ α) (R : Return σ α → Return σ α → Prop) (b e : Errand σ α) : Prop :=
  ∀ r q, b.return? = some r → e.return? = some q →
    (e.earlier net b = true → R q r) ∧ (e.earlier net b = false → R r q)

theorem isLeast_snoc {net : Network σ α} {R : Return σ α → Return σ α → Prop} (hrefl : ∀ r, R r r)
    (htrans : ∀ {a b c}, R a b → R b c → R a c) {es : List (Errand σ α)}
    {best : Option (Errand σ α)} {e : Errand σ α} (h : IsLeast R es best)
    (hpick : ∀ d ∈ es, Picks net R d e) : IsLeast R (es ++ [e]) (sooner net best e) := by
  cases best with
  | none =>
      cases he : e.return? with
      | none =>
          simp only [sooner, Errand.due?_eq, he, Option.map_none, Option.isSome_none,
            Bool.false_eq_true, if_false]
          exact List.forall_mem_append.2 ⟨h, List.forall_mem_singleton.2 he⟩
      | some r =>
          simp only [sooner, Errand.due?_eq, he, Option.map_some, Option.isSome_some, if_true]
          refine ⟨by simp, r, he, List.forall_mem_append.2 ⟨?_, List.forall_mem_singleton.2 ?_⟩⟩
          · intro d hd s hs
            rw [h d hd] at hs
            cases hs
          · intro s hs
            rw [he] at hs
            rw [Option.some.inj hs]
            exact hrefl s
  | some b =>
      obtain ⟨hb, r, hr, hleast⟩ := h
      cases he : e.return? with
      | none =>
          simp only [sooner, Errand.earlier_of_none he, Bool.false_eq_true, if_false]
          refine ⟨List.mem_append_left _ hb, r, hr,
            List.forall_mem_append.2 ⟨hleast, List.forall_mem_singleton.2 ?_⟩⟩
          intro s hs
          rw [he] at hs
          cases hs
      | some q =>
          obtain ⟨hearlier, hlater⟩ := hpick b hb r q hr he
          cases hq : e.earlier net b with
          | true =>
              simp only [sooner, hq, if_true]
              refine ⟨by simp, q, he, List.forall_mem_append.2 ⟨?_, List.forall_mem_singleton.2 ?_⟩⟩
              · exact fun d hd s hs => htrans (hearlier hq) (hleast d hd s hs)
              · intro s hs
                rw [he] at hs
                rw [Option.some.inj hs]
                exact hrefl s
          | false =>
              simp only [sooner, hq, Bool.false_eq_true, if_false]
              refine ⟨List.mem_append_left _ hb, r, hr,
                List.forall_mem_append.2 ⟨hleast, List.forall_mem_singleton.2 ?_⟩⟩
              intro s hs
              rw [he] at hs
              rw [← Option.some.inj hs]
              exact hlater hq

/-- The errand that is found is the least in every order that picks decide. -/
theorem isLeast_firstBack? {net : Network σ α} {R : Return σ α → Return σ α → Prop}
    (hrefl : ∀ r, R r r) (htrans : ∀ {a b c}, R a b → R b c → R a c) {f : Floor σ α}
    (hpick : f.errands.Pairwise (Picks net R)) : IsLeast R f.errands (f.firstBack? net) := by
  suffices ∀ (es done : List (Errand σ α)) (best : Option (Errand σ α)),
      (done ++ es).Pairwise (Picks net R) → IsLeast R done best →
      IsLeast R (done ++ es) (es.foldl (sooner net) best) by
    have h := this f.errands [] none (by simpa using hpick) (by simp [IsLeast])
    simpa only [firstBack?_eq, List.nil_append] using h
  intro es
  induction es with
  | nil =>
      intro done best _ h
      simpa using h
  | cons e rest ih =>
      intro done best hp h
      have hdone : ∀ d ∈ done, Picks net R d e := by
        intro d hd
        exact (List.pairwise_append.1 hp).2.2 d hd e List.mem_cons_self
      have h' := ih (done ++ [e]) _ (by simpa using hp) (isLeast_snoc hrefl htrans h hdone)
      simpa only [List.foldl_cons, List.append_assoc, List.singleton_append] using h'

/-- The errand that is found comes back no later than any other. -/
theorem isLeast_time (net : Network σ α) (f : Floor σ α) :
    IsLeast (fun r s => r.time ≤ s.time) f.errands (f.firstBack? net) := by
  apply isLeast_firstBack? (R := fun r s => r.time ≤ s.time) (fun r => Nat.le_refl r.time)
    (fun hab hbc => Nat.le_trans hab hbc)
  apply List.pairwise_of_forall
  intro b e r q hr hq
  have h := Errand.earlier_iff net hq hr
  constructor
  · intro he
    rcases h.1 he with hlt | ⟨heq, _⟩ <;> omega
  · intro he
    rw [he] at h
    refine Nat.le_of_not_lt fun hlt => ?_
    exact absurd (h.2 (.inl hlt)) Bool.false_ne_true

/-! ## What comes back -/

theorem return?_of_firstBack? {net : Network σ α} {f : Floor σ α} {e : Errand σ α}
    (h : f.firstBack? net = some e) : ∃ r, e.return? = some r := by
  have hleast := isLeast_time net f
  rw [h] at hleast
  obtain ⟨_, r, hr, _⟩ := hleast
  exact ⟨r, hr⟩

/-- Returns come one by one, each from the floor that the one before it leaves behind. -/
theorem returns_induction (net : Network σ α) {motive : Floor σ α → List (Return σ α) → Prop}
    (nil : ∀ f, f.firstBack? net = none → motive f [])
    (cons : ∀ f e r, f.firstBack? net = some e → e.return? = some r →
      motive (f.release net r.time e) ((f.release net r.time e).returns net) →
      motive f (r :: (f.release net r.time e).returns net))
    (f : Floor σ α) : motive f (f.returns net) := by
  induction hn : f.errands.length using Nat.strongRecOn generalizing f with
  | ind n ih =>
      cases hb : f.firstBack? net with
      | none =>
          rw [returns_of_none hb]
          exact nil f hb
      | some e =>
          obtain ⟨r, hr⟩ := return?_of_firstBack? hb
          rw [returns_of_some hb hr]
          apply cons f e r hb hr
          exact ih _ (hn ▸ length_release_lt net r.time (firstBack?_mem hb)) _ rfl

theorem firstBack?_of_returns_nil {net : Network σ α} {f : Floor σ α} (h : f.returns net = []) :
    f.firstBack? net = none := by
  cases hb : f.firstBack? net with
  | none => rfl
  | some e =>
      obtain ⟨r, hr⟩ := return?_of_firstBack? hb
      rw [returns_of_some hb hr] at h
      cases h

theorem firstBack?_of_returns_cons {net : Network σ α} {f : Floor σ α} {r : Return σ α}
    {rest : List (Return σ α)} (h : f.returns net = r :: rest) :
    ∃ e, f.firstBack? net = some e ∧ e.return? = some r ∧
      (f.release net r.time e).returns net = rest := by
  cases hb : f.firstBack? net with
  | none =>
      rw [returns_of_none hb] at h
      cases h
  | some e =>
      obtain ⟨q, hq⟩ := return?_of_firstBack? hb
      rw [returns_of_some hb hq] at h
      obtain ⟨rfl, hrest⟩ := List.cons.inj h
      exact ⟨e, rfl, hq, hrest⟩

theorem nextBack?_of_returns_nil {net : Network σ α} {f : Floor σ α} (h : f.returns net = []) :
    f.nextBack? net = none := by
  simp [nextBack?, firstBack?_of_returns_nil h]

/-- The return that comes first is the next that happens, timers apart. -/
theorem nextBack?_of_returns_cons {net : Network σ α} {f : Floor σ α} {r : Return σ α}
    {rest : List (Return σ α)} (h : f.returns net = r :: rest) :
    ∃ e ∈ f.errands, e.return? = some r ∧ f.nextBack? net = some (.back r.time e r.outcome) ∧
      (f.release net r.time e).returns net = rest := by
  obtain ⟨e, hb, hr, hrest⟩ := firstBack?_of_returns_cons h
  refine ⟨e, firstBack?_mem hb, hr, ?_, hrest⟩
  obtain ⟨t, ht, hd⟩ := Option.bind_eq_some_iff.1 hr
  obtain ⟨due, hdue, rfl⟩ := Option.map_eq_some_iff.1 hd
  simp [nextBack?, hb, ht, hdue]

theorem release_errands (net : Network σ α) (now : Nat) (e : Errand σ α) (f : Floor σ α) :
    ∀ d ∈ (f.release net now e).errands, ∃ d' ∈ f.errands, d'.ticket ≠ e.ticket ∧
      (d = d' ∨ d = d'.send net now) := by
  intro d hd
  simp only [release, send, dismiss_errands, List.mem_map, List.mem_filter, Bool.not_eq_true',
    decide_eq_false_iff_not] at hd
  obtain ⟨d', ⟨hd', hne⟩, rfl⟩ := hd
  refine ⟨d', hd', hne, ?_⟩
  split
  · exact .inr rfl
  · exact .inl rfl

theorem release_congr {net : Network σ α} {f f' : Floor σ α} (hp : f'.permits = f.permits)
    (he : f'.errands = f.errands) (now : Nat) (e : Errand σ α) :
    (f'.release net now e).permits = (f.release net now e).permits ∧
      (f'.release net now e).errands = (f.release net now e).errands := by
  constructor
  · simp only [release, send, dismiss, hp, he]
  · simp only [release, send, dismiss, isReady, holds, hp, he]
    rfl

/-- What comes back depends on permits and errands alone. -/
theorem returns_congr {net : Network σ α} {f f' : Floor σ α} (hp : f'.permits = f.permits)
    (he : f'.errands = f.errands) : f'.returns net = f.returns net := by
  refine returns_induction net
    (motive := fun f rs => ∀ f', f'.permits = f.permits → f'.errands = f.errands →
      f'.returns net = rs) ?_ ?_ f f' hp he
  · intro f hb f' _ he
    apply returns_of_none
    rw [firstBack?_eq, he, ← firstBack?_eq, hb]
  · intro f e r hb hr ih f' hp he
    have hb' : f'.firstBack? net = some e := by rw [firstBack?_eq, he, ← firstBack?_eq, hb]
    obtain ⟨hp', he'⟩ := release_congr hp he r.time e
    rw [returns_of_some hb' hr, ih _ hp' he']

/-- Nothing is on its way that comes back before a time. -/
def Since (time : Nat) (f : Floor σ α) : Prop :=
  ∀ e ∈ f.errands, ∀ r, e.return? = some r → time ≤ r.time

theorem since_zero (f : Floor σ α) : f.Since 0 := fun _ _ r _ => Nat.zero_le r.time

theorem since_release {net : Network σ α} {f : Floor σ α} {e : Errand σ α} {r : Return σ α}
    (hb : f.firstBack? net = some e) (hr : e.return? = some r) :
    (f.release net r.time e).Since r.time := by
  have hleast := isLeast_time net f
  rw [hb] at hleast
  obtain ⟨_, q, hq, hmin⟩ := hleast
  obtain rfl := Option.some.inj (hq.symm.trans hr)
  intro d hd s hs
  obtain ⟨d', hd', _, rfl | rfl⟩ := release_errands net q.time e f d hd
  · exact hmin d hd' s hs
  · exact Errand.le_return?_send hs

/-- Returns come in the order of time. -/
theorem returns_sorted (net : Network σ α) {time : Nat} {f : Floor σ α} (h : f.Since time) :
    (∀ r ∈ f.returns net, time ≤ r.time) ∧
      (f.returns net).Pairwise fun a b => a.time ≤ b.time := by
  refine returns_induction net
    (motive := fun f rs => ∀ time, f.Since time → (∀ r ∈ rs, time ≤ r.time) ∧
      rs.Pairwise fun a b => a.time ≤ b.time) ?_ ?_ f time h
  · intro f _ time _
    simp
  · intro f e r hb hr ih time h
    obtain ⟨hle, hsorted⟩ := ih r.time (since_release hb hr)
    have hr' := h e (firstBack?_mem hb) r hr
    refine ⟨?_, List.pairwise_cons.2 ⟨hle, hsorted⟩⟩
    intro s hs
    rcases List.mem_cons.1 hs with rfl | hs
    · exact hr'
    · exact Nat.le_trans hr' (hle s hs)

/-- Tickets and positions of errands agree. -/
def Numbered (f : Floor σ α) : Prop := ∀ e ∈ f.errands, e.ticket = e.position

theorem numbered_release (net : Network σ α) {f : Floor σ α} (h : f.Numbered) (now : Nat)
    (e : Errand σ α) : (f.release net now e).Numbered := by
  intro d hd
  obtain ⟨d', hd', _, rfl | rfl⟩ := release_errands net now e f d hd
  · exact h d hd'
  · exact h d' hd'

/-- Every errand comes back at most once. -/
theorem returns_positions (net : Network σ α) {f : Floor σ α} (h : f.Numbered) :
    (∀ r ∈ f.returns net, r.position ∈ f.errands.map Errand.position) ∧
      (f.returns net).Pairwise fun a b => a.position ≠ b.position := by
  refine returns_induction net
    (motive := fun f rs => f.Numbered → (∀ r ∈ rs, r.position ∈ f.errands.map Errand.position) ∧
      rs.Pairwise fun a b => a.position ≠ b.position) ?_ ?_ f h
  · intro f _ _
    simp
  · intro f e r hb hr ih h
    obtain ⟨hmem, hnodup⟩ := ih (numbered_release net h r.time e)
    have he := firstBack?_mem hb
    have hpos := (Errand.return?_position hr).1
    have hleft : ∀ s ∈ (f.release net r.time e).returns net,
        s.position ∈ f.errands.map Errand.position ∧ r.position ≠ s.position := by
      intro s hs
      obtain ⟨d, hd, hds⟩ := List.mem_map.1 (hmem s hs)
      obtain ⟨d', hd', hne, hsame⟩ := release_errands net r.time e f d hd
      have hposition : d'.position = s.position := by
        rw [← hds]
        rcases hsame with rfl | rfl <;> rfl
      refine ⟨List.mem_map.2 ⟨d', hd', hposition⟩, ?_⟩
      rw [hpos, ← hposition, ← h e he, ← h d' hd']
      exact hne.symm
    refine ⟨?_, List.pairwise_cons.2 ⟨fun s hs => (hleft s hs).2, hnodup⟩⟩
    intro s hs
    rcases List.mem_cons.1 hs with rfl | hs
    · exact List.mem_map.2 ⟨e, he, hpos.symm⟩
    · exact (hleft s hs).1

/-- What is in transit is what the network made of an errand when it was sent. -/
def Faithful (net : Network σ α) (f : Floor σ α) : Prop :=
  ∀ e ∈ f.errands, e.transit = none ∨ ∃ now d, e = Errand.send net now d

theorem faithful_send {net : Network σ α} {f : Floor σ α} (h : f.Faithful net) (now : Nat) :
    (f.send net now).Faithful net := by
  intro e he
  obtain ⟨d, hd, rfl | rfl⟩ := mem_send_errands he
  · exact h e hd
  · exact .inr ⟨now, d, rfl⟩

/-- Every return is that of an errand on the floor, with the outcome that the network has for it. -/
theorem returns_origin {net : Network σ α} {f : Floor σ α} (h : f.Faithful net) :
    ∀ r ∈ f.returns net, r.outcome = (net.deliver r.subject).outcome ∧
      (net.deliver r.subject).delay.isSome ∧
      ∃ e ∈ f.errands, e.position = r.position ∧ e.subject = r.subject := by
  refine returns_induction net
    (motive := fun f rs => f.Faithful net → ∀ r ∈ rs,
      r.outcome = (net.deliver r.subject).outcome ∧ (net.deliver r.subject).delay.isSome ∧
      ∃ e ∈ f.errands, e.position = r.position ∧ e.subject = r.subject) ?_ ?_ f h
  · intro f _ _ r hr
    cases hr
  · intro f e r hb hr ih h s hs
    have he := firstBack?_mem hb
    rcases List.mem_cons.1 hs with rfl | hs
    · obtain ⟨hposition, hsubject⟩ := Errand.return?_position hr
      obtain ⟨houtcome, hdelay⟩ : s.outcome = (net.deliver s.subject).outcome ∧
          (net.deliver s.subject).delay.isSome := by
        rcases h e he with hnone | ⟨now, d, rfl⟩
        · simp [Errand.return?, hnone] at hr
        · simp only [Errand.return?, Errand.send, Option.bind_some, Option.map_map,
            Option.map_eq_some_iff] at hr
          obtain ⟨delay, hdelay, rfl⟩ := hr
          exact ⟨rfl, by simp [hdelay]⟩
      exact ⟨houtcome, hdelay, e, he, hposition.symm, hsubject.symm⟩
    · have hdismiss : (f.dismiss fun d => d.ticket = e.ticket).Faithful net := by
        intro d hd
        exact h d (List.mem_filter.1 hd).1
      obtain ⟨houtcome, hdelay, d, hd, hposition, hsubject⟩ :=
        ih (faithful_send hdismiss r.time) s hs
      obtain ⟨d', hd', _, rfl | rfl⟩ := release_errands net r.time e f d hd
      · exact ⟨houtcome, hdelay, d, hd', hposition, hsubject⟩
      · exact ⟨houtcome, hdelay, d', hd', hposition, hsubject⟩

end Floor

end MetricFanout
