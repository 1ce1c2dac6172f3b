import Mathlib.Data.Int.Order.Basic
import Mathlib.Data.List.Basic
import Mathlib.Data.List.Induction
import MetricFanout.Proofs.Order.SortedList
import MetricFanout.Signal
/-!
# A signal reaches everyone who waits for it

A wait that is not dropped is over exactly if the signal has been triggered since it began: it ends when its waiter
looks for the first time after that, whether it has looked before or not, and however often the signal has been
triggered meanwhile. What was triggered before it began does not count. A trigger tells how many subscriptions and
waits there are.

Those who use a signal look and read one by one and at any time, so a run has a deed for each of them. A look at all
waiters, as it follows each step of a signal, is one such deed.

A trigger that nobody listens to leaves no message. So a waiter finds something because it was there itself when the
signal was triggered; this is why the fate of a wait is followed deed by deed.
-/

namespace MetricFanout

namespace Signal

/-- What happens at a signal. -/
inductive Deed where
  | act (t : Step)
  /-- Some of the waiters look whether there is anything for them. -/
  | look (who : Int → Bool)
  /-- A subscriber reads. -/
  | read (id : Int)

/-- Some waiters look; those that are done leave and are listed. -/
def lookAt (s : Signal) (who : Int → Bool) : Signal × List Int :=
  ({ s with waiters := s.waiters.filter fun w => !(who w.1 && s.isDone w) },
    (s.waiters.filter fun w => who w.1 && s.isDone w).map Prod.fst)

/-- What a subscriber reads next. -/
def read (s : Signal) (id : Int) : Signal :=
  { s with subscribers := s.subscribers.map fun l => (l.1, if l.1 = id then (s.channel.receive l.2).2 else l.2) }

/-- The signal after a deed. -/
def does (s : Signal) : Deed → Signal
  | .act t => (s.apply t).1
  | .look who => (s.lookAt who).1
  | .read id => s.read id

/-- The signal after a run. -/
def after (s : Signal) (run : List Deed) : Signal := run.foldl does s

variable {s : Signal} {d : Deed} {run mid : List Deed} {id : Int} {l : Listener}

theorem after_snoc (s : Signal) (run : List Deed) (d : Deed) : s.after (run ++ [d]) = (s.after run).does d := by
  simp only [after, List.foldl_append, List.foldl_cons, List.foldl_nil]

/-- A step is a deed, and all waiters look after it. -/
theorem step_eq (s : Signal) (t : Step) : s.step t =
    (((s.does (.act t)).does (.look fun _ => true)), (s.apply t).2, ((s.does (.act t)).lookAt fun _ => true).2) :=
  rfl

/-! ## Histories -/

namespace Deed

/-- Whether a waiter looks. -/
def looksAt (id : Int) : Deed → Bool
  | .look who => who id
  | _ => false

/-- Whether a wait is dropped, or another one begins in its place. -/
def ends (id : Int) : Deed → Bool
  | .act (.wait i) => i = id
  | .act (.drop i) => i = id
  | _ => false

theorem ends_iff : d.ends id = true ↔ d = .act (.wait id) ∨ d = .act (.drop id) := by
  cases d with
  | act t => cases t <;> simp [ends]
  | look who => simp [ends]
  | read i => simp [ends]

end Deed

/-- A waiter has looked after the signal was triggered. -/
def Heard (id : Int) (mid : List Deed) : Prop :=
  ∃ before after d, mid = before ++ d :: after ∧ d.looksAt id = true ∧ .act .trigger ∈ before

/-- A subscription has begun and has not been dropped. -/
def Subscribed (run : List Deed) (id : Int) : Prop :=
  ∃ before mid, run = before ++ .act (.subscribe id) :: mid ∧ .act (.drop id) ∉ mid

/-- A wait has begun, has not been dropped, and is not over. -/
def Waiting (run : List Deed) (id : Int) : Prop :=
  ∃ before mid, run = before ++ .act (.wait id) :: mid ∧ (∀ d ∈ mid, d.ends id = false) ∧ ¬ Heard id mid

/-- What is split off a list that has grown at the end is either its last item, or it was there before. -/
theorem snoc_eq_append_cons {α : Type} {items before after : List α} {last item : α} :
    items ++ [last] = before ++ item :: after ↔
      (items = before ∧ last = item ∧ after = []) ∨
        ∃ rest, after = rest ++ [last] ∧ items = before ++ item :: rest := by
  constructor
  · intro h
    rcases List.eq_nil_or_concat' after with rfl | ⟨rest, d, rfl⟩
    · obtain ⟨hitems, hlast⟩ := List.append_inj' h rfl
      exact .inl ⟨hitems, List.singleton_inj.1 hlast, rfl⟩
    · rw [← List.cons_append, ← List.append_assoc] at h
      obtain ⟨hitems, hlast⟩ := List.append_inj' h rfl
      exact .inr ⟨rest, by rw [List.singleton_inj.1 hlast], hitems⟩
  · rintro (⟨rfl, rfl, rfl⟩ | ⟨rest, rfl, rfl⟩)
    · rfl
    · simp

theorem heard_snoc : Heard id (mid ++ [d]) ↔ Heard id mid ∨ d.looksAt id = true ∧ .act .trigger ∈ mid := by
  constructor
  · rintro ⟨before, after, d', hsplit, hlook, htrigger⟩
    rcases snoc_eq_append_cons.1 hsplit with ⟨rfl, rfl, _⟩ | ⟨rest, _, hmid⟩
    · exact .inr ⟨hlook, htrigger⟩
    · exact .inl ⟨before, rest, d', hmid, hlook, htrigger⟩
  · rintro (⟨before, after, d', rfl, hlook, htrigger⟩ | ⟨hlook, htrigger⟩)
    · exact ⟨before, after ++ [d], d', by simp, hlook, htrigger⟩
    · exact ⟨mid, [], d, rfl, hlook, htrigger⟩

theorem Heard.trigger_mem (h : Heard id mid) : .act .trigger ∈ mid := by
  obtain ⟨before, after, _, rfl, _, htrigger⟩ := h
  exact List.mem_append_left _ htrigger

/-- A subscription lasts until it is dropped. -/
theorem subscribed_snoc : Subscribed (run ++ [d]) id ↔
    d = .act (.subscribe id) ∨ d ≠ .act (.drop id) ∧ Subscribed run id := by
  constructor
  · rintro ⟨before, mid, hsplit, hdrop⟩
    rcases snoc_eq_append_cons.1 hsplit with ⟨_, hd, _⟩ | ⟨rest, rfl, hrun⟩
    · exact .inl hd
    · simp only [List.mem_append, List.mem_singleton, not_or] at hdrop
      exact .inr ⟨Ne.symm hdrop.2, before, rest, hrun, hdrop.1⟩
  · rintro (rfl | ⟨hd, before, mid, rfl, hdrop⟩)
    · exact ⟨run, [], rfl, List.not_mem_nil⟩
    · refine ⟨before, mid ++ [d], by simp, ?_⟩
      simp only [List.mem_append, List.mem_singleton, not_or]
      exact ⟨hdrop, Ne.symm hd⟩

/-! ## One deed -/

/-- The listeners of a signal are listed by their numbers, each once. -/
structure Listed (s : Signal) : Prop where
  subscribers : SortedList.Sorted s.subscribers
  waiters : SortedList.Sorted s.waiters

theorem isDone_iff {w : Int × Listener} : s.isDone w = true ↔ w.2.next < s.channel.sent := by
  simp only [isDone, Channel.receive, ne_eq]
  split
  · simp; omega
  · split
    · simp; omega
    · simp; omega

theorem Listed.does (h : s.Listed) (d : Deed) : (s.does d).Listed := by
  cases d with
  | act t =>
      cases t with
      | subscribe i => exact ⟨h.subscribers.insert i _, h.waiters⟩
      | wait i => exact ⟨h.subscribers, h.waiters.insert i _⟩
      | drop i => exact ⟨h.subscribers.filter _, h.waiters.filter _⟩
      | trigger =>
          simp only [Signal.does, apply]
          split
          · exact h
          · exact ⟨h.subscribers, h.waiters⟩
  | look who => exact ⟨h.subscribers, h.waiters.filter _⟩
  | read i => exact ⟨List.pairwise_map.2 h.subscribers, h.waiters⟩

theorem listed_after (run : List Deed) : (after {} run).Listed := by
  induction run using List.reverseRecOn with
  | nil => exact ⟨.nil, .nil⟩
  | append_singleton run d ih =>
      rw [after_snoc]
      exact ih.does d

/-- A wait stays in place unless it is dropped, replaced, or over. -/
theorem Listed.mem_waiters_does (h : s.Listed) (hends : d.ends id = false) : (id, l) ∈ (s.does d).waiters ↔
    (id, l) ∈ s.waiters ∧ ¬ (d.looksAt id = true ∧ l.next < s.channel.sent) := by
  cases d with
  | act t =>
      cases t with
      | subscribe i => simp [Signal.does, apply, Deed.looksAt]
      | wait i =>
          have hne : id ≠ i := fun heq => by simp [Deed.ends, heq] at hends
          simp [Signal.does, apply, Deed.looksAt, h.waiters.mem_insert, hne]
      | drop i =>
          have hne : id ≠ i := fun heq => by simp [Deed.ends, heq] at hends
          simp [Signal.does, apply, Deed.looksAt, SortedList.erase, hne]
      | trigger =>
          simp only [Signal.does, apply]
          split
          · simp [Deed.looksAt]
          · simp [Deed.looksAt]
  | look who =>
      simp only [Signal.does, lookAt, Deed.looksAt, List.mem_filter, ← isDone_iff (w := (id, l)),
        ← Bool.and_eq_true, Bool.not_eq_true, Bool.not_eq_true']
  | read i => simp [Signal.does, read, Deed.looksAt]

theorem Listed.keys_subscribers_does (h : s.Listed) : id ∈ (s.does d).subscribers.map Prod.fst ↔
    d = .act (.subscribe id) ∨ d ≠ .act (.drop id) ∧ id ∈ s.subscribers.map Prod.fst := by
  cases d with
  | act t =>
      cases t with
      | subscribe i =>
          simp only [Signal.does, apply, h.subscribers.mem_keys_insert, Deed.act.injEq, Step.subscribe.injEq,
            ne_eq, reduceCtorEq, not_false_eq_true, true_and, eq_comm]
      | wait i => simp [Signal.does, apply]
      | drop i =>
          simp only [Signal.does, apply, SortedList.mem_keys_erase, Deed.act.injEq, Step.drop.injEq, ne_eq,
            reduceCtorEq, false_or, eq_comm]
      | trigger =>
          simp only [Signal.does, apply]
          split
          · simp
          · simp
  | look who => simp [Signal.does, lookAt]
  | read i => simp [Signal.does, read]

theorem sent_does_of_ne (hd : d ≠ .act .trigger) : (s.does d).channel.sent = s.channel.sent := by
  cases d with
  | act t =>
      cases t with
      | trigger => exact absurd rfl hd
      | _ => rfl
  | look who => rfl
  | read i => rfl

theorem sent_le_does (s : Signal) : s.channel.sent ≤ (s.does d).channel.sent := by
  by_cases hd : d = .act .trigger
  · subst hd
    simp only [does, apply]
    split
    · exact Nat.le_refl _
    · exact Nat.le_succ _
  · exact Nat.le_of_eq (sent_does_of_ne hd).symm

theorem sent_trigger (h : s.listeners ≠ 0) : (s.does (.act .trigger)).channel.sent = s.channel.sent + 1 := by
  rw [does, apply, if_neg h]

theorem listeners_ne_zero (h : (id, l) ∈ s.waiters) : s.listeners ≠ 0 := by
  have := List.length_pos_of_mem h
  rw [listeners]
  omega

/-! ## The fate of a wait -/

/-- What becomes of a wait that is not dropped. -/
inductive Fate (id : Int) (l : Listener) (mid : List Deed) (s : Signal) : Prop
  | uncalled (htrigger : .act .trigger ∉ mid) (hmem : (id, l) ∈ s.waiters) (hsent : s.channel.sent = l.next)
  | called (htrigger : .act .trigger ∈ mid) (hheard : ¬ Heard id mid) (hmem : (id, l) ∈ s.waiters)
      (hsent : l.next < s.channel.sent)
  | ended (hheard : Heard id mid) (hgone : ∀ l, (id, l) ∉ s.waiters)

/-- The fate of a wait is decided by each deed anew. -/
theorem Fate.does (hs : s.Listed) (h : Fate id l mid s) (hends : d.ends id = false) :
    Fate id l (mid ++ [d]) (s.does d) := by
  have hstays := fun {l} => hs.mem_waiters_does (l := l) hends
  cases h with
  | uncalled htrigger hmem hsent =>
      have hmem' : (id, l) ∈ (s.does d).waiters := hstays.2 ⟨hmem, fun hlook => absurd hlook.2 (by omega)⟩
      by_cases hd : d = .act .trigger
      · subst hd
        -- the waiter itself listens, so this trigger leaves a message
        refine .called (by simp) (fun hheard => ?_) hmem' ?_
        · rcases heard_snoc.1 hheard with hheard | hheard
          · exact htrigger hheard.trigger_mem
          · exact htrigger hheard.2
        · rw [sent_trigger (listeners_ne_zero hmem)]
          omega
      · refine .uncalled ?_ hmem' (by rw [sent_does_of_ne hd, hsent])
        rw [List.mem_append, List.mem_singleton]
        exact not_or.2 ⟨htrigger, Ne.symm hd⟩
  | called htrigger hheard hmem hsent =>
      by_cases hlook : d.looksAt id = true
      · refine .ended (heard_snoc.2 (.inr ⟨hlook, htrigger⟩)) fun l' hl' => ?_
        obtain ⟨hold, hnot⟩ := hstays.1 hl'
        rw [hs.waiters.unique hold hmem] at hnot
        exact hnot ⟨hlook, hsent⟩
      · refine .called (List.mem_append_left _ htrigger) ?_ (hstays.2 ⟨hmem, fun hboth => hlook hboth.1⟩)
          (Nat.lt_of_lt_of_le hsent s.sent_le_does)
        exact fun h => (heard_snoc.1 h).elim hheard fun hboth => hlook hboth.1
  | ended hheard hgone => exact .ended (heard_snoc.2 (.inl hheard)) fun l' hl' => hgone l' (hstays.1 hl').1

/-- A wait begins with nothing to read. -/
theorem Listed.fate_wait (h : s.Listed) (id : Int) :
    Fate id s.channel.subscribe [] (s.does (.act (.wait id))) :=
  .uncalled List.not_mem_nil (h.waiters.mem_insert.2 (.inl rfl)) rfl

theorem fate_after (before : List Deed) (id : Int) (hends : ∀ d ∈ mid, d.ends id = false) :
    Fate id (after {} before).channel.subscribe mid (after {} (before ++ .act (.wait id) :: mid)) := by
  induction mid using List.reverseRecOn with
  | nil =>
      rw [after_snoc]
      exact (listed_after before).fate_wait id
  | append_singleton mid d ih =>
      obtain ⟨hmid, hd⟩ := List.forall_mem_append.1 hends
      rw [← List.cons_append, ← List.append_assoc, after_snoc]
      exact (ih hmid).does (listed_after _) (hd d List.mem_cons_self)

/-- Whoever waits has begun to wait. -/
theorem exists_wait (h : (id, l) ∈ (after {} run).waiters) :
    ∃ before mid, run = before ++ .act (.wait id) :: mid ∧ ∀ d ∈ mid, d.ends id = false := by
  induction run using List.reverseRecOn with
  | nil => exact absurd h List.not_mem_nil
  | append_singleton run d ih =>
      rw [after_snoc] at h
      cases hends : d.ends id with
      | true =>
          rcases Deed.ends_iff.1 hends with rfl | rfl
          · exact ⟨run, [], rfl, List.forall_mem_nil _⟩
          · exact absurd (List.mem_map_of_mem h) fun hkey => (SortedList.mem_keys_erase.1 hkey).1 rfl
      | false =>
          obtain ⟨before, mid, rfl, hmid⟩ := ih ((listed_after run).mem_waiters_does hends |>.1 h).1
          exact ⟨before, mid ++ [d], by simp, List.forall_mem_append.2 ⟨hmid, List.forall_mem_singleton.2 hends⟩⟩

/-! ## Runs -/

theorem mem_waiters_iff (hends : ∀ d ∈ mid, d.ends id = false) (before : List Deed) :
    id ∈ (after {} (before ++ .act (.wait id) :: mid)).waiters.map Prod.fst ↔ ¬ Heard id mid := by
  constructor
  · rintro hmem hheard
    obtain ⟨⟨_, l⟩, hl, rfl⟩ := List.mem_map.1 hmem
    cases fate_after before _ hends with
    | uncalled htrigger _ _ => exact htrigger hheard.trigger_mem
    | called _ hnot _ _ => exact hnot hheard
    | ended _ hgone => exact hgone l hl
  · intro hheard
    cases fate_after before _ hends with
    | uncalled _ hmem _ => exact List.mem_map_of_mem hmem
    | called _ _ hmem _ => exact List.mem_map_of_mem hmem
    | ended hyes _ => exact absurd hyes hheard

theorem waiting_iff (run : List Deed) (id : Int) : id ∈ (after {} run).waiters.map Prod.fst ↔ Waiting run id := by
  constructor
  · intro hmem
    obtain ⟨⟨_, l⟩, hl, rfl⟩ := List.mem_map.1 hmem
    obtain ⟨before, mid, rfl, hends⟩ := exists_wait hl
    exact ⟨before, mid, rfl, hends, (mem_waiters_iff hends before).1 hmem⟩
  · rintro ⟨before, mid, rfl, hends, hheard⟩
    exact (mem_waiters_iff hends before).2 hheard

theorem subscribed_iff (run : List Deed) (id : Int) :
    id ∈ (after {} run).subscribers.map Prod.fst ↔ Subscribed run id := by
  induction run using List.reverseRecOn with
  | nil =>
      constructor
      · exact fun h => absurd h List.not_mem_nil
      · rintro ⟨before, mid, hnil, _⟩
        simp at hnil
  | append_singleton run d ih => rw [after_snoc, (listed_after run).keys_subscribers_does, ih, subscribed_snoc]

/-- A wait is over at a look if the signal was triggered before, and the waiter has not looked since. -/
theorem mem_lookAt_iff (hends : ∀ d ∈ mid, d.ends id = false) (before : List Deed) (who : Int → Bool) :
    id ∈ ((after {} (before ++ .act (.wait id) :: mid)).lookAt who).2 ↔
      who id = true ∧ .act .trigger ∈ mid ∧ ¬ Heard id mid := by
  have hfate := fate_after before id hends
  have hs := listed_after (before ++ .act (.wait id) :: mid)
  generalize after {} (before ++ .act (.wait id) :: mid) = s at hfate hs ⊢
  have hmem_lookAt : id ∈ (s.lookAt who).2 ↔
      ∃ l, (id, l) ∈ s.waiters ∧ who id = true ∧ l.next < s.channel.sent := by
    simp only [lookAt, List.mem_map, List.mem_filter, Bool.and_eq_true]
    constructor
    · rintro ⟨⟨_, l⟩, ⟨hl, hwho, hdone⟩, rfl⟩
      exact ⟨l, hl, hwho, isDone_iff.1 hdone⟩
    · rintro ⟨l, hl, hwho, hnext⟩
      exact ⟨(id, l), ⟨hl, hwho, isDone_iff.2 hnext⟩, rfl⟩
  rw [hmem_lookAt]
  constructor
  · rintro ⟨l, hl, hwho, hnext⟩
    cases hfate with
    | uncalled _ hmem hsent =>
        rw [hs.waiters.unique hl hmem] at hnext
        omega
    | called htrigger hheard _ _ => exact ⟨hwho, htrigger, hheard⟩
    | ended _ hgone => exact absurd hl (hgone l)
  · rintro ⟨hwho, htrigger, hheard⟩
    cases hfate with
    | uncalled hnot _ _ => exact absurd htrigger hnot
    | called _ _ hmem hsent => exact ⟨_, hmem, hwho, hsent⟩
    | ended hyes _ => exact absurd hyes hheard

/-- **A signal reaches exactly those who wait.** After any run, a wait that has been neither dropped nor replaced is
pending unless its waiter has looked since a trigger; it is over at a look exactly if the signal has been triggered
since the wait began and the waiter has not looked since; so a wait is pending behind a look exactly if there was no
trigger. The listeners, which are what a trigger reports, are the subscriptions and the pending waits. -/
theorem delivery (run : List Deed) :
    (∀ before mid id, run = before ++ .act (.wait id) :: mid → (∀ d ∈ mid, d.ends id = false) →
      (id ∈ (after {} run).waiters.map Prod.fst ↔ ¬ Heard id mid) ∧
      ∀ who, (id ∈ ((after {} run).lookAt who).2 ↔ who id = true ∧ .act .trigger ∈ mid ∧ ¬ Heard id mid) ∧
        (who id = true →
          (id ∈ ((after {} run).lookAt who).1.waiters.map Prod.fst ↔ .act .trigger ∉ mid))) ∧
    ∃ subscribed waiting : List Int, subscribed.Nodup ∧ waiting.Nodup ∧
      (∀ id, id ∈ subscribed ↔ Subscribed run id) ∧ (∀ id, id ∈ waiting ↔ Waiting run id) ∧
      (after {} run).listeners = subscribed.length + waiting.length ∧
      ((after {} run).apply .trigger).2 = some (subscribed.length + waiting.length) := by
  constructor
  · rintro before mid id rfl hends
    refine ⟨mem_waiters_iff hends before, fun who => ⟨mem_lookAt_iff hends before who, fun hwho => ?_⟩⟩
    have hlook : ∀ d ∈ mid ++ [.look who], d.ends id = false :=
      List.forall_mem_append.2 ⟨hends, List.forall_mem_singleton.2 rfl⟩
    have hnext := mem_waiters_iff hlook before
    rw [← List.cons_append, ← List.append_assoc, after_snoc, heard_snoc] at hnext
    refine hnext.trans (not_congr ⟨?_, fun htrigger => .inr ⟨hwho, htrigger⟩⟩)
    rintro (hheard | ⟨_, htrigger⟩)
    · exact hheard.trigger_mem
    · exact htrigger
  · refine ⟨(after {} run).subscribers.map Prod.fst, (after {} run).waiters.map Prod.fst,
      (listed_after run).subscribers.nodup, (listed_after run).waiters.nodup, subscribed_iff run, waiting_iff run,
      ?_, ?_⟩
    · rw [List.length_map, List.length_map, listeners]
    · rw [List.length_map, List.length_map, ← listeners, apply]
      split
      · rename_i hzero
        rw [hzero]
      · rfl

/-- Three triggers, of which the channel keeps one, after a look that found nothing: the wait is over at the next
look, and until then it is one of two listeners. -/
theorem delivery_lagging :
    2 ∉ ((after {} [.act (.subscribe 1), .act (.wait 2), .look fun _ => true, .act .trigger, .act .trigger,
      .act .trigger]).lookAt fun _ => true).1.waiters.map Prod.fst ∧
    ((after {} [.act (.subscribe 1), .act (.wait 2), .look fun _ => true, .act .trigger, .act .trigger,
      .act .trigger]).apply .trigger).2 = some 2 := by
  obtain ⟨hwaits, _⟩ := delivery [.act (.subscribe 1), .act (.wait 2), .look fun _ => true, .act .trigger,
    .act .trigger, .act .trigger]
  obtain ⟨_, hlooks⟩ := hwaits [.act (.subscribe 1)]
    [.look fun _ => true, .act .trigger, .act .trigger, .act .trigger] 2 rfl (by simp [Deed.ends])
  exact ⟨fun hmem => ((hlooks fun _ => true).2 rfl).1 hmem (by simp), by decide⟩

end Signal

end MetricFanout
