import Mathlib.Data.List.Forall2
/-!
# Computations that may fail

A computation of several steps succeeds only if each step does. These are the steps of one that has succeeded,
and the step at which one has failed.
-/

namespace MetricFanout

variable {α β ε : Type}

theorem exists_of_bind_ok {x : Except ε α} {f : α → Except ε β} {b : β} (h : x >>= f = .ok b) :
    ∃ a, x = .ok a ∧ f a = .ok b := by
  cases x with
  | error err => cases h
  | ok a => exact ⟨a, rfl, h⟩

theorem exists_of_map_ok {f : α → β} {x : Except ε α} {b : β} (h : x.map f = .ok b) :
    ∃ a, x = .ok a ∧ f a = b := by
  cases x with
  | error err => cases h
  | ok a => exact ⟨a, rfl, Except.ok.inj h⟩

/-! ## Lists -/

variable {f : α → Except ε β}

theorem mapM_cons_eq_ok {a : α} {rest : List α} {results : List β} (h : (a :: rest).mapM f = .ok results) :
    ∃ b bs, f a = .ok b ∧ rest.mapM f = .ok bs ∧ results = b :: bs := by
  rw [List.mapM_cons] at h
  cases ha : f a with
  | error err =>
      rw [ha] at h
      cases h
  | ok b =>
      cases hrest : rest.mapM f with
      | error err =>
          rw [ha, hrest] at h
          cases h
      | ok bs =>
          rw [ha, hrest] at h
          exact ⟨b, bs, rfl, rfl, (Except.ok.inj h).symm⟩

/-- The error of a list is that of one of its items. -/
theorem exists_of_mapM_eq_error {items : List α} {err : ε} (h : items.mapM f = .error err) :
    ∃ a ∈ items, f a = .error err := by
  induction items with
  | nil => cases h
  | cons a rest ih =>
      rw [List.mapM_cons] at h
      cases ha : f a with
      | error first =>
          rw [ha] at h
          cases h
          exact ⟨a, List.mem_cons_self, ha⟩
      | ok b =>
          cases hrest : rest.mapM f with
          | error later =>
              rw [ha, hrest] at h
              cases h
              obtain ⟨a', hmem, ha'⟩ := ih hrest
              exact ⟨a', List.mem_cons_of_mem _ hmem, ha'⟩
          | ok bs =>
              rw [ha, hrest] at h
              cases h

/-- The results of a list are those of its items, in order. -/
theorem forall₂_of_mapM_eq_ok {items : List α} {results : List β} (h : items.mapM f = .ok results) :
    List.Forall₂ (fun a b => f a = .ok b) items results := by
  induction items generalizing results with
  | nil =>
      cases h
      exact .nil
  | cons a rest ih =>
      obtain ⟨b, bs, ha, hrest, rfl⟩ := mapM_cons_eq_ok h
      exact .cons ha (ih hrest)

/-- Every result of a list is that of one of its items. -/
theorem exists_of_mapM_eq_ok {items : List α} {results : List β} (h : items.mapM f = .ok results) :
    ∀ b ∈ results, ∃ a ∈ items, f a = .ok b := by
  induction items generalizing results with
  | nil =>
      cases h
      exact fun b hb => absurd hb List.not_mem_nil
  | cons a rest ih =>
      obtain ⟨b, bs, ha, hrest, rfl⟩ := mapM_cons_eq_ok h
      intro b' hb'
      rcases List.mem_cons.1 hb' with rfl | hb'
      · exact ⟨a, List.mem_cons_self, ha⟩
      · obtain ⟨a', hmem, ha'⟩ := ih hrest b' hb'
        exact ⟨a', List.mem_cons_of_mem _ hmem, ha'⟩

/-- Every item of a list has its result among those of the list. -/
theorem exists_mem_of_mapM_eq_ok {items : List α} {results : List β} (h : items.mapM f = .ok results) :
    ∀ a ∈ items, ∃ b ∈ results, f a = .ok b := by
  induction items generalizing results with
  | nil => exact List.forall_mem_nil _
  | cons a rest ih =>
      obtain ⟨b, bs, ha, hrest, rfl⟩ := mapM_cons_eq_ok h
      refine List.forall_mem_cons.2 ⟨⟨b, List.mem_cons_self, ha⟩, fun a' ha' => ?_⟩
      obtain ⟨b', hmem, hb'⟩ := ih hrest a' ha'
      exact ⟨b', List.mem_cons_of_mem _ hmem, hb'⟩

theorem exists_of_mapM_eq_some {g : α → Option β} {items : List α} : ∀ {results : List β},
    items.mapM g = some results → ∀ b ∈ results, ∃ a ∈ items, g a = some b := by
  induction items with
  | nil =>
      intro results h
      obtain rfl := Option.some.inj h
      exact List.forall_mem_nil _
  | cons a rest ih =>
      intro results h
      rw [List.mapM_cons] at h
      obtain ⟨b, hb, h⟩ := Option.bind_eq_some_iff.1 h
      obtain ⟨bs, hbs, h⟩ := Option.bind_eq_some_iff.1 h
      obtain rfl := Option.some.inj h
      refine List.forall_mem_cons.2 ⟨⟨a, List.mem_cons_self, hb⟩, fun c hc => ?_⟩
      obtain ⟨a', ha', hc'⟩ := ih hbs c hc
      exact ⟨a', List.mem_cons_of_mem _ ha', hc'⟩

end MetricFanout
