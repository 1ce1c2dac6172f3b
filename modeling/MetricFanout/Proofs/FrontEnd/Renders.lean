import MetricFanout.Proofs.FrontEnd.Times
/-!
# Which renders are accepted

A render is accepted if and only if both of its times are times, it has a target and its format is known, and
what is accepted then is what its texts denote. Otherwise the first check that fails says why.

Checks are listed in their order with the rejections that they give. A rejection is derived from the list: its own
check fails, and all checks before it hold.
-/

namespace MetricFanout

/-- The formats by name; none is a pickle. -/
inductive Format.Named : String → Format → Prop
  | json : Named "json" .json
  | pickle : Named "pickle" .pickle
  | unnamed : Named "" .pickle

theorem Format.parse?_eq_some_iff {name : String} {f : Format} : parse? name = some f ↔ Named name f := by
  constructor
  · intro h
    unfold parse? at h
    split at h
    · cases h
      exact .json
    · cases h
      exact .unnamed
    · cases h
      exact .pickle
    · cases h
  · rintro (_ | _ | _) <;> rfl

theorem Format.parse?_eq_none_iff {name : String} : parse? name = none ↔ name ∉ ["", "json", "pickle"] := by
  constructor
  · intro h hname
    simp only [List.mem_cons, List.not_mem_nil, or_false] at hname
    rcases hname with rfl | rfl | rfl <;> cases h
  · intro hname
    cases h : parse? name with
    | none => rfl
    | some f =>
        refine absurd ?_ hname
        cases parse?_eq_some_iff.1 h <;> decide

/-! ## Checks in order -/

/-- The rejection of the first check that fails. -/
inductive FirstFailing : List (Prop × Rejection) → Rejection → Prop
  | here {holds : Prop} {e : Rejection} {later : List (Prop × Rejection)} (h : ¬ holds) :
      FirstFailing ((holds, e) :: later) e
  | later {holds : Prop} {e e' : Rejection} {later : List (Prop × Rejection)} (h : holds)
      (hlater : FirstFailing later e') : FirstFailing ((holds, e) :: later) e'

theorem not_firstFailing_nil (e : Rejection) : ¬ FirstFailing [] e := nofun

theorem firstFailing_cons_iff {holds : Prop} {e e' : Rejection} {later : List (Prop × Rejection)} :
    FirstFailing ((holds, e) :: later) e' ↔ ¬ holds ∧ e = e' ∨ holds ∧ FirstFailing later e' := by
  constructor
  · rintro (h | ⟨h, hlater⟩)
    · exact .inl ⟨h, rfl⟩
    · exact .inr ⟨h, hlater⟩
  · rintro (⟨h, rfl⟩ | ⟨h, hlater⟩)
    · exact .here h
    · exact .later h hlater

/-- Some check fails first if and only if not all of them hold. -/
theorem exists_firstFailing_iff {checks : List (Prop × Rejection)} :
    (∃ e, FirstFailing checks e) ↔ ¬ ∀ check ∈ checks, check.1 := by
  induction checks with
  | nil =>
      constructor
      · rintro ⟨e, h⟩
        exact absurd h (not_firstFailing_nil e)
      · exact fun h => absurd (fun _ hc => absurd hc List.not_mem_nil) h
  | cons check later ih =>
      obtain ⟨holds, rejection⟩ := check
      rw [List.forall_mem_cons, not_and_or, ← ih]
      simp only [firstFailing_cons_iff]
      by_cases h : holds
      · simp [h]
      · simp [h]

namespace RenderParams

/-- The checks of a render, in order. -/
def checks (p : RenderParams) : List (Prop × Rejection) :=
  [(∃ i, IsTime p.since i, .fromNotInteger), (∃ i, IsTime p.upTo i, .untilNotInteger),
    (p.target ≠ "", .emptyTarget), (p.format ∈ ["", "json", "pickle"], .unsupportedFormat)]

/-- What a render asks for: its target as it is, the times that its texts denote, and the format by its name. -/
structure AsksFor (p : RenderParams) (request : RenderRequest) : Prop where
  target : request.target = p.target
  given : p.target ≠ ""
  since : IsTime p.since request.since.toInt
  upTo : IsTime p.upTo request.upTo.toInt
  format : Format.Named p.format request.format

theorem isEmpty_target_iff (p : RenderParams) : p.target.isEmpty = true ↔ p.target = "" := by
  simp

/-- What is accepted is what is asked for. -/
theorem validate_eq_ok_iff (p : RenderParams) (request : RenderRequest) :
    p.validate = .ok request ↔ p.AsksFor request := by
  constructor
  · intro h
    unfold validate at h
    split at h
    · cases h
    · rename_i since hsince
      split at h
      · cases h
      · rename_i upTo hupTo
        split at h
        · cases h
        · rename_i htarget
          split at h
          · cases h
          · rename_i format hformat
            cases h
            constructor
            case target => rfl
            case given => exact mt p.isEmpty_target_iff.2 htarget
            case since => exact readTime_eq_some_iff.1 hsince
            case upTo => exact readTime_eq_some_iff.1 hupTo
            case format => exact Format.parse?_eq_some_iff.1 hformat
  · intro h
    obtain ⟨target, since, upTo, format⟩ := request
    obtain rfl : target = p.target := h.target
    have hgiven : ¬ p.target.isEmpty = true := mt p.isEmpty_target_iff.1 h.given
    rw [validate, readTime_eq_some_iff.2 h.since]
    simp only [readTime_eq_some_iff.2 h.upTo, if_neg hgiven, Format.parse?_eq_some_iff.2 h.format]

/-- What is rejected is rejected by the first check that fails. -/
theorem validate_eq_error_iff (p : RenderParams) (e : Rejection) :
    p.validate = .error e ↔ FirstFailing p.checks e := by
  -- A check matters only when those before it hold, so that each case is inside of the one before.
  simp only [checks, firstFailing_cons_iff, not_firstFailing_nil, and_false, or_false]
  cases hsince : parseInt32? (Blank.trim p.since.toList) with
  | none => simp [validate, hsince, readTime_eq_none_iff.1 hsince]
  | some since =>
      have hsince' : ∃ i, IsTime p.since i := ⟨_, readTime_eq_some_iff.1 hsince⟩
      cases hupTo : parseInt32? (Blank.trim p.upTo.toList) with
      | none => simp [validate, hsince, hsince', hupTo, readTime_eq_none_iff.1 hupTo]
      | some upTo =>
          have hupTo' : ∃ i, IsTime p.upTo i := ⟨_, readTime_eq_some_iff.1 hupTo⟩
          by_cases htarget : p.target = ""
          · simp [validate, hsince, hsince', hupTo, hupTo', htarget]
          · cases hformat : Format.parse? p.format with
            | none =>
                simp [validate, hsince, hsince', hupTo, hupTo', htarget, hformat,
                  Format.parse?_eq_none_iff.1 hformat]
            | some format =>
                have hformat' : p.format ∈ ["", "json", "pickle"] := by
                  by_contra hunknown
                  rw [Format.parse?_eq_none_iff.2 hunknown] at hformat
                  cases hformat
                simp [validate, hsince, hsince', hupTo, hupTo', htarget, hformat, hformat']

/-- A render is accepted if and only if all checks hold: both times are integers of 32 bits that are written in
decimal, perhaps with a sign, between white space; a target is given; the format is known or left open. What is
accepted is the target with these integers and that format. Any other render is rejected by the first check that
fails, times before the target and the target before the format. -/
theorem validate_accepts_grammar (p : RenderParams) :
    ((∃ request, p.validate = .ok request) ↔ ∀ check ∈ p.checks, check.1) ∧
      (∀ request, p.validate = .ok request ↔ p.AsksFor request) ∧
      ∀ e, p.validate = .error e ↔ FirstFailing p.checks e := by
  refine ⟨?_, p.validate_eq_ok_iff, p.validate_eq_error_iff⟩
  have hrejected : (∃ e, p.validate = .error e) ↔ ¬ ∀ check ∈ p.checks, check.1 := by
    simp only [validate_eq_error_iff]
    exact exists_firstFailing_iff
  constructor
  · rintro ⟨request, hok⟩
    by_contra hfails
    obtain ⟨e, he⟩ := hrejected.2 hfails
    rw [hok] at he
    cases he
  · intro hall
    cases hresult : p.validate with
    | ok request => exact ⟨request, rfl⟩
    | error e => exact absurd hall (hrejected.1 ⟨e, hresult⟩)

/-- The least integer of 32 bits is a time, and so is one with leading zeros. -/
example : validate ⟨"a.b", " -2147483648\u00a0", "+0007", ""⟩ = .ok ⟨"a.b", -2147483648, 7, .pickle⟩ := rfl

end RenderParams

end MetricFanout
