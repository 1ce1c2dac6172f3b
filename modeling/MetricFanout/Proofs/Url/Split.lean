import Mathlib.Data.List.Basic
import Mathlib.Data.List.TakeWhile
import MetricFanout.Url.Parse
/-!
# Cutting a text where it was joined

Parts without a separator are found again once they have been joined by one: segments between slashes, numbers
between dots, credentials before the last at sign, and a host before a colon that is in no brackets.
-/

namespace MetricFanout

/-! ## At every separator -/

section SplitAt

variable {p : Char → Bool} {c : Char} {cs rest : List Char}

/-- There is one part at least. -/
theorem exists_splitAt (p : Char → Bool) : ∀ cs, ∃ part more, splitAt p cs = part :: more
  | [] => ⟨[], [], rfl⟩
  | c :: rest => by
      obtain ⟨part, more, hrest⟩ := exists_splitAt p rest
      simp only [splitAt, hrest]
      split
      · exact ⟨_, _, rfl⟩
      · exact ⟨_, _, rfl⟩

theorem exists_splitAt_eq_append (p : Char → Bool) (cs : List Char) : ∃ init last, splitAt p cs = init ++ [last] := by
  obtain ⟨part, more, hparts⟩ := exists_splitAt p cs
  exact (List.eq_nil_or_concat' (splitAt p cs)).resolve_left (hparts ▸ List.cons_ne_nil part more)

theorem splitAt_cons_of_pos (hc : p c = true) (rest : List Char) :
    splitAt p (c :: rest) = [] :: splitAt p rest := by
  obtain ⟨part, more, hrest⟩ := exists_splitAt p rest
  simp only [splitAt, hrest, hc, if_true]

theorem splitAt_cons_of_neg {part : List Char} {more : List (List Char)} (hc : p c = false)
    (hrest : splitAt p rest = part :: more) : splitAt p (c :: rest) = (c :: part) :: more := by
  simp only [splitAt, hrest, hc, Bool.false_eq_true, if_false]

theorem splitAt_of_forall (h : ∀ c ∈ cs, p c = false) : splitAt p cs = [cs] := by
  induction cs with
  | nil => rfl
  | cons c rest ih =>
      obtain ⟨hc, hrest⟩ := List.forall_mem_cons.1 h
      exact splitAt_cons_of_neg hc (ih hrest)

theorem splitAt_append (h : ∀ c ∈ cs, p c = false) (hc : p c = true) (rest : List Char) :
    splitAt p (cs ++ c :: rest) = cs :: splitAt p rest := by
  induction cs with
  | nil => exact splitAt_cons_of_pos hc rest
  | cons d cs ih =>
      obtain ⟨hd, hcs⟩ := List.forall_mem_cons.1 h
      exact splitAt_cons_of_neg hd (ih hcs)

/-- No part holds a separator. -/
theorem forall_mem_splitAt (p : Char → Bool) (cs : List Char) :
    ∀ part ∈ splitAt p cs, ∀ c ∈ part, p c = false := by
  induction cs with
  | nil => simp [splitAt]
  | cons d rest ih =>
      cases hd : p d with
      | true =>
          rw [splitAt_cons_of_pos hd]
          exact List.forall_mem_cons.2 ⟨List.forall_mem_nil _, ih⟩
      | false =>
          obtain ⟨part, more, hrest⟩ := exists_splitAt p rest
          rw [hrest] at ih
          obtain ⟨hpart, hmore⟩ := List.forall_mem_cons.1 ih
          rw [splitAt_cons_of_neg hd hrest]
          exact List.forall_mem_cons.2 ⟨List.forall_mem_cons.2 ⟨hd, hpart⟩, hmore⟩

/-- Parts consist of what was there. -/
theorem subset_of_mem_splitAt (p : Char → Bool) (cs : List Char) : ∀ part ∈ splitAt p cs, part ⊆ cs := by
  induction cs with
  | nil => simp [splitAt]
  | cons d rest ih =>
      have hrest : ∀ part ∈ splitAt p rest, part ⊆ d :: rest := fun part hpart =>
        List.subset_cons_of_subset d (ih part hpart)
      cases hd : p d with
      | true =>
          rw [splitAt_cons_of_pos hd]
          exact List.forall_mem_cons.2 ⟨List.nil_subset _, hrest⟩
      | false =>
          obtain ⟨part, more, hparts⟩ := exists_splitAt p rest
          rw [hparts] at hrest ih
          obtain ⟨hpart, _⟩ := List.forall_mem_cons.1 ih
          rw [splitAt_cons_of_neg hd hparts]
          exact List.forall_mem_cons.2 ⟨List.cons_subset_cons d hpart, (List.forall_mem_cons.1 hrest).2⟩

end SplitAt

namespace Url

/-! ## Credentials -/

/-- Without an at sign there are no credentials. -/
theorem splitCredentials_of_not_mem {authority : List Char} (h : '@' ∉ authority) :
    splitCredentials authority = (none, authority) := by
  have hall : ∀ c ∈ authority.reverse, (decide (c ≠ '@')) = true := by
    intro c hc
    refine decide_eq_true fun hat => h ?_
    rw [← hat]
    exact List.mem_reverse.1 hc
  have hhost : (authority.reverse.takeWhile (· ≠ '@')).reverse = authority := by
    rw [List.takeWhile_eq_self_iff.2 hall, List.reverse_reverse]
  simp only [splitCredentials, hhost, if_true]

/-- The last at sign ends the credentials. -/
theorem splitCredentials_append (info : List Char) {host : List Char} (h : '@' ∉ host) :
    splitCredentials (info ++ '@' :: host) = (some info, host) := by
  have hall : ∀ c ∈ host.reverse, (decide (c ≠ '@')) = true := by
    intro c hc
    refine decide_eq_true fun hat => h ?_
    rw [← hat]
    exact List.mem_reverse.1 hc
  have hhost : ((info ++ '@' :: host).reverse.takeWhile (· ≠ '@')).reverse = host := by
    rw [List.reverse_append, List.reverse_cons, List.append_assoc, List.takeWhile_append_of_pos hall]
    simp
  have hlength : (info ++ '@' :: host).length = info.length + (host.length + 1) := by simp
  have hinfo : (info ++ '@' :: host).length - host.length - 1 = info.length := by omega
  simp only [splitCredentials, hhost, hinfo, List.take_left]
  rw [if_neg (by omega)]

/-! ## The port -/

/-- Characters at which the search for a colon changes its course. -/
def marksHost (c : Char) : Bool := c = ':' || c = '[' || c = ']'

/-- Within brackets a colon is part of the host. -/
theorem splitHost_within {cs : List Char} (h : ∀ c ∈ cs, c ≠ '[' ∧ c ≠ ']') (rest : List Char) :
    splitHost true (cs ++ ']' :: rest) = (cs ++ ']' :: (splitHost false rest).1, (splitHost false rest).2) := by
  induction cs with
  | nil => rfl
  | cons c cs ih =>
      obtain ⟨⟨hopen, hclose⟩, hcs⟩ := List.forall_mem_cons.1 h
      simp only [List.cons_append, splitHost, Bool.not_true, Bool.and_false, Bool.false_eq_true, hopen, hclose,
        if_false, ih hcs]

/-- A colon outside brackets starts the port. -/
theorem splitHost_append {cs : List Char} (h : ∀ c ∈ cs, marksHost c = false) (rest : List Char) :
    splitHost false (cs ++ rest) = (cs ++ (splitHost false rest).1, (splitHost false rest).2) := by
  induction cs with
  | nil => rfl
  | cons c cs ih =>
      obtain ⟨hc, hcs⟩ := List.forall_mem_cons.1 h
      simp only [marksHost, Bool.or_eq_false_iff, decide_eq_false_iff_not] at hc
      obtain ⟨⟨hcolon, hopen⟩, hclose⟩ := hc
      simp only [List.cons_append, splitHost, Bool.not_false, Bool.and_true, decide_eq_true_eq, hcolon, hopen,
        hclose, if_false, ih hcs]

end Url

end MetricFanout
