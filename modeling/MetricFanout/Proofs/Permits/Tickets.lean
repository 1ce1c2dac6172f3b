import Mathlib.Data.List.Nodup
import MetricFanout.Permits.Basic
/-!
# Tickets at the permits of a backend

A ticket is at the permits of a backend from the moment it asks until it is given up: it stands in line,
and then it holds a permit. Handing out permits neither adds nor loses a ticket, never hands out more
permits than there are, and leaves none beside a line.
-/

namespace MetricFanout.Permits

/-- The tickets that hold a permit, and behind them those in line. -/
def tickets (p : Permits) : List Nat := p.held ++ p.line

/-- No more permits are held than there are. -/
def Within (p : Permits) : Prop := 0 < p.limit → p.held.length ≤ p.limit

/-- There is a line only while no permit is free. -/
def Busy (p : Permits) : Prop := p.line ≠ [] → 0 < p.limit ∧ p.limit ≤ p.held.length

@[simp] theorem acquire_limit (p : Permits) (ticket : Nat) : (p.acquire ticket).limit = p.limit := rfl

@[simp] theorem drop_limit (p : Permits) (ticket : Nat) : (p.drop ticket).limit = p.limit := rfl

/-! ## Handing out -/

theorem serve_tickets (p : Permits) : p.serve.tickets = p.tickets := by
  rw [tickets, tickets, serve, List.append_assoc, List.take_append_drop]

theorem Within.serve {p : Permits} (h : p.Within) : p.serve.Within := by
  intro hlimit
  have hheld := h hlimit
  have hfree : p.free = p.limit - p.held.length := if_neg (Nat.ne_of_gt hlimit)
  have htake : (p.line.take p.free).length ≤ p.free := List.length_take_le _ _
  calc p.serve.held.length
      = p.held.length + (p.line.take p.free).length := List.length_append
    _ ≤ p.held.length + (p.limit - p.held.length) := by rw [← hfree]; omega
    _ = p.limit := Nat.add_sub_cancel' hheld

theorem busy_serve (p : Permits) : p.serve.Busy := by
  intro hline
  have hleft : p.free < p.line.length := by
    by_contra hall
    exact hline (List.drop_eq_nil_of_le (Nat.le_of_not_lt hall))
  have htake : (p.line.take p.free).length = p.free := List.length_take_of_le (Nat.le_of_lt hleft)
  have hlimit : p.limit ≠ 0 := by
    intro hzero
    rw [free, if_pos hzero] at hleft
    exact Nat.lt_irrefl _ hleft
  have hfree : p.free = p.limit - p.held.length := if_neg hlimit
  refine ⟨Nat.pos_of_ne_zero hlimit, ?_⟩
  calc p.limit
      ≤ p.held.length + (p.limit - p.held.length) := by omega
    _ = p.held.length + (p.line.take p.free).length := by rw [htake, hfree]
    _ = p.serve.held.length := List.length_append.symm

theorem holds_serve {p : Permits} {ticket : Nat} (h : p.holds ticket = true) :
    p.serve.holds ticket = true :=
  List.contains_iff_mem.2 (List.mem_append_left _ (List.contains_iff_mem.1 h))

/-! ## Asking -/

theorem acquire_tickets (p : Permits) (ticket : Nat) :
    (p.acquire ticket).tickets = p.tickets ++ [ticket] := by
  rw [acquire, serve_tickets, tickets, tickets, List.append_assoc]

theorem holds_acquire {p : Permits} {t : Nat} (h : p.holds t = true) (ticket : Nat) :
    (p.acquire ticket).holds t = true :=
  holds_serve (p := { p with line := p.line ++ [ticket] }) h

theorem Within.acquire {p : Permits} (h : p.Within) (ticket : Nat) : (p.acquire ticket).Within :=
  Within.serve (p := { p with line := p.line ++ [ticket] }) h

/-! ## Giving up -/

theorem drop_tickets {p : Permits} (h : p.tickets.Nodup) (ticket : Nat) :
    (p.drop ticket).tickets = p.tickets.erase ticket := by
  have hdrop : (p.drop ticket).tickets = p.held.erase ticket ++ p.line.erase ticket :=
    serve_tickets _
  rw [hdrop, tickets, List.erase_append]
  split
  · rename_i hheld
    have hline : ticket ∉ p.line := fun hline => (List.nodup_append.1 h).2.2 _ hheld _ hline rfl
    rw [List.erase_of_not_mem hline]
  · rename_i hheld
    rw [List.erase_of_not_mem hheld]

theorem Within.drop {p : Permits} (h : p.Within) (ticket : Nat) : (p.drop ticket).Within := by
  refine Within.serve (p := { p with held := p.held.erase ticket, line := p.line.erase ticket }) ?_
  exact fun hlimit => Nat.le_trans (List.length_erase_le) (h hlimit)

theorem holds_drop {p : Permits} {ticket other : Nat} (h : p.holds ticket = true)
    (hne : ticket ≠ other) : (p.drop other).holds ticket = true := by
  refine holds_serve (p := { p with held := p.held.erase other, line := p.line.erase other }) ?_
  exact List.contains_iff_mem.2 ((List.mem_erase_of_ne hne).2 (List.contains_iff_mem.1 h))

/-! ## Many backends -/

section Modify

variable {permits : List Permits} {give : Permits → Permits}

theorem map_limit_modify (h : ∀ p, (give p).limit = p.limit) (permits : List Permits) (b : Nat) :
    (permits.modify b give).map Permits.limit = permits.map Permits.limit := by
  apply List.ext_getElem?
  intro i
  rw [List.getElem?_map, List.getElem?_map, List.getElem?_modify, Option.map_eq_map, Option.map_map]
  congr 1
  funext p
  rw [Function.comp_apply]
  split
  · exact h p
  · rfl

theorem forall_modify {good : Permits → Prop} (h : ∀ p ∈ permits, good p) (b : Nat)
    (hgive : ∀ p, good p → good (give p)) : ∀ p ∈ permits.modify b give, good p := by
  intro p hp
  obtain ⟨i, hi⟩ := List.mem_iff_getElem?.1 hp
  rw [List.getElem?_modify, Option.map_eq_map, Option.map_eq_some_iff] at hi
  obtain ⟨q, hq, rfl⟩ := hi
  have hgood := h q (List.mem_of_getElem? hq)
  split
  · exact hgive q hgood
  · exact hgood

end Modify

end MetricFanout.Permits
