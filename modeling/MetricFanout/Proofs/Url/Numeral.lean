import Mathlib.Algebra.GroupWithZero.Nat
import Mathlib.Data.List.Induction
import MetricFanout.Url.Host
/-!
# Numbers in addresses are read back

The digits of a number are read as that number, in base ten for ports and IPv4 addresses and in base sixteen for
IPv6 addresses. A number of so many digits is below the power of the base.
-/

namespace MetricFanout.Host

/-- Digits in some base stand for their values. -/
theorem value?_digitChar : ∀ d < 16, Percent.value? (Nat.digitChar d).toNat = some d := by decide

theorem number?_append_singleton (base : Nat) (cs : List Char) (c : Char) :
    number? base (cs ++ [c]) = (number? base cs).bind fun n =>
      (Percent.value? c.toNat).bind fun d => if d < base then some (n * base + d) else none := by
  rw [number?, List.foldlM_append]
  refine Option.bind_congr fun n _ => ?_
  rw [List.foldlM_cons]
  exact bind_pure _

/-- A number is read back from its digits. -/
theorem number?_toDigits {base : Nat} (hbase : 1 < base) (hle : base ≤ 16) (n : Nat) :
    number? base (Nat.toDigits base n) = some n := by
  have hone : ∀ d < base, ∀ cs m, number? base cs = some m →
      number? base (cs ++ [Nat.digitChar d]) = some (m * base + d) := by
    intro d hd cs m hcs
    rw [number?_append_singleton, hcs, Option.bind_some, value?_digitChar d (by omega), Option.bind_some, if_pos hd]
  induction n using Nat.strongRecOn with
  | ind n ih =>
      rw [Nat.toDigits_eq_if hbase]
      split
      · rename_i hlt
        have hdigit := hone n hlt [] 0 rfl
        rwa [Nat.zero_mul, Nat.zero_add] at hdigit
      · rename_i hge
        have hdiv : n / base < n := Nat.div_lt_self (by omega) hbase
        rw [hone _ (Nat.mod_lt _ (by omega)) _ _ (ih _ hdiv), Nat.div_add_mod']

/-- What has so many digits is below the power of the base. -/
theorem number?_lt {base : Nat} (cs : List Char) :
    ∀ {n : Nat}, number? base cs = some n → n < base ^ cs.length := by
  induction cs using List.reverseRecOn with
  | nil =>
      intro n h
      obtain rfl := Option.some.inj h
      exact Nat.one_pos
  | append_singleton cs c ih =>
      intro n h
      rw [number?_append_singleton] at h
      obtain ⟨m, hm, h⟩ := Option.bind_eq_some_iff.1 h
      obtain ⟨d, _, h⟩ := Option.bind_eq_some_iff.1 h
      split at h
      · rename_i hd
        obtain rfl := Option.some.inj h
        have hlt := ih hm
        calc m * base + d
            < m * base + base := Nat.add_lt_add_left hd _
          _ = (m + 1) * base := (Nat.succ_mul _ _).symm
          _ ≤ base ^ cs.length * base := Nat.mul_le_mul_right _ hlt
          _ = base ^ (cs ++ [c]).length := by rw [List.length_append, List.length_singleton, Nat.pow_succ]
      · cases h

/-- Each digit stands for a value below the base. -/
theorem exists_of_mem_toDigits {base : Nat} (hbase : 1 < base) {n : Nat} : ∀ {c : Char},
    c ∈ Nat.toDigits base n → ∃ d < base, c = Nat.digitChar d := by
  induction n using Nat.strongRecOn with
  | ind n ih =>
      intro c hc
      rw [Nat.toDigits_eq_if hbase] at hc
      split at hc
      · rename_i hlt
        exact ⟨n, hlt, List.mem_singleton.1 hc⟩
      · rcases List.mem_append.1 hc with hc | hc
        · exact ih _ (Nat.div_lt_self (by omega) hbase) hc
        · exact ⟨_, Nat.mod_lt _ (by omega), List.mem_singleton.1 hc⟩

/-! ## Decimal -/

theorem decimal_eq (n : Nat) : decimal n = Nat.toDigits 10 n := Nat.toList_repr

theorem number?_decimal (n : Nat) : number? 10 (decimal n) = some n := by
  rw [decimal_eq]
  exact number?_toDigits (by decide) (by decide) n

theorem isDigit_of_mem_decimal {n : Nat} {c : Char} (hc : c ∈ decimal n) : c.isDigit = true := by
  rw [decimal_eq] at hc
  exact Nat.isDigit_of_mem_toDigits (by decide) (by decide) hc

theorem decimal_ne_nil (n : Nat) : decimal n ≠ [] := by
  rw [decimal_eq]
  exact Nat.toDigits_ne_nil

end MetricFanout.Host
