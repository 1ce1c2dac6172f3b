import Mathlib.Data.List.TakeWhile
import MetricFanout.Proofs.Failure
import MetricFanout.Proofs.Url.Numeral
/-!
# IPv6 addresses are read back

An address has eight pieces of sixteen bits. It is written with its first longest run of zeros left out, and read
back by filling the gap: that many zeros are missing.

The reader takes one piece at a time and may stop for want of fuel. It takes a character from the text for each
piece and for each colon of a gap, so the length of the text is fuel enough.
-/

namespace MetricFanout.Host

/-- Eight pieces of sixteen bits. -/
structure IsIpv6 (pieces : List Nat) : Prop where
  length : pieces.length = 8
  bounded : ∀ n ∈ pieces, n < 0x10000

/-! ## Pieces -/

namespace Ipv6Pieces

variable {p : Ipv6Pieces}

@[simp] theorem count_nothing : ({} : Ipv6Pieces).count = 0 := rfl

theorem count_push (p : Ipv6Pieces) (pieces : List Nat) : (p.push pieces).count = p.count + pieces.length := by
  cases hbehind : p.behind with
  | none => simp [push, count, hbehind]
  | some behind => simp [push, count, hbehind]; omega

theorem push_push (p : Ipv6Pieces) (pieces more : List Nat) :
    (p.push pieces).push more = p.push (pieces ++ more) := by
  cases hbehind : p.behind with
  | none => simp [push, hbehind]
  | some behind => simp [push, hbehind]

/-- A gap takes the place of the zeros that are missing. -/
theorem finish?_gap {before behind : List Nat} {zeros : Nat} (hzeros : 0 < zeros)
    (hlength : before.length + zeros + behind.length = 8) :
    finish? ⟨before, some behind⟩ = some (before ++ List.replicate zeros 0 ++ behind) := by
  have hmissing : 8 - before.length - behind.length = zeros := by omega
  simp only [finish?, count, hmissing]
  rw [if_pos (by omega)]

/-- All pieces are of sixteen bits. -/
def Bounded (p : Ipv6Pieces) : Prop :=
  (∀ n ∈ p.before, n < 0x10000) ∧ ∀ behind ∈ p.behind, ∀ n ∈ behind, n < 0x10000

theorem Bounded.push (h : p.Bounded) {pieces : List Nat} (hpieces : ∀ n ∈ pieces, n < 0x10000) :
    (p.push pieces).Bounded := by
  obtain ⟨hbefore, hbehind⟩ := h
  cases hgap : p.behind with
  | none =>
      simp only [Ipv6Pieces.push, hgap]
      exact ⟨List.forall_mem_append.2 ⟨hbefore, hpieces⟩, fun _ h => nomatch h⟩
  | some behind =>
      simp only [Ipv6Pieces.push, hgap]
      refine ⟨hbefore, fun more hmore => ?_⟩
      obtain rfl := Option.some.inj hmore
      exact List.forall_mem_append.2 ⟨hbehind _ hgap, hpieces⟩

theorem Bounded.finish? (h : p.Bounded) {pieces : List Nat} (hfinish : p.finish? = some pieces) :
    IsIpv6 pieces := by
  obtain ⟨hbefore, hbehind⟩ := h
  rw [Ipv6Pieces.finish?] at hfinish
  split at hfinish
  · split at hfinish
    · rename_i hlength
      obtain rfl := Option.some.inj hfinish
      exact ⟨hlength, hbefore⟩
    · cases hfinish
  · rename_i behind hgap
    split at hfinish
    · rename_i hcount
      obtain rfl := Option.some.inj hfinish
      simp only [count, hgap] at hcount
      have hlength : (p.before ++ List.replicate (8 - p.before.length - behind.length) 0 ++ behind).length = 8 := by
        rw [List.length_append, List.length_append, List.length_replicate]
        omega
      refine ⟨hlength, List.forall_mem_append.2 ⟨List.forall_mem_append.2 ⟨hbefore, ?_⟩, hbehind _ hgap⟩⟩
      intro n hn
      rw [List.eq_of_mem_replicate hn]
      decide
    · cases hfinish

end Ipv6Pieces

/-! ## What is read -/

theorem byte?_lt {cs : List Char} {n : Nat} (h : byte? cs = some n) : n < 256 := by
  unfold byte? at h
  split at h
  · cases h
  · obtain rfl := Option.some.inj h
    decide
  · cases h
  · split at h
    · obtain ⟨m, _, hm⟩ := Option.bind_eq_some_iff.1 h
      split at hm
      · obtain rfl := Option.some.inj hm
        omega
      · cases hm
    · cases h

theorem dotted?_lt {cs : List Char} {pieces : List Nat} (h : dotted? cs = some pieces) :
    ∀ n ∈ pieces, n < 0x10000 := by
  rw [dotted?] at h
  split at h
  · rename_i a b c d hbytes
    obtain rfl := Option.some.inj h
    have hlt : ∀ n ∈ [a, b, c, d], n < 256 := by
      intro n hn
      obtain ⟨part, _, hpart⟩ := exists_of_mapM_eq_some hbytes n hn
      exact byte?_lt hpart
    simp only [List.forall_mem_cons] at hlt ⊢
    obtain ⟨ha, hb, hc, hd, _⟩ := hlt
    exact ⟨by omega, by omega, List.forall_mem_nil _⟩
  · cases h

/-- The digits of a piece: four at most. -/
def pieceDigits (cs : List Char) : List Char := (cs.take 4).takeWhile fun c => (Percent.value? c.toNat).isSome

theorem length_pieceDigits_le (cs : List Char) : (pieceDigits cs).length ≤ 4 :=
  calc (pieceDigits cs).length
      ≤ (cs.take 4).length := (List.takeWhile_prefix _).length_le
    _ ≤ 4 := List.length_take_le 4 cs

theorem number?_pieceDigits_lt {cs : List Char} {n : Nat} (h : number? 16 (pieceDigits cs) = some n) :
    n < 0x10000 :=
  calc n
      < 16 ^ (pieceDigits cs).length := number?_lt _ h
    _ ≤ 16 ^ 4 := Nat.pow_le_pow_right (by decide) (length_pieceDigits_le cs)

/-- What is read is an address. -/
theorem isIpv6_of_ipv6Pieces? {p : Ipv6Pieces} {fuel : Nat} {cs : List Char} {pieces : List Nat} (hp : p.Bounded)
    (h : ipv6Pieces? p fuel cs = some pieces) : IsIpv6 pieces := by
  have hpiece : ∀ {p : Ipv6Pieces} (cs : List Char) {n : Nat}, p.Bounded → number? 16 (pieceDigits cs) = some n →
      (p.push [n]).Bounded :=
    fun _ _ hp hn => hp.push (List.forall_mem_singleton.2 (number?_pieceDigits_lt hn))
  fun_induction ipv6Pieces? p fuel cs with
  | case1 p fuel => exact hp.finish? h
  | case5 p fuel cs hcount hgap ih =>
      exact ih ⟨hp.1, fun behind hbehind => by simp [Option.some.inj hbehind.symm]⟩ h
  | case6 p fuel c cs hcount hcolon digits hend =>
      obtain ⟨n, hn, hfinish⟩ := Option.bind_eq_some_iff.1 h
      exact (hpiece (c :: cs) hp hn).finish? hfinish
  | case8 p fuel c cs hcount hcolon digits rest hdot hroom =>
      obtain ⟨more, hmore, hfinish⟩ := Option.bind_eq_some_iff.1 h
      exact (hp.push (dotted?_lt hmore)).finish? hfinish
  | case10 p fuel c cs hcount hcolon digits rest hmore hrest ih =>
      obtain ⟨n, hn, hgoOn⟩ := Option.bind_eq_some_iff.1 h
      exact ih n (hpiece (c :: cs) hp hn) hgoOn
  | case2 | case3 | case4 | case7 | case9 | case11 => cases h

theorem isIpv6_of_ipv6? {cs : List Char} {pieces : List Nat} (h : ipv6? cs = some pieces) : IsIpv6 pieces := by
  unfold ipv6? at h
  split at h
  · exact isIpv6_of_ipv6Pieces? ⟨List.forall_mem_nil _, fun _ hgap => by simp [Option.some.inj hgap.symm]⟩ h
  · cases h
  · cases h
  · cases h
  · exact isIpv6_of_ipv6Pieces? ⟨List.forall_mem_nil _, fun _ hgap => absurd hgap (Option.not_mem_none _)⟩ h

/-! ## What is written -/

theorem hexadecimal_ne_nil (n : Nat) : hexadecimal n ≠ [] := Nat.toDigits_ne_nil

theorem length_hexadecimal_le {n : Nat} (h : n < 0x10000) : (hexadecimal n).length ≤ 4 :=
  (Nat.length_toDigits_le_iff (by decide) (by decide)).2 h

theorem isSome_value?_of_mem_hexadecimal {n : Nat} {c : Char} (hc : c ∈ hexadecimal n) :
    (Percent.value? c.toNat).isSome = true := by
  obtain ⟨d, hd, rfl⟩ := exists_of_mem_toDigits (by decide) hc
  rw [value?_digitChar d hd]
  rfl

/-- A piece ends at a colon or with the text. -/
theorem pieceDigits_append {n : Nat} (h : n < 0x10000) {rest : List Char}
    (hrest : rest = [] ∨ ∃ more, rest = ':' :: more) :
    pieceDigits (hexadecimal n ++ rest) = hexadecimal n := by
  have hends : ∀ k, (rest.take k).takeWhile (fun c => (Percent.value? c.toNat).isSome) = [] := by
    intro k
    rcases hrest with rfl | ⟨more, rfl⟩
    · rw [List.take_nil]
      rfl
    · cases k with
      | zero => rfl
      | succ k => rfl
  rw [pieceDigits, List.take_append, List.take_of_length_le (length_hexadecimal_le h),
    List.takeWhile_append_of_pos fun c hc => isSome_value?_of_mem_hexadecimal hc, hends, List.append_nil]

/-- A piece is read, and then what follows its colon, if there is one. -/
theorem ipv6Pieces?_hexadecimal {p : Ipv6Pieces} (hroom : p.count < 8) {n : Nat} (h : n < 0x10000) (fuel : Nat) :
    ipv6Pieces? p (fuel + 1) (hexadecimal n) = (p.push [n]).finish? ∧
      ∀ rest, rest ≠ [] →
        ipv6Pieces? p (fuel + 1) (hexadecimal n ++ ':' :: rest) = ipv6Pieces? (p.push [n]) fuel rest := by
  have hnumber : number? 16 (hexadecimal n) = some n := number?_toDigits (by decide) (by decide) n
  obtain ⟨c, digits, htext⟩ := List.exists_cons_of_ne_nil (hexadecimal_ne_nil n)
  have hcolon : c ≠ ':' := by
    rintro rfl
    exact absurd (isSome_value?_of_mem_hexadecimal (htext ▸ List.mem_cons_self)) (by decide)
  have hend := pieceDigits_append h (.inl rfl)
  rw [List.append_nil] at hend
  constructor
  · rw [htext] at hend hnumber ⊢
    rw [pieceDigits] at hend
    simp only [ipv6Pieces?, if_neg (Nat.not_le.2 hroom), if_neg hcolon, hend, List.drop_length, hnumber,
      Option.bind_some]
  · intro rest hrest
    have hmore := pieceDigits_append h (.inr ⟨rest, rfl⟩)
    rw [htext] at hmore hnumber ⊢
    rw [pieceDigits, List.cons_append] at hmore
    have hleft : (c :: (digits ++ ':' :: rest)).drop (c :: digits).length = ':' :: rest := by simp
    simp only [List.cons_append, ipv6Pieces?, if_neg (Nat.not_le.2 hroom), if_neg hcolon, hmore, hleft, hnumber,
      Option.bind_some, List.isEmpty_eq_false_iff.2 hrest, Bool.false_eq_true, if_false]

theorem colons_ne_nil {pieces : List Nat} (h : pieces ≠ []) : colons pieces ≠ [] := by
  fun_cases colons pieces with
  | case1 => exact absurd rfl h
  | case2 n => exact hexadecimal_ne_nil n
  | case3 n rest => simp

/-- Pieces are read up to the colon behind them. -/
theorem ipv6Pieces?_colons_append {rest : List Char} (hrest : rest ≠ []) : ∀ {pieces : List Nat}, pieces ≠ [] →
    (∀ n ∈ pieces, n < 0x10000) → ∀ {p : Ipv6Pieces} {fuel : Nat}, p.count + pieces.length ≤ 8 →
    (colons pieces ++ ':' :: rest).length ≤ fuel →
    ∃ fuel', rest.length ≤ fuel' ∧
      ipv6Pieces? p fuel (colons pieces ++ ':' :: rest) = ipv6Pieces? (p.push pieces) fuel' rest
  | [], hne, _, _, _, _, _ => absurd rfl hne
  | [n], _, hbounded, p, fuel, hcount, hfuel => by
      rw [List.length_singleton] at hcount
      rw [colons, List.length_append, List.length_cons] at hfuel
      obtain ⟨fuel, rfl⟩ := Nat.exists_eq_succ_of_ne_zero (by omega : fuel ≠ 0)
      have hread := (ipv6Pieces?_hexadecimal (by omega : p.count < 8) (hbounded n List.mem_cons_self) fuel).2 rest hrest
      exact ⟨fuel, by omega, hread⟩
  | n :: m :: more, _, hbounded, p, fuel, hcount, hfuel => by
      obtain ⟨hn, hmore⟩ := List.forall_mem_cons.1 hbounded
      have hshift : colons (n :: m :: more) ++ ':' :: rest =
          hexadecimal n ++ ':' :: (colons (m :: more) ++ ':' :: rest) := by
        rw [colons, List.append_assoc, List.cons_append]
        exact List.cons_ne_nil _ _
      rw [hshift] at hfuel ⊢
      rw [List.length_append, List.length_cons] at hfuel
      rw [List.length_cons] at hcount
      obtain ⟨fuel, rfl⟩ := Nat.exists_eq_succ_of_ne_zero (by omega : fuel ≠ 0)
      have hread := (ipv6Pieces?_hexadecimal (by omega : p.count < 8) hn fuel).2
        (colons (m :: more) ++ ':' :: rest) (by simp)
      have hroom : (p.push [n]).count + (m :: more).length ≤ 8 := by
        rw [Ipv6Pieces.count_push, List.length_singleton]
        omega
      have hlong : (colons (m :: more) ++ ':' :: rest).length ≤ fuel := by omega
      obtain ⟨fuel', hfuel', hgoOn⟩ :=
        ipv6Pieces?_colons_append hrest (List.cons_ne_nil m more) hmore hroom hlong
      refine ⟨fuel', hfuel', ?_⟩
      rw [hread, hgoOn, Ipv6Pieces.push_push]
      rfl

/-- Pieces are read up to the end of the text. -/
theorem ipv6Pieces?_colons : ∀ {pieces : List Nat}, pieces ≠ [] → (∀ n ∈ pieces, n < 0x10000) →
    ∀ {p : Ipv6Pieces} {fuel : Nat}, p.count + pieces.length ≤ 8 → (colons pieces).length ≤ fuel →
    ipv6Pieces? p fuel (colons pieces) = (p.push pieces).finish?
  | [], hne, _, _, _, _, _ => absurd rfl hne
  | [n], _, hbounded, p, fuel, hcount, hfuel => by
      rw [List.length_singleton] at hcount
      rw [colons] at hfuel ⊢
      have hpos : (hexadecimal n).length ≠ 0 := mt List.length_eq_zero_iff.1 (hexadecimal_ne_nil n)
      obtain ⟨fuel, rfl⟩ := Nat.exists_eq_succ_of_ne_zero (by omega : fuel ≠ 0)
      exact (ipv6Pieces?_hexadecimal (by omega) (hbounded n List.mem_cons_self) fuel).1
  | n :: m :: more, _, hbounded, p, fuel, hcount, hfuel => by
      obtain ⟨hn, hmore⟩ := List.forall_mem_cons.1 hbounded
      have hshift : colons (n :: m :: more) = hexadecimal n ++ ':' :: colons (m :: more) := by
        rw [colons]
        exact List.cons_ne_nil _ _
      have hne : colons (m :: more) ≠ [] := colons_ne_nil (List.cons_ne_nil m more)
      rw [hshift] at hfuel ⊢
      rw [List.length_append, List.length_cons] at hfuel
      rw [List.length_cons] at hcount
      obtain ⟨fuel, rfl⟩ := Nat.exists_eq_succ_of_ne_zero (by omega : fuel ≠ 0)
      have hread := (ipv6Pieces?_hexadecimal (by omega : p.count < 8) hn fuel).2 _ hne
      rw [hread, ipv6Pieces?_colons (List.cons_ne_nil m more) hmore
        (by rw [Ipv6Pieces.count_push, List.length_singleton]; omega) (by omega), Ipv6Pieces.push_push]
      rfl

/-- After a gap there may be no more pieces. -/
theorem ipv6Pieces?_behind {before behind : List Nat} (hbounded : ∀ n ∈ behind, n < 0x10000)
    (hcount : before.length + behind.length < 8) {fuel : Nat} (hfuel : (colons behind).length ≤ fuel) :
    ipv6Pieces? ⟨before, some []⟩ fuel (colons behind) = Ipv6Pieces.finish? ⟨before, some behind⟩ := by
  cases behind with
  | nil => cases fuel <;> rfl
  | cons n more =>
      refine ipv6Pieces?_colons (List.cons_ne_nil n more) hbounded ?_ hfuel
      simp only [Ipv6Pieces.count, List.length_nil]
      omega

/-! ## The gap -/

/-- The longest run is one of zeros, and it is where it is said to be. -/
theorem exists_longestRun (start : Nat) (pieces : List Nat) : ∃ before behind,
    pieces = before ++ List.replicate (longestRun start pieces).2 0 ++ behind ∧
      (longestRun start pieces).1 = start + before.length := by
  induction pieces generalizing start with
  | nil => exact ⟨[], [], rfl, rfl⟩
  | cons n rest ih =>
      obtain ⟨before, behind, hrest, hstart⟩ := ih (start + 1)
      rw [longestRun]
      simp only
      split
      · have hzeros : (n :: rest).takeWhile (· == 0) = List.replicate (leadingZeros (n :: rest)) 0 := by
          refine List.eq_replicate_iff.2 ⟨rfl, fun m hm => ?_⟩
          exact eq_of_beq (List.mem_takeWhile_imp (p := (· == 0)) hm)
        refine ⟨[], (n :: rest).dropWhile (· == 0), ?_, rfl⟩
        rw [List.nil_append, ← hzeros, List.takeWhile_append_dropWhile]
      · refine ⟨n :: before, behind, ?_, ?_⟩
        · rw [List.cons_append, List.cons_append, ← hrest]
        · rw [hstart, List.length_cons]
          omega

/-- A text that starts with a piece is read from there. -/
theorem ipv6?_hexadecimal (n : Nat) {rest : List Char} (hrest : rest ≠ []) :
    ipv6? (hexadecimal n ++ rest) = ipv6Pieces? {} (hexadecimal n ++ rest).length (hexadecimal n ++ rest) := by
  obtain ⟨c, digits, hn⟩ := List.exists_cons_of_ne_nil (hexadecimal_ne_nil n)
  have hcolon : c ≠ ':' := by
    rintro rfl
    exact absurd (isSome_value?_of_mem_hexadecimal (hn ▸ List.mem_cons_self)) (by decide)
  rw [hn, List.cons_append]
  unfold ipv6?
  split
  · rename_i heq
    exact absurd (List.cons.inj heq).1 hcolon
  · rename_i heq
    exact absurd (List.cons.inj heq).1 hcolon
  · rename_i heq
    cases heq
  · rename_i heq
    exact absurd (List.append_eq_nil_iff.1 (List.cons.inj heq).2).2 hrest
  · rfl

theorem exists_colons_eq_append (n : Nat) (more : List Nat) :
    ∃ rest, colons (n :: more) = hexadecimal n ++ rest ∧ (more ≠ [] → rest ≠ []) := by
  cases more with
  | nil => exact ⟨[], (List.append_nil _).symm, fun h => absurd rfl h⟩
  | cons m more =>
      refine ⟨':' :: colons (m :: more), ?_, fun _ => List.cons_ne_nil _ _⟩
      rw [colons]
      exact List.cons_ne_nil _ _

/-- Without a gap all eight pieces are there. -/
theorem ipv6?_colons {pieces : List Nat} (h : IsIpv6 pieces) : ipv6? (colons pieces) = some pieces := by
  obtain ⟨n, m, more, rfl⟩ : ∃ n m more, pieces = n :: m :: more := by
    match pieces, h.length with
    | n :: m :: more, _ => exact ⟨n, m, more, rfl⟩
  obtain ⟨rest, htext, hrest⟩ := exists_colons_eq_append n (m :: more)
  have hread : ipv6Pieces? {} (colons (n :: m :: more)).length (colons (n :: m :: more)) =
      (({} : Ipv6Pieces).push (n :: m :: more)).finish? :=
    ipv6Pieces?_colons (List.cons_ne_nil n _) h.bounded (Nat.le_of_eq ((Nat.zero_add _).trans h.length)) (Nat.le_refl _)
  rw [htext] at hread ⊢
  rw [ipv6?_hexadecimal n (hrest (List.cons_ne_nil m more)), hread]
  exact if_pos h.length

/-- A gap of at least two zeros is filled again. -/
theorem ipv6?_gap {before behind : List Nat} {zeros : Nat}
    (h : IsIpv6 (before ++ List.replicate zeros 0 ++ behind)) (hzeros : 2 ≤ zeros) :
    ipv6? (colons before ++ [':', ':'] ++ colons behind) = some (before ++ List.replicate zeros 0 ++ behind) := by
  have hlength := h.length
  rw [List.length_append, List.length_append, List.length_replicate] at hlength
  obtain ⟨hfirst, hbehind⟩ := List.forall_mem_append.1 h.bounded
  obtain ⟨hbefore, _⟩ := List.forall_mem_append.1 hfirst
  have hread : ∀ {fuel : Nat}, (colons behind).length ≤ fuel →
      ipv6Pieces? ⟨before, some []⟩ fuel (colons behind) = some (before ++ List.replicate zeros 0 ++ behind) :=
    fun hfuel => (ipv6Pieces?_behind hbehind (by omega) hfuel).trans
      (Ipv6Pieces.finish?_gap (by omega) hlength)
  rw [List.append_assoc]
  cases before with
  | nil => exact hread (Nat.le_refl _)
  | cons n more =>
      obtain ⟨rest, htext, _⟩ := exists_colons_eq_append n more
      have hcount : ({} : Ipv6Pieces).count + (n :: more).length ≤ 8 := by
        rw [Ipv6Pieces.count_nothing]
        omega
      obtain ⟨fuel, hfuel, hpieces⟩ := ipv6Pieces?_colons_append (List.cons_ne_nil ':' (colons behind))
        (List.cons_ne_nil n more) hbefore hcount (Nat.le_refl _)
      have hgap : ipv6Pieces? (({} : Ipv6Pieces).push (n :: more)) fuel (':' :: colons behind) =
          ipv6Pieces? ⟨n :: more, some []⟩ (fuel - 1) (colons behind) := by
        rw [List.length_cons] at hfuel hlength
        obtain ⟨fuel, rfl⟩ := Nat.exists_eq_succ_of_ne_zero (by omega : fuel ≠ 0)
        have hroom : ¬ 8 ≤ (({} : Ipv6Pieces).push (n :: more)).count := by
          rw [Ipv6Pieces.count_push, Ipv6Pieces.count_nothing, List.length_cons]
          omega
        rw [ipv6Pieces?, if_neg hroom, if_pos rfl]
        rfl
      rw [List.length_cons] at hfuel
      have hpieces' := hpieces.trans (hgap.trans (hread (by omega)))
      rw [htext, List.append_assoc] at hpieces' ⊢
      rw [← hpieces']
      exact ipv6?_hexadecimal n (by simp)

/-- **An IPv6 address is read back from its text.** -/
theorem IsIpv6.ipv6?_ipv6Text {pieces : List Nat} (h : IsIpv6 pieces) : ipv6? (ipv6Text pieces) = some pieces := by
  obtain ⟨before, behind, hpieces, hstart⟩ := exists_longestRun 0 pieces
  rw [Nat.zero_add] at hstart
  rw [ipv6Text]
  generalize longestRun 0 pieces = run at hpieces hstart ⊢
  obtain ⟨start, zeros⟩ := run
  simp only at hpieces hstart ⊢
  subst hpieces
  split
  · rename_i hgap
    have htake : (before ++ List.replicate zeros 0 ++ behind).take start = before := by
      rw [hstart, List.append_assoc, List.take_left]
    have hdrop : (before ++ List.replicate zeros 0 ++ behind).drop (start + zeros) = behind := by
      refine List.drop_left' ?_
      rw [List.length_append, List.length_replicate, hstart]
    rw [htake, hdrop, ipv6?_gap h hgap]
  · exact ipv6?_colons h

/-! ## Characters -/

theorem mem_colons {pieces : List Nat} {c : Char} (hc : c ∈ colons pieces) :
    c = ':' ∨ ∃ d < 16, c = Nat.digitChar d := by
  fun_induction colons pieces with
  | case1 => exact absurd hc List.not_mem_nil
  | case2 n => exact .inr (exists_of_mem_toDigits (by decide) hc)
  | case3 n rest hne ih =>
      rcases List.mem_append.1 hc with hc | hc
      · exact .inr (exists_of_mem_toDigits (by decide) hc)
      · rcases List.mem_cons.1 hc with rfl | hc
        · exact .inl rfl
        · exact ih hc

/-- An IPv6 address is written with digits and colons. -/
theorem mem_ipv6Text {pieces : List Nat} {c : Char} (hc : c ∈ ipv6Text pieces) :
    c = ':' ∨ ∃ d < 16, c = Nat.digitChar d := by
  rw [ipv6Text] at hc
  simp only at hc
  split at hc
  · rcases List.mem_append.1 hc with hc | hc
    · rcases List.mem_append.1 hc with hc | hc
      · exact mem_colons hc
      · simp only [List.mem_cons, List.not_mem_nil, or_false, or_self] at hc
        exact .inl hc
    · exact mem_colons hc
  · exact mem_colons hc

end MetricFanout.Host
