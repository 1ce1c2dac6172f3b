import MetricFanout.Proofs.Url.Idna
import MetricFanout.Proofs.Url.Ipv6
import MetricFanout.Proofs.Url.Split
/-!
# Hosts are read back

A host that has been read has one form in which it is written, and it is read back from that: a name because it
has been brought to lower case and holds no escapes, and an address because it is written in full or with one gap.
-/

namespace MetricFanout.Host

open Percent (Clean)

/-- What holds of all codes of ASCII holds of all its characters. -/
theorem forall_ascii {P : Char → Prop} (h : ∀ n < 0x80, P (Char.ofNat n)) {c : Char} (hc : c.toNat < 0x80) : P c :=
  Char.ofNat_toNat c ▸ h c.toNat hc

/-! ## Names -/

/-- A name as it stands in a host that has been read. -/
structure IsName [Idna] (name : List Char) : Prop extends IsForm name where
  mapped : Idna.toAscii? (Utf8.encode name) = some name

/-- Without escapes there is nothing to decode. -/
theorem decode_of_forall {bytes : List UInt8} (h : ∀ b ∈ bytes, b ≠ 0x25) : Percent.decode bytes = bytes := by
  induction bytes with
  | nil => rw [Percent.decode]
  | cons b rest ih =>
      obtain ⟨hb, hrest⟩ := List.forall_mem_cons.1 h
      rw [Percent.decode_cons_of_ne hb, ih hrest]

/-- There are no escapes in a form. -/
theorem IsForm.decode_encode {name : List Char} (h : IsForm name) :
    Percent.decode (Utf8.encode name) = Utf8.encode name := by
  refine decode_of_forall fun b hb hpercent => ?_
  rw [Form.encode_of_ascii h.ascii] at hb
  obtain ⟨c, hc, rfl⟩ := List.mem_map.1 hb
  have hcode : c.toNat = 0x25 := by rw [← h.toNat_byte c hc, hpercent]; rfl
  have hforbidden := h.allowed c hc
  rw [← Char.ofNat_toNat c, hcode] at hforbidden
  exact absurd hforbidden (by decide)

theorem IsName.domain? [Idna] {name : List Char} (h : IsName name) : domain? name = some name := by
  rw [Host.domain?, h.decode_encode, h.mapped]

/-- What has been read is a name. -/
theorem isName_of_domain? [Idna] [LawfulIdna] {cs name : List Char} (h : domain? cs = some name) : IsName name :=
  ⟨LawfulIdna.form h, LawfulIdna.again h⟩

/-! ## IPv4 -/

/-- Digits and dots make up a form. -/
theorem isForm_of_digits {cs : List Char} (h : ∀ c ∈ cs, c.isDigit = true ∨ c = '.') : IsForm cs := by
  have hcodes : ∀ n < 0x80, (Char.ofNat n).isDigit = true ∨ Char.ofNat n = '.' →
      (Char.ofNat n).toLower = Char.ofNat n ∧ isForbidden (Char.ofNat n) = false := by decide
  have hascii : ∀ c ∈ cs, c.toNat < 0x80 := by
    intro c hc
    rcases h c hc with hdigit | rfl
    · simp only [Char.isDigit, Bool.and_eq_true, decide_eq_true_eq, UInt32.le_iff_toNat_le] at hdigit
      exact Nat.lt_of_le_of_lt hdigit.2 (by decide)
    · decide
  have hplain : ∀ c ∈ cs, c.toLower = c ∧ isForbidden c = false := fun c hc =>
    forall_ascii (P := fun c => c.isDigit = true ∨ c = '.' → c.toLower = c ∧ isForbidden c = false) hcodes
      (hascii c hc) (h c hc)
  exact ⟨hascii, fun c hc => (hplain c hc).1, fun c hc => (hplain c hc).2⟩

/-- Digits and dots make up a name. -/
theorem isName_of_digits [Idna] [LawfulIdna] {cs : List Char} (h : ∀ c ∈ cs, c.isDigit = true ∨ c = '.') :
    IsName cs := by
  refine ⟨isForm_of_digits h, LawfulIdna.plain (isForm_of_digits h) fun label hlabel hmark => ?_⟩
  have hx : 'x' ∈ label := hmark.subset (by decide)
  exact absurd (h 'x' (subset_of_mem_splitAt _ cs label hlabel hx)) (by decide)

/-- The four bytes of an address. -/
def bytesOf (a : Nat) : List Nat := [a / 0x1000000 % 256, a / 0x10000 % 256, a / 256 % 256, a % 256]

/-- An address is written as its bytes between dots. -/
theorem labels_ipv4 (a : Nat) : labels (text (.ipv4 a)) = (bytesOf a).map decimal := by
  have hdigits : ∀ n, ∀ c ∈ decimal n, (c == '.') = false := by
    intro n c hc
    refine beq_false_of_ne ?_
    rintro rfl
    exact absurd (isDigit_of_mem_decimal hc) (by decide)
  have hsplit : splitAt (· == '.') (text (.ipv4 a)) = (bytesOf a).map decimal := by
    have hdot : ('.' == '.') = true := rfl
    simp only [text, List.append_assoc, List.cons_append]
    rw [splitAt_append (hdigits _) hdot, splitAt_append (hdigits _) hdot, splitAt_append (hdigits _) hdot,
      splitAt_of_forall (hdigits _)]
    rfl
  have hlast : ((bytesOf a).map decimal).getLast? ≠ some [] := by
    intro h
    exact decimal_ne_nil _ (Option.some.inj h)
  rw [labels, hsplit]
  exact if_neg hlast

theorem ipv4Number?_decimal : ∀ n < 256, ipv4Number? (decimal n) = some n := by decide +kernel

/-- An IPv4 address is read back from its text. -/
theorem ipv4?_text {a : Nat} (h : a < 0x100000000) : ipv4? (text (.ipv4 a)) = some a := by
  have hbyte : ∀ n, ipv4Number? (decimal (n % 256)) = some (n % 256) := fun n =>
    ipv4Number?_decimal _ (Nat.mod_lt _ (by decide))
  have hnumbers : ((bytesOf a).map decimal).mapM ipv4Number? = some (bytesOf a) := by
    simp only [bytesOf, List.map_cons, List.map_nil, List.mapM_cons, List.mapM_nil, hbyte]
    rfl
  have hvalue : ipv4Address? (bytesOf a) =
      some (a % 256 + (((0 * 256 + a / 0x1000000 % 256) * 256 + a / 0x10000 % 256) * 256 + a / 256 % 256) * 256) := by
    have hsmall : ∀ n, n % 256 ≤ 255 := fun n => Nat.le_of_lt_succ (Nat.mod_lt _ (by decide))
    refine if_pos ?_
    simp only [bytesOf, List.length_cons, List.length_nil, List.all_cons, List.all_nil, Bool.and_true,
      Bool.and_eq_true, decide_eq_true_eq, hsmall, and_true]
    exact ⟨rfl, Nat.mod_lt _ (by decide)⟩
  rw [ipv4?, labels_ipv4, hnumbers, Option.bind_some, hvalue]
  refine congrArg some ?_
  omega

/-- Bytes in base 256 stay below the power. -/
theorem foldl_bytes_lt (bytes : List Nat) (h : ∀ b ∈ bytes, b ≤ 255) :
    bytes.foldl (fun a n => a * 256 + n) 0 < 256 ^ bytes.length := by
  induction bytes using List.reverseRecOn with
  | nil => decide
  | append_singleton bytes b ih =>
      obtain ⟨hbytes, hb⟩ := List.forall_mem_append.1 h
      have hlt := ih hbytes
      have hle := hb b (List.mem_singleton_self b)
      rw [List.foldl_append, List.foldl_cons, List.foldl_nil, List.length_append, List.length_singleton,
        Nat.pow_succ]
      omega

/-- What is read fits into four bytes. -/
theorem ipv4?_lt {name : List Char} {a : Nat} (h : ipv4? name = some a) : a < 0x100000000 := by
  rw [ipv4?] at h
  obtain ⟨numbers, _, h⟩ := Option.bind_eq_some_iff.1 h
  rw [ipv4Address?] at h
  split at h
  · cases h
  · rename_i last firsts hnumbers
    split at h
    · rename_i hfits
      obtain rfl := Option.some.inj h
      simp only [Bool.and_eq_true, decide_eq_true_eq] at hfits
      obtain ⟨⟨hcount, hfirsts⟩, hlast⟩ := hfits
      have hlength : numbers.length = firsts.length + 1 := by
        rw [← List.length_reverse, hnumbers, List.length_cons]
      have hlow : last < 256 ^ (4 - firsts.length) := hlast
      have hhigh := foldl_bytes_lt firsts.reverse fun b hb =>
        of_decide_eq_true (List.all_eq_true.1 hfirsts b (List.mem_reverse.1 hb))
      rw [List.length_reverse] at hhigh
      calc last + firsts.reverse.foldl (fun a n => a * 256 + n) 0 * 256 ^ (4 - firsts.length)
          < 256 ^ (4 - firsts.length) +
              firsts.reverse.foldl (fun a n => a * 256 + n) 0 * 256 ^ (4 - firsts.length) := Nat.add_lt_add_right hlow _
        _ = (firsts.reverse.foldl (fun a n => a * 256 + n) 0 + 1) * 256 ^ (4 - firsts.length) := by
            rw [Nat.add_mul, Nat.one_mul, Nat.add_comm]
        _ ≤ 256 ^ firsts.length * 256 ^ (4 - firsts.length) := Nat.mul_le_mul_right _ hhigh
        _ = 256 ^ 4 := by rw [← Nat.pow_add, Nat.add_sub_cancel' (by omega)]
    · cases h

/-! ## Hosts -/

/-- Characters that do not stand in a host, though they may be next to it. -/
def isOutside (c : Char) : Bool := Url.endsAuthority true c || c = '@' || Url.isBlankOrControl c

/-- A host that has been read. -/
def Normal [Idna] : Host → Prop
  | .domain name => IsName name ∧ name ≠ [] ∧ endsInNumber name = false
  | .ipv4 a => a < 0x100000000
  | .ipv6 pieces => IsIpv6 pieces

theorem normal_of_parse [Idna] [LawfulIdna] {cs : List Char} {h : Host} (hparse : parse cs = .ok h) : h.Normal := by
  rw [parse.eq_def] at hparse
  split at hparse
  · split at hparse
    · split at hparse
      · rename_i hpieces
        cases hparse
        exact isIpv6_of_ipv6? hpieces
      · cases hparse
    · cases hparse
  · split at hparse
    · cases hparse
    · cases hparse
    · rename_i name hempty hname
      split at hparse
      · split at hparse
        · rename_i haddress
          cases hparse
          exact ipv4?_lt haddress
        · cases hparse
      · rename_i hnumber
        cases hparse
        exact ⟨isName_of_domain? hname, fun hnil => hempty hnil, Bool.eq_false_iff.2 hnumber⟩

/-! ## Texts of hosts -/

/-- Forbidden characters are all that stand outside or mark the host. -/
theorem not_special_of_allowed {c : Char} (h : isForbidden c = false) :
    isOutside c = false ∧ Url.marksHost c = false := by
  have hblank : Url.isBlankOrControl c = false := by
    simp only [isForbidden, Bool.or_eq_false_iff] at h
    exact h.1.1
  have hne : ∀ d, isForbidden d = true → c ≠ d := by
    rintro d hd rfl
    exact Bool.noConfusion (hd.symm.trans h)
  simp only [isOutside, Url.endsAuthority, Url.marksHost, hblank, Bool.true_and, Bool.or_false,
    Bool.or_eq_false_iff,
    decide_eq_false_iff_not]
  exact ⟨⟨⟨⟨⟨hne _ rfl, hne _ rfl⟩, hne _ rfl⟩, hne _ rfl⟩, hne _ rfl⟩, ⟨hne _ rfl, hne _ rfl⟩, hne _ rfl⟩

/-- An IPv4 address is written in digits and dots. -/
theorem isDigit_of_mem_ipv4 {a : Nat} {c : Char} (hc : c ∈ text (.ipv4 a)) : c.isDigit = true ∨ c = '.' := by
  simp only [text, List.mem_append, List.mem_cons] at hc
  rcases hc with ((hc | rfl | hc) | rfl | hc) | rfl | hc
  · exact .inl (isDigit_of_mem_decimal hc)
  · exact .inr rfl
  · exact .inl (isDigit_of_mem_decimal hc)
  · exact .inr rfl
  · exact .inl (isDigit_of_mem_decimal hc)
  · exact .inr rfl
  · exact .inl (isDigit_of_mem_decimal hc)

theorem isForm_ipv4 (a : Nat) : IsForm (text (.ipv4 a)) := isForm_of_digits fun _ hc => isDigit_of_mem_ipv4 hc

theorem mem_text_ipv6 {pieces : List Nat} {c : Char} (hc : c ∈ ipv6Text pieces) :
    isOutside c = false ∧ c ≠ '[' ∧ c ≠ ']' := by
  have hdigits : ∀ d < 16, isOutside (Nat.digitChar d) = false ∧ Nat.digitChar d ≠ '[' ∧ Nat.digitChar d ≠ ']' := by
    decide
  rcases mem_ipv6Text hc with rfl | ⟨d, hd, rfl⟩
  · decide
  · exact hdigits d hd

/-- A name is the text of a name or of an IPv4 address. -/
theorem parse_of_isName [Idna] {name : List Char} (h : IsName name) (hne : name ≠ []) :
    parse name =
      if endsInNumber name then ((ipv4? name).map fun a => .ok (.ipv4 a)).getD (.error .invalidIpv4)
      else .ok (.domain name) := by
  obtain ⟨c, rest, rfl⟩ := List.exists_cons_of_ne_nil hne
  rw [parse.eq_def]
  split
  · rename_i heq
    obtain ⟨rfl, _⟩ := List.cons.inj heq
    exact absurd (h.allowed '[' List.mem_cons_self) (by decide)
  · simp only [h.domain?]
    cases ipv4? (c :: rest) with
    | none => rfl
    | some a => rfl

theorem endsInNumber_ipv4 (a : Nat) : endsInNumber (text (.ipv4 a)) = true := by
  have hdigits : (decimal (a % 256)).all Char.isDigit = true :=
    List.all_eq_true.2 fun _ hc => isDigit_of_mem_decimal hc
  have hlast : (labels (text (.ipv4 a))).getLast? = some (decimal (a % 256)) := by
    rw [labels_ipv4]
    rfl
  rw [endsInNumber, hlast]
  simp only [List.isEmpty_eq_false_iff.2 (decimal_ne_nil _), hdigits, Bool.not_false, Bool.and_self, Bool.true_or]

namespace Normal

variable [Idna] {h : Host}

/-- A host is read back from its text. -/
theorem parse_text [LawfulIdna] (hn : h.Normal) : parse h.text = .ok h := by
  cases h with
  | domain name =>
      obtain ⟨hname, hne, hnumber⟩ := hn
      rw [text, parse_of_isName hname hne, hnumber]
      rfl
  | ipv4 a =>
      have hname : IsName (text (.ipv4 a)) := isName_of_digits fun _ hc => isDigit_of_mem_ipv4 hc
      rw [parse_of_isName hname (by simp [text]), endsInNumber_ipv4, ipv4?_text hn]
      rfl
  | ipv6 pieces =>
      have hlast : (ipv6Text pieces ++ [']']).getLast? = some ']' := List.getLast?_concat
      have hpieces : ipv6? (ipv6Text pieces) = some pieces := IsIpv6.ipv6?_ipv6Text hn
      rw [text, List.cons_append, parse, if_pos hlast, List.dropLast_concat, hpieces]

/-- Nothing in a host ends it. -/
theorem clean_text (hn : h.Normal) : Clean isOutside h.text := by
  cases h with
  | domain name => exact fun c hc => (not_special_of_allowed (hn.1.allowed c hc)).1
  | ipv4 a => exact fun c hc => (not_special_of_allowed ((isForm_ipv4 a).allowed c hc)).1
  | ipv6 pieces =>
      intro c hc
      rcases List.mem_append.1 hc with hc | hc
      · rcases List.mem_cons.1 hc with rfl | hc
        · decide
        · exact (mem_text_ipv6 hc).1
      · rw [List.mem_singleton.1 hc]
        decide

theorem text_ne_nil (hn : h.Normal) : h.text ≠ [] := by
  cases h with
  | domain name => exact hn.2.1
  | ipv4 a => simp [text]
  | ipv6 pieces => simp [text]

/-- A host ends where its port starts. -/
theorem splitHost_text (hn : h.Normal) (port : List Char) :
    Url.splitHost false (h.text ++ port) =
      (h.text ++ (Url.splitHost false port).1, (Url.splitHost false port).2) := by
  cases h with
  | domain name => exact Url.splitHost_append (fun c hc => (not_special_of_allowed (hn.1.allowed c hc)).2) port
  | ipv4 a => exact Url.splitHost_append (fun c hc => (not_special_of_allowed ((isForm_ipv4 a).allowed c hc)).2) port
  | ipv6 pieces =>
      have hinner := Url.splitHost_within (fun c (hc : c ∈ ipv6Text pieces) => (mem_text_ipv6 hc).2) port
      rw [text, List.append_assoc, List.singleton_append, List.cons_append, List.append_assoc, List.singleton_append]
      exact congrArg (fun p => ('[' :: p.1, p.2)) hinner

end Normal

end MetricFanout.Host
