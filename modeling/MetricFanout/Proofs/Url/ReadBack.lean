import MetricFanout.Proofs.Failure
import MetricFanout.Proofs.Url.Host
import MetricFanout.Proofs.Url.Path
/-!
# URLs are read back

A URL that has been read is in normal form: nothing in its parts is left to be escaped, its host and its path are
in the one form in which they are written, and its port is not the scheme's own. A URL in normal form is read
back from its text.

## Implementation notes

Everything up to the port is read back whatever follows it (`parse_front`). What follows it may have been cut, so
it is a text of its own, a tail, and no part of a URL.
-/

namespace MetricFanout.Url

open Percent (Clean Spares)

/-- A URL that has been read. -/
structure Normal [Idna] (u : Url) : Prop where
  username : Clean credentialEscape u.username
  password : Clean credentialEscape u.password
  host : u.host.Normal
  port : ∀ p, u.port = some p → p ≤ maxPort ∧ p ≠ u.scheme.port
  path : u.path.Normal
  query : ∀ q, u.query = some q → Clean queryEscape q
  fragment : ∀ f, u.fragment = some f → Clean fragmentEscape f

theorem spares_credentialEscape : Spares credentialEscape := ⟨by decide, by decide⟩

theorem spares_queryEscape : Spares queryEscape := ⟨by decide, by decide⟩

theorem spares_fragmentEscape : Spares fragmentEscape := ⟨by decide, by decide⟩

/-! ## What is read is normal -/

theorem clean_readAuthority {authority : List Char} {more : Bool} {a : Authority}
    (h : readAuthority authority more = .ok a) :
    Clean credentialEscape a.username ∧ Clean credentialEscape a.password := by
  rw [readAuthority] at h
  simp only at h
  split at h
  · cases h
    exact ⟨List.forall_mem_nil _, List.forall_mem_nil _⟩
  · split at h
    · cases h
    · cases h
      exact ⟨Percent.clean_encodeWith spares_credentialEscape _,
        Percent.clean_encodeWith spares_credentialEscape _⟩

theorem readPort_le {cs : List Char} {port : Option Nat} (h : readPort cs = .ok port) :
    ∀ p, port = some p → p ≤ maxPort := by
  rw [readPort.eq_def] at h
  split at h
  · cases h
    exact fun p hp => nomatch hp
  · split at h
    · split at h
      · cases h
        exact fun p hp => nomatch hp
      · split at h
        · split at h
          · rename_i hle
            cases h
            intro p hp
            cases hp
            exact hle
          · cases h
        · cases h
    · cases h

theorem clean_readQuery {cs q : List Char} (h : readQuery cs = some q) : Clean queryEscape q := by
  rw [readQuery.eq_def] at h
  split at h
  · cases h
    exact Percent.clean_encodeWith spares_queryEscape _
  · cases h

theorem clean_readFragment {cs f : List Char} (h : readFragment cs = some f) : Clean fragmentEscape f := by
  rw [readFragment] at h
  split at h
  · cases h
    exact Percent.clean_encodeWith spares_fragmentEscape _
  · cases h

/-! ## Taking a web URL apart -/

/-- The path at the front of a tail. -/
def pathIn (tail : List Char) : List Char := tail.takeWhile fun c => c ≠ '?' && c ≠ '#'

/-- What follows the path of a tail: a query, a fragment, or both. -/
def behindPath (tail : List Char) : List Char := tail.dropWhile fun c => c ≠ '?' && c ≠ '#'

/-- The URL with another tail. -/
def withTail (u : Url) (tail : List Char) : Url :=
  { u with
    path := .parse (pathIn tail), query := readQuery (behindPath tail), fragment := readFragment (behindPath tail) }

/-- A web URL is read from its authority and its tail. -/
theorem readWeb_eq_ok_iff [Idna] {scheme : Scheme} {cs : List Char} {u : Url} :
    readWeb scheme cs = .ok u ↔ ∃ a host port,
      readAuthority (cs.takeWhile fun c => !endsAuthority true c)
          (!(cs.dropWhile fun c => !endsAuthority true c).isEmpty) = .ok a ∧
        a.host ≠ [] ∧ Host.parse a.host = .ok host ∧ readPort a.port = .ok port ∧
        u = withTail ⟨scheme, a.username, a.password, host, if port = some scheme.port then none else port,
          {}, none, none⟩ (cs.dropWhile fun c => !endsAuthority true c) := by
  rw [readWeb]
  constructor
  · intro h
    obtain ⟨a, ha, h⟩ := exists_of_bind_ok h
    split at h
    · cases h
    · rename_i hne
      obtain ⟨host, hhost, h⟩ := exists_of_bind_ok h
      obtain ⟨port, hport, h⟩ := exists_of_bind_ok h
      cases h
      exact ⟨a, host, port, ha, fun hnil => hne (List.isEmpty_iff.2 hnil), hhost, hport, rfl⟩
  · rintro ⟨a, host, port, ha, hne, hhost, hport, rfl⟩
    have hempty : ¬ a.host.isEmpty = true := fun hnil => hne (List.isEmpty_iff.1 hnil)
    simp only [ha, bind, Except.bind, if_neg hempty, hhost, hport]
    rfl

theorem normal_of_readWeb [Idna] [LawfulIdna] {scheme : Scheme} {cs : List Char} {u : Url}
    (h : readWeb scheme cs = .ok u) : u.Normal := by
  obtain ⟨a, host, port, ha, hne, hhost, hport, rfl⟩ := readWeb_eq_ok_iff.1 h
  have hclean := clean_readAuthority ha
  constructor
  case username => exact hclean.1
  case password => exact hclean.2
  case host => exact Host.normal_of_parse hhost
  case port =>
    intro p hp
    simp only [withTail] at hp
    split at hp
    · cases hp
    · rename_i hown
      exact ⟨readPort_le hport p hp, fun heq => hown (heq ▸ hp)⟩
  case path => exact UrlPath.normal_parse _
  case query => exact fun q hq => clean_readQuery hq
  case fragment => exact fun f hf => clean_readFragment hf

/-- A URL for the web is read behind its scheme. -/
theorem exists_of_parse [Idna] {text : List Char} {u : Url} (h : parse text = .ok (.web u)) :
    ∃ scheme s rest, splitScheme (cleaned text) = some (scheme, rest) ∧
      readWeb s (rest.dropWhile UrlPath.isSlash) = .ok u := by
  rw [parse] at h
  split at h
  · cases h
  · rename_i scheme rest hscheme
    split at h
    · rename_i s hkind
      obtain ⟨v, hread, hv⟩ := exists_of_map_ok h
      cases hv
      exact ⟨scheme, s, rest, hscheme, hread⟩
    · obtain ⟨_, _, hother⟩ := exists_of_map_ok h
      cases hother
    · obtain ⟨_, _, hother⟩ := exists_of_map_ok h
      cases hother
    · split at h
      · obtain ⟨_, _, hother⟩ := exists_of_map_ok h
        cases hother
      · cases h

theorem normal_of_parse [Idna] [LawfulIdna] {text : List Char} {u : Url} (h : parse text = .ok (.web u)) :
    u.Normal := by
  obtain ⟨_, _, _, _, hread⟩ := exists_of_parse h
  exact normal_of_readWeb hread

/-! ## The front -/

/-- What stands between the slashes behind the scheme and the path. -/
def authority (u : Url) : List Char := u.credentials ++ u.host.text ++ u.portText

/-- The text up to the path. -/
def front (u : Url) : List Char := u.scheme.name.toList ++ "://".toList ++ u.authority

/-- The text from the path on. -/
def tail (u : Url) : List Char := u.path.text ++ marked '?' u.query ++ marked '#' u.fragment

theorem text_eq (u : Url) : u.text = u.front ++ u.tail := by
  simp only [text, front, authority, tail, List.append_assoc]

/-- A tail is nothing, or it starts where an authority ends. -/
def IsTail (tail : List Char) : Prop := tail = [] ∨ ∃ c rest, tail = c :: rest ∧ endsAuthority true c = true

/-- What ends credentials or a host is escaped in credentials. -/
theorem not_special_of_credential {c : Char} (h : credentialEscape c = false) :
    Host.isOutside c = false ∧ c ≠ ':' := by
  have hblank : isBlankOrControl c = false := by
    simp only [credentialEscape, UrlPath.mustEscape, Bool.or_eq_false_iff] at h
    exact h.1.1.1
  have hne : ∀ d, credentialEscape d = true → c ≠ d := by
    rintro d hd rfl
    exact Bool.noConfusion (hd.symm.trans h)
  simp only [Host.isOutside, endsAuthority, hblank, Bool.true_and, Bool.or_false, Bool.or_eq_false_iff,
    decide_eq_false_iff_not]
  exact ⟨⟨⟨⟨⟨hne _ rfl, hne _ rfl⟩, hne _ rfl⟩, hne _ rfl⟩, hne _ rfl⟩, hne _ rfl⟩

/-- The port is written with a colon and digits. -/
theorem portText_cases (u : Url) : u.portText = [] ∧ u.port = none ∨
    ∃ p, u.portText = ':' :: Host.decimal p ∧ u.port = some p := by
  cases hport : u.port with
  | none => exact .inl ⟨by rw [portText, hport], rfl⟩
  | some p => exact .inr ⟨p, by rw [portText, hport], rfl⟩

theorem readPort_portText [Idna] {u : Url} (h : u.Normal) : readPort u.portText = .ok u.port := by
  rcases u.portText_cases with ⟨htext, hport⟩ | ⟨p, htext, hport⟩
  · rw [htext, hport]
    rfl
  · have hdigits : (Host.decimal p).all Char.isDigit = true :=
      List.all_eq_true.2 fun _ hc => Host.isDigit_of_mem_decimal hc
    rw [htext, hport, readPort, if_pos hdigits, List.isEmpty_eq_false_iff.2 (Host.decimal_ne_nil p),
      Host.number?_decimal]
    exact if_pos (h.port p hport).1

theorem splitHost_portText (u : Url) : splitHost false u.portText = ([], u.portText) := by
  rcases u.portText_cases with ⟨htext, _⟩ | ⟨p, htext, _⟩
  · rw [htext]
    rfl
  · rw [htext]
    rfl

theorem clean_portText (u : Url) : Clean Host.isOutside u.portText := by
  rcases u.portText_cases with ⟨htext, _⟩ | ⟨p, htext, _⟩
  · rw [htext]
    exact List.forall_mem_nil _
  · rw [htext]
    refine List.forall_mem_cons.2 ⟨by decide, fun c hc => ?_⟩
    have hform : Host.IsForm (Host.decimal p) :=
      Host.isForm_of_digits fun c hc => .inl (Host.isDigit_of_mem_decimal hc)
    exact (Host.not_special_of_allowed (hform.allowed c hc)).1

theorem Normal.clean_address [Idna] {u : Url} (h : u.Normal) : Clean Host.isOutside (u.host.text ++ u.portText) :=
  h.host.clean_text.append u.clean_portText

/-- Name and password as they are written. -/
def userinfo (u : Url) : List Char := u.username ++ if u.password.isEmpty then [] else ':' :: u.password

/-- Credentials are written unless both parts are empty. -/
theorem credentials_cases (u : Url) : (u.credentials = [] ∧ u.username = [] ∧ u.password = []) ∨
    (u.credentials = u.userinfo ++ ['@'] ∧ u.userinfo ≠ []) := by
  rw [credentials]
  split
  · rename_i hnone
    simp only [Bool.and_eq_true, List.isEmpty_iff] at hnone
    exact .inl ⟨rfl, hnone⟩
  · rename_i hsome
    refine .inr ⟨rfl, fun hnil => hsome ?_⟩
    obtain ⟨hname, hpassword⟩ := List.append_eq_nil_iff.1 hnil
    split at hpassword
    · rename_i hempty
      rw [hname, hempty]
      rfl
    · cases hpassword

/-- Name and password are found on both sides of the first colon. -/
theorem Normal.readCredentials_userinfo [Idna] {u : Url} (h : u.Normal) :
    readCredentials u.userinfo = (u.username, u.password) := by
  have hcolon : ∀ c ∈ u.username, decide (c ≠ ':') = true := fun c hc =>
    decide_eq_true (not_special_of_credential (h.username c hc)).2
  rw [userinfo, readCredentials, List.takeWhile_append_of_pos hcolon, List.dropWhile_append_of_pos hcolon]
  have hpassword := h.password
  cases hsplit : u.password with
  | nil => simp [Percent.encodeWith_of_clean h.username, Percent.encodeWith_of_clean (List.forall_mem_nil _)]
  | cons c rest =>
      rw [hsplit] at hpassword
      simp [Percent.encodeWith_of_clean h.username, Percent.encodeWith_of_clean hpassword]

theorem Normal.clean_userinfo [Idna] {u : Url} (h : u.Normal) : Clean Host.isOutside u.userinfo := by
  have hname : Clean Host.isOutside u.username := fun c hc => (not_special_of_credential (h.username c hc)).1
  have hpassword : Clean Host.isOutside u.password := fun c hc => (not_special_of_credential (h.password c hc)).1
  refine hname.append ?_
  split
  · exact List.forall_mem_nil _
  · exact List.forall_mem_cons.2 ⟨by decide, hpassword⟩

/-- An authority is taken apart into what it was put together from. -/
theorem Normal.readAuthority_authority [Idna] {u : Url} (h : u.Normal) (more : Bool) :
    readAuthority u.authority more = .ok ⟨u.username, u.password, u.host.text, u.portText⟩ := by
  have hat : '@' ∉ u.host.text ++ u.portText := fun hmem => absurd (h.clean_address _ hmem) (by decide)
  have hhost : splitHost false (u.host.text ++ u.portText) = (u.host.text, u.portText) := by
    rw [h.host.splitHost_text, u.splitHost_portText, List.append_nil]
  rw [authority, List.append_assoc]
  rcases u.credentials_cases with ⟨hnone, hname, hpassword⟩ | ⟨hsome, hne⟩
  · rw [hnone, List.nil_append, readAuthority, splitCredentials_of_not_mem hat]
    simp only [hhost, hname, hpassword]
  · have hinfo : ¬ u.userinfo.isEmpty = true := mt List.isEmpty_iff.1 hne
    rw [hsome, List.append_assoc, List.singleton_append, readAuthority, splitCredentials_append _ hat]
    simp only [hhost, h.readCredentials_userinfo, Bool.and_eq_true, hinfo, false_and, if_false, Bool.false_eq_true]

/-- Nothing in an authority ends it, and nothing in it is blank. -/
theorem Normal.clean_authority [Idna] {u : Url} (h : u.Normal) :
    ∀ c ∈ u.authority, endsAuthority true c = false ∧ isBlankOrControl c = false := by
  have hinside : ∀ {c}, Host.isOutside c = false → endsAuthority true c = false ∧ isBlankOrControl c = false := by
    intro c hc
    simp only [Host.isOutside, Bool.or_eq_false_iff] at hc
    exact ⟨hc.1.1, hc.2⟩
  intro c hc
  rw [authority, List.append_assoc] at hc
  rcases List.mem_append.1 hc with hc | hc
  · rcases u.credentials_cases with ⟨hnone, _⟩ | ⟨hsome, _⟩
    · rw [hnone] at hc
      exact absurd hc List.not_mem_nil
    · rw [hsome] at hc
      rcases List.mem_append.1 hc with hc | hc
      · exact hinside (h.clean_userinfo c hc)
      · rw [List.mem_singleton.1 hc]
        decide
  · exact hinside (h.clean_address c hc)

theorem Normal.authority_ne_nil [Idna] {u : Url} (h : u.Normal) : u.authority ≠ [] := by
  intro hnil
  rw [authority, List.append_eq_nil_iff, List.append_eq_nil_iff] at hnil
  exact h.host.text_ne_nil hnil.1.2

/-! ## Reading back -/

theorem dropWhile_of_clean {p : Char → Bool} {cs : List Char} (h : Clean p cs) : cs.dropWhile p = cs := by
  cases cs with
  | nil => rfl
  | cons c rest => rw [List.dropWhile_cons, h c List.mem_cons_self]; rfl

/-- A text without blanks is clean. -/
theorem cleaned_of_clean {cs : List Char} (h : Clean isBlankOrControl cs) : cleaned cs = cs := by
  have hback : (cs.reverse.dropWhile isBlankOrControl).reverse = cs := by
    rw [dropWhile_of_clean fun c hc => h c (List.mem_reverse.1 hc), List.reverse_reverse]
  have hkept : ∀ c ∈ cs, (c ≠ '\t' && c ≠ '\n' && c ≠ '\r') = true := by
    intro c hc
    have hne : ∀ d, isBlankOrControl d = true → c ≠ d := by
      rintro d hd rfl
      exact Bool.noConfusion (hd.symm.trans (h c hc))
    simp [hne '\t' rfl, hne '\n' rfl, hne '\r' rfl]
  rw [cleaned, dropWhile_of_clean h]
  simp only [hback]
  exact List.filter_eq_self.2 hkept

theorem splitScheme_name (s : Scheme) (rest : List Char) :
    splitScheme (s.name.toList ++ ':' :: rest) = some (s.name, rest) := by
  cases s with
  | http => rfl
  | https => rfl

theorem kindOf_name (s : Scheme) : kindOf s.name = .web s := by cases s <;> decide

/-- An authority ends where its tail starts. -/
theorem Normal.split_authority [Idna] {u : Url} (h : u.Normal) {tail : List Char} (htail : IsTail tail) :
    (u.authority ++ tail).takeWhile (fun c => !endsAuthority true c) = u.authority ∧
      (u.authority ++ tail).dropWhile (fun c => !endsAuthority true c) = tail := by
  have hinside : ∀ c ∈ u.authority, (!endsAuthority true c) = true := fun c hc => by
    rw [(h.clean_authority c hc).1]
    rfl
  have hends : tail.takeWhile (fun c => !endsAuthority true c) = [] ∧
      tail.dropWhile (fun c => !endsAuthority true c) = tail := by
    rcases htail with rfl | ⟨c, rest, rfl, hc⟩
    · exact ⟨rfl, rfl⟩
    · simp [hc]
  rw [List.takeWhile_append_of_pos hinside, List.dropWhile_append_of_pos hinside, hends.1, hends.2,
    List.append_nil]
  exact ⟨rfl, rfl⟩

/-- The slashes behind a scheme end at the authority. -/
theorem Normal.dropWhile_slashes [Idna] {u : Url} (h : u.Normal) (tail : List Char) :
    ('/' :: '/' :: (u.authority ++ tail)).dropWhile UrlPath.isSlash = u.authority ++ tail := by
  obtain ⟨c, rest, hauthority⟩ := List.exists_cons_of_ne_nil h.authority_ne_nil
  have hc : UrlPath.isSlash c = false := by
    have hends := (h.clean_authority c (hauthority ▸ List.mem_cons_self)).1
    simp only [endsAuthority, Bool.or_eq_false_iff, Bool.true_and, decide_eq_false_iff_not] at hends
    simp [UrlPath.isSlash, hends]
  have hslash : UrlPath.isSlash '/' = true := rfl
  rw [List.dropWhile_cons_of_pos hslash, List.dropWhile_cons_of_pos hslash, hauthority, List.cons_append,
    List.dropWhile_cons_of_neg (by rw [hc]; exact Bool.false_ne_true)]

theorem Normal.clean_front [Idna] {u : Url} (h : u.Normal) : Clean isBlankOrControl u.front := by
  have hscheme : Clean isBlankOrControl (u.scheme.name.toList ++ "://".toList) := by
    cases u.scheme with
    | http => exact (by decide : Clean isBlankOrControl "http://".toList)
    | https => exact (by decide : Clean isBlankOrControl "https://".toList)
  exact hscheme.append fun c hc => (h.clean_authority c hc).2

/-- The port is not the scheme's own, so that it is kept. -/
theorem Normal.kept_port [Idna] {u : Url} (h : u.Normal) :
    (if u.port = some u.scheme.port then none else u.port) = u.port :=
  if_neg fun hown => (h.port _ hown).2 rfl

/-- What has been read is read back up to the path, and what follows is read as any other text. -/
theorem Normal.parse_front [Idna] [LawfulIdna] {u : Url} (h : u.Normal) {tail : List Char} (htail : IsTail tail)
    (hclean : Clean isBlankOrControl tail) : parse (u.front ++ tail) = .ok (.web (u.withTail tail)) := by
  have htext : u.front ++ tail = u.scheme.name.toList ++ ':' :: '/' :: '/' :: (u.authority ++ tail) := by
    simp [front]
  have hread : readWeb u.scheme (u.authority ++ tail) = .ok (u.withTail tail) := by
    obtain ⟨htake, hdrop⟩ := h.split_authority htail
    refine readWeb_eq_ok_iff.2 ⟨⟨u.username, u.password, u.host.text, u.portText⟩, u.host, u.port, ?_,
      h.host.text_ne_nil, h.host.parse_text, readPort_portText h, ?_⟩
    · rw [htake]
      exact h.readAuthority_authority _
    · rw [hdrop, h.kept_port]
      rfl
  rw [parse, cleaned_of_clean (h.clean_front.append hclean), htext, splitScheme_name]
  simp only [kindOf_name, h.dropWhile_slashes, hread]
  rfl

/-! ## Tails -/

theorem isTail_tail (u : Url) : IsTail u.tail := .inr ⟨'/', _, rfl, rfl⟩

/-- A path ends where a query or a fragment starts. -/
theorem Normal.split_tail [Idna] {u : Url} (h : u.Normal) :
    pathIn u.tail = u.path.text ∧ behindPath u.tail = marked '?' u.query ++ marked '#' u.fragment := by
  have hpath : ∀ c ∈ u.path.text, (c ≠ '?' && c ≠ '#') = true := by
    intro c hc
    have hne : ∀ d, UrlPath.mustEscape d = true → c ≠ d := by
      rintro d hd rfl
      exact Bool.noConfusion (hd.symm.trans (h.path.clean_text c hc))
    simp [hne '?' rfl, hne '#' rfl]
  have hends : (marked '?' u.query ++ marked '#' u.fragment).takeWhile (fun c => c ≠ '?' && c ≠ '#') = [] ∧
      (marked '?' u.query ++ marked '#' u.fragment).dropWhile (fun c => c ≠ '?' && c ≠ '#') =
        marked '?' u.query ++ marked '#' u.fragment := by
    cases u.query with
    | some q => exact ⟨rfl, rfl⟩
    | none =>
        cases u.fragment with
        | some f => exact ⟨rfl, rfl⟩
        | none => exact ⟨rfl, rfl⟩
  rw [tail, List.append_assoc, pathIn, behindPath, List.takeWhile_append_of_pos hpath,
    List.dropWhile_append_of_pos hpath, hends.1, hends.2, List.append_nil]
  exact ⟨rfl, rfl⟩

/-- A query ends at the mark of a fragment, which does not stand in it. -/
theorem Normal.read_marked [Idna] {u : Url} (h : u.Normal) :
    readQuery (marked '?' u.query ++ marked '#' u.fragment) = u.query ∧
      readFragment (marked '?' u.query ++ marked '#' u.fragment) = u.fragment := by
  have hfragment : readFragment (marked '#' u.fragment) = u.fragment := by
    cases hf : u.fragment with
    | none => rfl
    | some f => simp [marked, readFragment, Percent.encodeWith_of_clean (h.fragment f hf)]
  cases hq : u.query with
  | none =>
      refine ⟨?_, hfragment⟩
      cases u.fragment with
      | none => rfl
      | some f => rfl
  | some q =>
      have hclean := h.query q hq
      have hinside : ∀ c ∈ q, decide (c ≠ '#') = true := by
        intro c hc
        refine decide_eq_true ?_
        rintro rfl
        exact absurd (hclean _ hc) (by decide)
      have hends : (marked '#' u.fragment).takeWhile (· ≠ '#') = [] := by
        cases u.fragment with
        | none => rfl
        | some f => rfl
      constructor
      · rw [marked, List.cons_append, readQuery, List.takeWhile_append_of_pos hinside, hends, List.append_nil,
          Percent.encodeWith_of_clean hclean]
      · have hmark : ∀ c ∈ '?' :: q, decide (c ≠ '#') = true := List.forall_mem_cons.2 ⟨by decide, hinside⟩
        rw [marked, readFragment, List.dropWhile_append_of_pos hmark]
        exact hfragment

/-- The parts of a tail are found at their marks. -/
theorem Normal.withTail_tail [Idna] {u : Url} (h : u.Normal) : u.withTail u.tail = u := by
  rw [withTail, h.split_tail.1, h.split_tail.2, h.path.parse_text, h.read_marked.1, h.read_marked.2]

theorem Normal.clean_tail [Idna] {u : Url} (h : u.Normal) : Clean isBlankOrControl u.tail := by
  have hmarked : ∀ {p : Char → Bool} {mark : Char} {part : Option (List Char)}, isBlankOrControl mark = false →
      (∀ cs, part = some cs → Clean p cs) → (∀ c, p c = false → isBlankOrControl c = false) →
      Clean isBlankOrControl (marked mark part) := by
    intro p mark part hmark hpart hp
    cases part with
    | none => exact List.forall_mem_nil _
    | some cs => exact List.forall_mem_cons.2 ⟨hmark, (hpart cs rfl).mono hp⟩
  have hpath : ∀ c, UrlPath.mustEscape c = false → isBlankOrControl c = false := by
    intro c hc
    simp only [UrlPath.mustEscape, Bool.or_eq_false_iff] at hc
    exact hc.1.1
  have hquery : ∀ c, queryEscape c = false → isBlankOrControl c = false := by
    intro c hc
    simp only [queryEscape, Bool.or_eq_false_iff] at hc
    exact hc.1.1
  have hfragment : ∀ c, fragmentEscape c = false → isBlankOrControl c = false := by
    intro c hc
    simp only [fragmentEscape, Bool.or_eq_false_iff] at hc
    exact hc.1.1
  have hfront : Clean isBlankOrControl (u.path.text ++ marked '?' u.query) :=
    (h.path.clean_text.mono hpath).append (hmarked rfl h.query hquery)
  exact hfront.append (hmarked rfl h.fragment hfragment)

/-- **A URL that has been read is read back from its text.** -/
theorem Normal.parse_text [Idna] [LawfulIdna] {u : Url} (h : u.Normal) : parse u.text = .ok (.web u) := by
  rw [text_eq, h.parse_front u.isTail_tail h.clean_tail, h.withTail_tail]

end MetricFanout.Url
