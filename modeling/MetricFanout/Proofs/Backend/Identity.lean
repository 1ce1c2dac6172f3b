import Mathlib.Data.List.DropRight
import MetricFanout.Backend.Address
import MetricFanout.Proofs.Url.ReadBack
/-!
# Identities are addresses

The identity of a backend is the text of its base URL without the slashes at its end. It is an address itself:
what is read from it is the base URL again, except that slashes at its end are gone, and with them the empty
directories at the end of its path.

Where the slashes are cut depends on what stands last in the URL: the fragment, the query, or the path. Only a
path that was cut needs its last slash back.
-/

namespace MetricFanout

open Percent (Clean)

/-! ## Slashes at the end -/

theorem dropSlashes_append (cs ds : List Char) :
    dropSlashes (cs ++ ds) = if dropSlashes ds = [] then dropSlashes cs else cs ++ dropSlashes ds := by
  simp only [dropSlashes, List.reverse_append, List.dropWhile_append, List.isEmpty_iff, List.reverse_eq_nil_iff]
  split
  · rfl
  · rw [List.reverse_append, List.reverse_reverse]

theorem dropSlashes_of_not_mem {cs : List Char} (h : '/' ∉ cs) : dropSlashes cs = cs := by
  refine List.rdropWhile_eq_self_iff.2 fun hne hslash => h ?_
  have hlast := List.getLast_mem hne
  rwa [eq_of_beq hslash] at hlast

/-- The slashes at the end of a text follow its last character that is none. -/
theorem dropSlashes_append_of_ne {cs : List Char} (hne : cs ≠ []) (h : '/' ∉ cs) (front ds : List Char) :
    dropSlashes (front ++ cs ++ ds) = front ++ cs ++ dropSlashes ds := by
  have hfront : dropSlashes (front ++ cs) = front ++ cs := by
    rw [dropSlashes_append, dropSlashes_of_not_mem h, if_neg hne]
  rw [dropSlashes_append, hfront]
  split
  · rename_i hnil
    rw [hnil, List.append_nil]
  · rfl

theorem dropSlashes_append_cons {c : Char} (hc : c ≠ '/') (front ds : List Char) :
    dropSlashes (front ++ c :: ds) = front ++ c :: dropSlashes ds := by
  have hmem : '/' ∉ [c] := fun hmem => hc (List.mem_singleton.1 hmem).symm
  simpa using dropSlashes_append_of_ne (List.cons_ne_nil c []) hmem front ds

theorem dropSlashes_dropSlashes (cs : List Char) : dropSlashes (dropSlashes cs) = dropSlashes cs :=
  List.rdropWhile_idempotent _ _

theorem clean_dropSlashes {p : Char → Bool} {cs : List Char} (h : Clean p cs) : Clean p (dropSlashes cs) :=
  fun c hc => h c ((List.rdropWhile_prefix _ _).subset hc)

/-! ## Paths without empty directories at their end -/

namespace UrlPath

/-- The path without the empty directories at its end. -/
def trimmed (p : UrlPath) : UrlPath := { p with dirs := p.dirs.rdropWhile List.isEmpty }

theorem Normal.trimmed {p : UrlPath} (h : p.Normal) : p.trimmed.Normal :=
  ⟨fun d hd => h.dirs d ((List.rdropWhile_prefix _ _).subset hd), h.name⟩

/-- A directory either has nothing but slashes in its text, or its last segment that is not empty ends it. -/
theorem dropSlashes_cases {dirs : List (List Char)} (h : ∀ d ∈ dirs, Plain d) :
    (dropSlashes (text ⟨dirs, []⟩) = [] ∧ trimmed ⟨dirs, []⟩ = {}) ∨
    ∃ init d, (∀ s ∈ init, Plain s) ∧ Plain d ∧ d ≠ [] ∧ trimmed ⟨dirs, []⟩ = ⟨init ++ [d], []⟩ ∧
      dropSlashes (text ⟨dirs, []⟩) = text ⟨init, d⟩ := by
  -- from the end of the path, where the empty directories are
  induction dirs using List.reverseRecOn with
  | nil => exact .inl ⟨rfl, rfl⟩
  | append_singleton init d ih =>
      obtain ⟨hinit, hd⟩ := List.forall_mem_append.1 h
      replace hd := hd d List.mem_cons_self
      have htext : text ⟨init ++ [d], []⟩ = text ⟨init, []⟩ ++ d ++ ['/'] := by rw [text_snoc, text_eq_append]
      have hslash : dropSlashes ['/'] = [] := rfl
      rcases eq_or_ne d [] with rfl | hempty
      · have htrimmed : trimmed ⟨init ++ [[]], []⟩ = trimmed ⟨init, []⟩ := by
          rw [trimmed, List.rdropWhile_concat_pos _ _ _ rfl]
          rfl
        rw [htext, List.append_nil, dropSlashes_append, if_pos hslash, htrimmed]
        exact ih hinit
      · have htrimmed : trimmed ⟨init ++ [d], []⟩ = ⟨init ++ [d], []⟩ := by
          rw [trimmed, List.rdropWhile_concat_neg _ _ _ (mt List.isEmpty_iff.1 hempty)]
        refine .inr ⟨init, d, hinit, hd, hempty, htrimmed, ?_⟩
        rw [htext, dropSlashes_append_of_ne hempty hd.slash_not_mem, hslash, List.append_nil, ← text_eq_append]

variable {p : UrlPath}

theorem asDirectory_of_name_eq_nil (h : p.name = []) : p.asDirectory = p := if_pos (List.isEmpty_iff.2 h)

theorem eq_of_name_eq_nil (h : p.name = []) : p = ⟨p.dirs, []⟩ := by rw [← h]

/-- A directory that has lost the slashes at its end is read without the empty directories there. -/
theorem asDirectory_parse_dropSlashes (h : p.Normal) (hname : p.name = []) :
    (parse (dropSlashes p.text)).asDirectory = p.trimmed := by
  rw [eq_of_name_eq_nil hname]
  rcases dropSlashes_cases h.dirs with ⟨htext, htrimmed⟩ | ⟨init, d, hinit, hd, hne, htrimmed, htext⟩
  · rw [htext, htrimmed]
    rfl
  · rw [htext, htrimmed, Normal.parse_text ⟨hinit, hd⟩, asDirectory, if_neg (mt List.isEmpty_iff.1 hne)]

theorem dropSlashes_text_trimmed (h : p.Normal) (hname : p.name = []) :
    dropSlashes p.trimmed.text = dropSlashes p.text := by
  rw [eq_of_name_eq_nil hname]
  rcases dropSlashes_cases h.dirs with ⟨htext, htrimmed⟩ | ⟨init, d, _, hd, hne, htrimmed, htext⟩
  · rw [htext, htrimmed]
    rfl
  · have hslash : dropSlashes ['/'] = [] := rfl
    rw [htext, htrimmed, text_snoc, text_eq_append, dropSlashes_append_of_ne hne hd.slash_not_mem, hslash,
      List.append_nil]

end UrlPath

/-! ## Base URLs -/

theorem occursIn_append (part : List Char) : ∀ front back : List Char, occursIn part (front ++ part ++ back) = true
  | [], back => by
      cases hall : part ++ back with
      | nil => simp_all [occursIn]
      | cons c rest =>
          have hfront : part.isPrefixOf (c :: rest) = true := by
            rw [← hall, List.isPrefixOf_iff_prefix]
            exact List.prefix_append part back
          rw [List.nil_append, hall, occursIn, hfront, Bool.true_or]
  | c :: front, back => by
      rw [List.cons_append, List.cons_append, occursIn, occursIn_append part front back, Bool.or_true]

/-- A base URL is what is read from an address, with a directory as its path. -/
theorem baseUrl_eq_ok_iff [Idna] {address : String} {base : Url} : baseUrl address = .ok base ↔
    ∃ u, Url.parse (withScheme address.toList) = .ok (.web u) ∧ base = { u with path := u.path.asDirectory } := by
  unfold baseUrl
  split
  case h_1 hread => simp [hread]
  case h_2 hread => simp [hread]
  case h_3 u hread =>
    constructor
    · intro h
      exact ⟨u, hread, (Except.ok.inj h).symm⟩
    · rintro ⟨v, hv, rfl⟩
      cases hread.symm.trans hv
      rfl

variable {address : String} {base : Url}

theorem normal_of_baseUrl [Idna] [LawfulIdna] (h : baseUrl address = .ok base) : base.Normal := by
  obtain ⟨u, hread, rfl⟩ := baseUrl_eq_ok_iff.1 h
  have hu := Url.normal_of_parse hread
  exact ⟨hu.username, hu.password, hu.host, hu.port, hu.path.asDirectory, hu.query, hu.fragment⟩

theorem name_of_baseUrl [Idna] (h : baseUrl address = .ok base) : base.path.name = [] := by
  obtain ⟨u, _, rfl⟩ := baseUrl_eq_ok_iff.1 h
  exact u.path.name_asDirectory

namespace Url

variable {u : Url}

/-- The URL without the slashes at its end. A path that ends it keeps one slash. -/
def trimmed (u : Url) : Url :=
  match u.fragment, u.query with
  | some fragment, _ => { u with fragment := some (dropSlashes fragment) }
  | none, some query => { u with query := some (dropSlashes query) }
  | none, none => { u with path := u.path.trimmed }

/-- The slashes at the end of a URL stand behind its authority. -/
theorem Normal.dropSlashes_text [Idna] (h : u.Normal) : dropSlashes u.text = u.front ++ dropSlashes u.tail := by
  have hmem : '/' ∉ u.authority := fun hmem => absurd (h.clean_authority _ hmem).1 (by decide)
  rw [text_eq, front]
  exact dropSlashes_append_of_ne h.authority_ne_nil hmem _ _

/-- A text behind a front has its scheme. -/
theorem withScheme_front (u : Url) (tail : List Char) : withScheme (u.front ++ tail) = u.front ++ tail := by
  have hmark : occursIn "://".toList (u.front ++ tail) = true := by
    rw [front, List.append_assoc]
    exact occursIn_append _ _ _
  rw [withScheme, if_pos hmark]

theorem isTail_dropSlashes (u : Url) : IsTail (dropSlashes u.tail) := by
  rcases hcut : dropSlashes u.tail with _ | ⟨c, rest⟩
  · exact .inl rfl
  · refine .inr ⟨c, rest, rfl, ?_⟩
    obtain ⟨back, hback⟩ : c :: rest <+: u.tail := hcut ▸ List.rdropWhile_prefix _ _
    rw [tail, UrlPath.text] at hback
    obtain ⟨rfl, _⟩ := List.cons.inj hback
    rfl

theorem front_trimmed (u : Url) : u.trimmed.front = u.front := by
  rw [trimmed]
  split <;> rfl

/-- Up to the authority, nothing is cut. -/
theorem bare_trimmed (u : Url) (path : UrlPath) :
    { u.trimmed with path := path, query := none, fragment := none } =
      { u with path := path, query := none, fragment := none } := by
  rw [trimmed]
  split <;> rfl

/-- Whether there is a query or a fragment. -/
def HasMarks (u : Url) : Prop := u.query ≠ none ∨ u.fragment ≠ none

instance (u : Url) : Decidable u.HasMarks := inferInstanceAs (Decidable (u.query ≠ none ∨ u.fragment ≠ none))

theorem hasMarks_trimmed (u : Url) : u.trimmed.HasMarks ↔ u.HasMarks := by
  obtain ⟨scheme, username, password, host, port, path, query, fragment⟩ := u
  cases fragment with
  | some f => simp [trimmed, HasMarks]
  | none =>
      cases query with
      | some q => simp [trimmed, HasMarks]
      | none => simp [trimmed, HasMarks]

theorem path_trimmed (u : Url) : u.trimmed.path = if u.HasMarks then u.path else u.path.trimmed := by
  obtain ⟨scheme, username, password, host, port, path, query, fragment⟩ := u
  cases fragment with
  | some f => simp [trimmed, HasMarks]
  | none =>
      cases query with
      | some q => simp [trimmed, HasMarks]
      | none => simp [trimmed, HasMarks]

/-- Either the last part of a URL is a fragment or a query, which is cut with the text, or it is the path. -/
theorem Normal.trimmed_cases [Idna] (h : u.Normal) :
    (u.trimmed.Normal ∧ u.trimmed.tail = dropSlashes u.tail ∧ u.trimmed.path = u.path) ∨
    (u.trimmed = { u with path := u.path.trimmed } ∧ u.query = none ∧ u.fragment = none) := by
  obtain ⟨scheme, username, password, host, port, path, query, fragment⟩ := u
  cases fragment with
  | some f =>
      have hfragment : Clean fragmentEscape (dropSlashes f) := clean_dropSlashes (h.fragment f rfl)
      refine .inl ⟨⟨h.username, h.password, h.host, h.port, h.path, h.query, ?_⟩,
        (dropSlashes_append_cons (by decide) _ _).symm, rfl⟩
      exact fun _ hf => Option.some.inj hf ▸ hfragment
  | none =>
      cases query with
      | some q =>
          have hquery : Clean queryEscape (dropSlashes q) := clean_dropSlashes (h.query q rfl)
          refine .inl ⟨⟨h.username, h.password, h.host, h.port, h.path, fun _ hq => Option.some.inj hq ▸ hquery,
            h.fragment⟩, ?_, rfl⟩
          rw [tail, tail, marked, marked, List.append_nil]
          exact (List.append_nil _).trans (dropSlashes_append_cons (by decide) _ _).symm
      | none => exact .inr ⟨rfl, rfl, rfl⟩

/-- **A URL that has lost the slashes at its end is read back without them.** -/
theorem Normal.parse_dropSlashes [Idna] [LawfulIdna] (h : u.Normal) (hname : u.path.name = []) :
    ∃ v, parse (dropSlashes u.text) = .ok (.web v) ∧ { v with path := v.path.asDirectory } = u.trimmed := by
  rw [h.dropSlashes_text]
  rcases h.trimmed_cases with ⟨hnormal, htail, hpath⟩ | ⟨htrimmed, hquery, hfragment⟩
  · refine ⟨u.trimmed, ?_, ?_⟩
    · rw [← htail, ← front_trimmed, ← text_eq]
      exact hnormal.parse_text
    · rw [UrlPath.asDirectory_of_name_eq_nil (hpath ▸ hname)]
  · have htail : u.tail = u.path.text := by simp [tail, marked, hquery, hfragment]
    have hclean : Clean isBlankOrControl (dropSlashes u.tail) := clean_dropSlashes h.clean_tail
    -- a path alone has no marks, and gets none when it is cut
    have hpath : ∀ c ∈ dropSlashes u.tail, (c ≠ '?' && c ≠ '#') = true := fun c hc =>
      List.takeWhile_eq_self_iff.1 (h.split_tail.1.trans htail.symm) c ((List.rdropWhile_prefix _ _).subset hc)
    have hcut : u.withTail (dropSlashes u.tail) = { u with path := .parse (dropSlashes u.tail) } := by
      rw [withTail, pathIn, behindPath, List.takeWhile_eq_self_iff.2 hpath, List.dropWhile_eq_nil_iff.2 hpath,
        hquery, hfragment]
      rfl
    refine ⟨_, h.parse_front u.isTail_dropSlashes hclean, ?_⟩
    rw [hcut, htrimmed, htail, UrlPath.asDirectory_parse_dropSlashes h.path hname]

theorem Normal.trimmed [Idna] (h : u.Normal) : u.trimmed.Normal := by
  rcases h.trimmed_cases with ⟨hnormal, _⟩ | ⟨htrimmed, _⟩
  · exact hnormal
  · rw [htrimmed]
    exact ⟨h.username, h.password, h.host, h.port, h.path.trimmed, h.query, h.fragment⟩

/-- The slashes at the end of a URL do not count in its text. -/
theorem Normal.dropSlashes_text_trimmed [Idna] (h : u.Normal) (hname : u.path.name = []) :
    dropSlashes u.trimmed.text = dropSlashes u.text := by
  rw [h.trimmed.dropSlashes_text, h.dropSlashes_text, front_trimmed]
  rcases h.trimmed_cases with ⟨_, htail, _⟩ | ⟨htrimmed, hquery, hfragment⟩
  · rw [htail, dropSlashes_dropSlashes]
  · simp only [htrimmed, tail, marked, hquery, hfragment, List.append_nil]
    rw [UrlPath.dropSlashes_text_trimmed h.path hname]

/-- A base URL is read back from its identity, without the slashes at its end. -/
theorem baseUrl_identity [Idna] [LawfulIdna] (h : baseUrl address = .ok base) :
    baseUrl base.identity = .ok base.trimmed := by
  have hnormal := normal_of_baseUrl h
  obtain ⟨v, hread, htrimmed⟩ := hnormal.parse_dropSlashes (name_of_baseUrl h)
  refine baseUrl_eq_ok_iff.2 ⟨v, ?_, htrimmed.symm⟩
  rw [identity, String.toList_ofList, hnormal.dropSlashes_text, withScheme_front, ← hnormal.dropSlashes_text]
  exact hread

theorem identity_trimmed [Idna] [LawfulIdna] (h : baseUrl address = .ok base) :
    base.trimmed.identity = base.identity := by
  rw [identity, (normal_of_baseUrl h).dropSlashes_text_trimmed (name_of_baseUrl h)]
  rfl

end Url

end MetricFanout
