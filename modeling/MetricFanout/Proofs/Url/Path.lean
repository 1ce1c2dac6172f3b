import Mathlib.Data.List.Basic
import MetricFanout.Proofs.Url.Escapes
import MetricFanout.Proofs.Url.Split
/-!
# Paths are read back

A path that has been read consists of segments in which nothing is left to be escaped and no dots are left to be
followed. Such a path is read back from its text, and a path that is resolved below a directory is put behind it.
-/

namespace MetricFanout.UrlPath

open Percent (Clean encodeWith)

/-- A segment as it stands in a path that has been read. -/
structure Plain (s : List Char) : Prop where
  clean : Clean mustEscape s
  whole : Clean isSlash s
  notHere : dots s ≠ some 1
  notParent : dots s ≠ some 2

/-- A path of such segments. -/
structure Normal (p : UrlPath) : Prop where
  dirs : ∀ d ∈ p.dirs, Plain d
  name : Plain p.name

theorem spares_mustEscape : Percent.Spares mustEscape := ⟨by decide, by decide⟩

theorem spares_isSlash : Percent.Spares isSlash := ⟨by decide, by decide⟩

instance : DecidablePred Plain := fun s =>
  decidable_of_iff (Clean mustEscape s ∧ Clean isSlash s ∧ dots s ≠ some 1 ∧ dots s ≠ some 2)
    ⟨fun ⟨clean, whole, notHere, notParent⟩ => ⟨clean, whole, notHere, notParent⟩,
      fun h => ⟨h.clean, h.whole, h.notHere, h.notParent⟩⟩

theorem plain_nil : Plain [] := by decide

theorem Plain.slash_not_mem {s : List Char} (h : Plain s) : '/' ∉ s := fun hmem => absurd (h.whole _ hmem) (by decide)

/-! ## Dots -/

/-- The escape of a character is no dot. -/
theorem not_dot_of_escapeByte {b : UInt8} {more rest : List Char} {c : Char}
    (h : '%' :: '2' :: c :: rest = Percent.escapeByte b ++ more)
    (hb : b.toNat < 0x80 → mustEscape (Char.ofNat b.toNat) = true) : c ≠ 'e' ∧ c ≠ 'E' := by
  have hdigit : ∀ n < 16, (Percent.digit n = '2' → n = 2) ∧ Percent.digit n ≠ 'e' ∧
      (Percent.digit n = 'E' → n = 14) := by
    decide
  have hbound : b.toNat < 256 := b.toNat_lt
  obtain ⟨_, h⟩ := List.cons.inj h
  obtain ⟨hhigh, h⟩ := List.cons.inj h
  obtain ⟨hlow, _⟩ := List.cons.inj h
  obtain ⟨htwo, _⟩ := hdigit (b.toNat / 16) (by omega)
  obtain ⟨_, hlower, hupper⟩ := hdigit (b.toNat % 16) (by omega)
  refine ⟨fun hc => hlower (hlow.symm.trans hc), fun hc => ?_⟩
  have hdot : b.toNat = 0x2E := by
    have := htwo hhigh.symm
    have := hupper (hlow.symm.trans hc)
    omega
  rw [hdot] at hb
  exact absurd (hb (by decide)) (by decide)

/-- A text that is escaped starts with an escaped dot only if it did before. -/
theorem exists_of_encodeWith_eq_dot {s rest : List Char} {c : Char} (hc : c = 'e' ∨ c = 'E')
    (h : encodeWith mustEscape s = '%' :: '2' :: c :: rest) :
    ∃ s', s = '%' :: '2' :: c :: s' ∧ encodeWith mustEscape s' = rest := by
  rcases Percent.exists_of_encodeWith_eq_percent h with ⟨s₁, rfl, hs₁⟩ | ⟨b, more, hescape, hb⟩
  · obtain ⟨s₂, rfl, hs₂⟩ := Percent.exists_of_encodeWith_eq_cons hs₁ (by decide)
    have hne : c ≠ '%' := by rcases hc with rfl | rfl <;> decide
    obtain ⟨s₃, rfl, hs₃⟩ := Percent.exists_of_encodeWith_eq_cons hs₂ hne
    exact ⟨s₃, rfl, hs₃⟩
  · obtain ⟨hlower, hupper⟩ := not_dot_of_escapeByte hescape hb
    rcases hc with hc | hc
    · exact absurd hc hlower
    · exact absurd hc hupper

/-- Dots are not made by escaping. -/
theorem dots_of_encodeWith {t : List Char} {n : Nat} (h : dots t = some n) :
    ∀ s, encodeWith mustEscape s = t → dots s = some n := by
  fun_induction dots t generalizing n with
  | case1 =>
      intro s hs
      cases s with
      | nil => exact h
      | cons c s =>
          rw [encodeWith, List.flatMap_cons] at hs
          split at hs
          · obtain ⟨b, more, hescape, _⟩ := Percent.exists_escapeChar c
            rw [hescape] at hs
            cases hs
          · cases hs
  | case2 rest ih =>
      intro s hs
      obtain ⟨s', rfl, hs'⟩ := Percent.exists_of_encodeWith_eq_cons hs (by decide)
      obtain ⟨m, hm, rfl⟩ := Option.map_eq_some_iff.1 h
      rw [dots, ih hm s' hs']
      rfl
  | case3 rest ih =>
      intro s hs
      obtain ⟨s', rfl, hs'⟩ := exists_of_encodeWith_eq_dot (.inl rfl) hs
      obtain ⟨m, hm, rfl⟩ := Option.map_eq_some_iff.1 h
      rw [dots, ih hm s' hs']
      rfl
  | case4 rest ih =>
      intro s hs
      obtain ⟨s', rfl, hs'⟩ := exists_of_encodeWith_eq_dot (.inr rfl) hs
      obtain ⟨m, hm, rfl⟩ := Option.map_eq_some_iff.1 h
      rw [dots, ih hm s' hs']
      rfl
  | case5 => cases h

/-- A segment that is escaped and was no dots is plain. -/
theorem plain_encodeWith {s : List Char} (hwhole : Clean isSlash s) (hhere : dots s ≠ some 1)
    (hparent : dots s ≠ some 2) : Plain (encodeWith mustEscape s) where
  clean := Percent.clean_encodeWith spares_mustEscape s
  whole := hwhole.encodeWith spares_isSlash
  notHere := fun h => hhere (dots_of_encodeWith h s rfl)
  notParent := fun h => hparent (dots_of_encodeWith h s rfl)

/-! ## Reading -/

theorem parent_subset (dirs : List (List Char)) : parent dirs ⊆ dirs := by
  rw [parent]
  split
  · exact List.nil_subset _
  · split
    · exact List.Subset.refl _
    · exact List.dropLast_subset _

/-- What is read from plain directories on is normal. -/
theorem normal_walk {dirs segments : List (List Char)} (hdirs : ∀ d ∈ dirs, Plain d)
    (hwhole : ∀ s ∈ segments, Clean isSlash s) : (walk dirs segments).Normal := by
  fun_induction walk dirs segments with
  | case1 dirs => exact ⟨hdirs, plain_nil⟩
  | case2 dirs last hone => exact ⟨hdirs, plain_nil⟩
  | case3 dirs last htwo => exact ⟨fun d hd => hdirs d (parent_subset dirs hd), plain_nil⟩
  | case4 dirs last hhere hparent =>
      exact ⟨hdirs, plain_encodeWith (hwhole last List.mem_cons_self) hhere hparent⟩
  | case5 dirs s rest hne ih =>
      obtain ⟨hs, hrest⟩ := List.forall_mem_cons.1 hwhole
      refine ih ?_ hrest
      rw [enter]
      split
      · exact hdirs
      · exact fun d hd => hdirs d (parent_subset dirs hd)
      · rename_i hhere hparent
        exact List.forall_mem_append.2 ⟨hdirs, List.forall_mem_singleton.2 (plain_encodeWith hs hhere hparent)⟩

theorem normal_parse (cs : List Char) : (parse cs).Normal := by
  cases cs with
  | nil => exact ⟨List.forall_mem_nil _, plain_nil⟩
  | cons c rest => exact normal_walk (List.forall_mem_nil _) (forall_mem_splitAt isSlash _)

theorem Normal.asDirectory {p : UrlPath} (h : p.Normal) : p.asDirectory.Normal := by
  rw [UrlPath.asDirectory]
  split
  · exact h
  · exact ⟨List.forall_mem_append.2 ⟨h.dirs, List.forall_mem_singleton.2 h.name⟩, plain_nil⟩

/-! ## Reading back -/

/-- A segment that is not followed, neither to the directory itself nor to the one above. -/
def Stays (s : List Char) : Prop := dots s ≠ some 1 ∧ dots s ≠ some 2

instance : DecidablePred Stays := fun s => inferInstanceAs (Decidable (dots s ≠ some 1 ∧ dots s ≠ some 2))

theorem enter_of_stays {s : List Char} (h : Stays s) (dirs : List (List Char)) :
    enter dirs s = dirs ++ [encodeWith mustEscape s] := by
  rw [enter]
  split
  · exact absurd ‹_› h.1
  · exact absurd ‹_› h.2
  · rfl

/-- Without dots to follow, a path has the segments that are written, escaped. -/
theorem walk_of_stays {name : List Char} (hname : Stays name) : ∀ (dirs segments : List (List Char)),
    (∀ s ∈ segments, Stays s) →
      walk dirs (segments ++ [name]) = ⟨dirs ++ segments.map (encodeWith mustEscape), encodeWith mustEscape name⟩
  | dirs, [], _ => by
      rw [List.nil_append, walk, List.map_nil, List.append_nil]
      split
      · exact absurd ‹_› hname.1
      · exact absurd ‹_› hname.2
      · rfl
  | dirs, s :: rest, h => by
      obtain ⟨hs, hrest⟩ := List.forall_mem_cons.1 h
      have hmore : rest ++ [name] ≠ [] := List.append_ne_nil_of_right_ne_nil _ (List.cons_ne_nil _ _)
      rw [List.cons_append, walk, enter_of_stays hs, walk_of_stays hname _ rest hrest, List.map_cons,
        List.append_assoc, List.singleton_append]
      exact hmore

/-- Plain segments are taken as they are. -/
theorem walk_of_plain {name : List Char} (hname : Plain name) (dirs : List (List Char))
    {segments : List (List Char)} (h : ∀ s ∈ segments, Plain s) :
    walk dirs (segments ++ [name]) = ⟨dirs ++ segments, name⟩ := by
  have hsegments : segments.map (encodeWith mustEscape) = segments :=
    (List.map_congr_left fun s hs => Percent.encodeWith_of_clean (h s hs).clean).trans (List.map_id _)
  have hstays : ∀ s ∈ segments, Stays s := fun s hs => ⟨(h s hs).notHere, (h s hs).notParent⟩
  rw [walk_of_stays ⟨hname.notHere, hname.notParent⟩ dirs segments hstays, hsegments,
    Percent.encodeWith_of_clean hname.clean]

theorem text_eq_append (dirs : List (List Char)) (name : List Char) : text ⟨dirs, name⟩ = text ⟨dirs, []⟩ ++ name := by
  simp [text]

/-- A slash makes a directory of a name. -/
theorem text_snoc (dirs : List (List Char)) (name : List Char) :
    text ⟨dirs ++ [name], []⟩ = text ⟨dirs, name⟩ ++ ['/'] := by
  simp [text]

/-- The directories of a text are found between its slashes. -/
theorem splitAt_segments {name : List Char} (hname : Clean isSlash name) : ∀ dirs : List (List Char),
    (∀ d ∈ dirs, Clean isSlash d) → splitAt isSlash (dirs.flatMap (· ++ ['/']) ++ name) = dirs ++ [name]
  | [], _ => splitAt_of_forall hname
  | d :: rest, h => by
      obtain ⟨hd, hrest⟩ := List.forall_mem_cons.1 h
      rw [List.flatMap_cons, List.append_assoc, List.append_assoc, List.singleton_append, splitAt_append hd rfl,
        splitAt_segments hname rest hrest, List.cons_append]

/-- A path is read back from its text. -/
theorem Normal.parse_text {p : UrlPath} (h : p.Normal) : parse p.text = p := by
  have hsplit := splitAt_segments h.name.whole p.dirs fun d hd => (h.dirs d hd).whole
  have hslash : isSlash '/' = true := rfl
  rw [text, parse, if_pos hslash, hsplit, walk_of_plain h.name [] h.dirs, List.nil_append]

/-- Nothing in a text is to be escaped. -/
theorem Normal.clean_text {p : UrlPath} (h : p.Normal) : Clean mustEscape p.text := by
  intro c hc
  have hslash : mustEscape '/' = false := rfl
  rw [text] at hc
  rcases List.mem_cons.1 hc with rfl | hc
  · exact hslash
  · rcases List.mem_append.1 hc with hc | hc
    · obtain ⟨d, hd, hc⟩ := List.mem_flatMap.1 hc
      rcases List.mem_append.1 hc with hc | hc
      · exact (h.dirs d hd).clean c hc
      · rw [List.mem_singleton.1 hc]
        exact hslash
    · exact h.name.clean c hc

/-! ## Resolving -/

/-- A directory's text ends in a slash. -/
theorem text_asDirectory (p : UrlPath) :
    p.asDirectory.text = if p.name = [] then p.text else p.text ++ ['/'] := by
  rw [asDirectory]
  split
  · rename_i hname
    rw [if_pos (List.isEmpty_iff.1 hname)]
  · rename_i hname
    rw [if_neg (mt List.isEmpty_iff.2 hname), text_snoc]

theorem getLast?_text_directory (dirs : List (List Char)) : (text ⟨dirs, []⟩).getLast? = some '/' := by
  rcases List.eq_nil_or_concat' dirs with rfl | ⟨init, d, rfl⟩
  · rfl
  · rw [text_snoc, List.getLast?_concat]

/-- The text of a path ends in a slash exactly if the path has no name. -/
theorem Normal.getLast?_text {p : UrlPath} (h : p.Normal) : p.text.getLast? = some '/' ↔ p.name = [] := by
  obtain ⟨dirs, name⟩ := p
  constructor
  · intro hlast
    by_contra hname
    rw [text_eq_append, List.getLast?_append_of_ne_nil _ hname] at hlast
    exact h.name.slash_not_mem (List.mem_of_getLast? hlast)
  · rintro rfl
    exact getLast?_text_directory dirs

theorem name_asDirectory (p : UrlPath) : p.asDirectory.name = [] := by
  rw [asDirectory]
  split
  · rename_i hname
    exact List.isEmpty_iff.1 hname
  · rfl

/-- Plain segments that are resolved below a directory are put behind it. -/
theorem resolve_of_plain {p : UrlPath} {segments : List (List Char)} (h : ∀ s ∈ segments, Plain s) :
    p.resolve (segments.flatMap (· ++ ['/'])) = ⟨p.dirs ++ segments, []⟩ := by
  have hsplit := splitAt_segments plain_nil.whole segments fun s hs => (h s hs).whole
  rw [List.append_nil] at hsplit
  rw [resolve, hsplit, walk_of_plain plain_nil p.dirs h]

end MetricFanout.UrlPath
