import MetricFanout.Proofs.FrontEnd.Params
/-!
# The first value of a parameter counts

A query string may name a parameter several times, and in several spellings. Names are compared when they have
been decoded, and only the first value of each name counts: what is appended to a query string adds names and
changes none, and a request does not depend on the order of different names or on names that it does not have.

Parameters are known by what a look-up finds. A look-up among the parameters of a query string finds what a
look-up in all of its pairs finds, because of each name the first pair is kept.
-/

namespace MetricFanout

/-! ## Pairs -/

namespace Form

variable {pairs : List (String × String)} {name value : String}

/-- The first pair of a name has a value. -/
def First (pairs : List (String × String)) (name value : String) : Prop :=
  ∃ before after, pairs = before ++ (name, value) :: after ∧ ∀ pair ∈ before, pair.1 ≠ name

/-- The names of pairs. -/
def names (pairs : List (String × String)) : List String := pairs.map Prod.fst

theorem first_iff : First pairs name value ↔ pairs.lookup name = some value := by
  have hother : ∀ pair : String × String, (name != pair.1) = true ↔ pair.1 ≠ name := by
    intro pair
    rw [bne_iff_ne, ne_comm]
  simp only [First, List.lookup_eq_some_iff, hother]

theorem not_mem_names_iff : name ∉ names pairs ↔ pairs.lookup name = none := by
  rw [List.lookup_eq_none_iff, names, List.mem_map]
  constructor
  · intro h pair hpair
    exact bne_iff_ne.2 fun hname => h ⟨pair, hpair, hname.symm⟩
  · rintro h ⟨pair, hpair, rfl⟩
    exact bne_iff_ne.1 (h pair hpair) rfl

/-- Of two rows of pairs the second one matters for names that are not in the first one. -/
theorem first_append {others : List (String × String)} :
    First (pairs ++ others) name value ↔ First pairs name value ∨ name ∉ names pairs ∧ First others name value := by
  rw [first_iff, first_iff, first_iff, not_mem_names_iff, List.lookup_append]
  cases pairs.lookup name with
  | none => simp
  | some found => simp

/-- Where names do not repeat, each pair is the first one of its name. -/
theorem mem_iff_first (h : (names pairs).Nodup) : (name, value) ∈ pairs ↔ First pairs name value := by
  constructor
  · intro hmem
    obtain ⟨before, after, rfl⟩ := List.append_of_mem hmem
    rw [names, List.map_append, List.nodup_append] at h
    refine ⟨before, after, rfl, fun pair hpair hname => ?_⟩
    exact h.2.2 _ (List.mem_map_of_mem hpair) _ List.mem_cons_self hname
  · rintro ⟨before, after, rfl, _⟩
    exact List.mem_append_right _ List.mem_cons_self

/-- A choice of names does not change what is found under those that are chosen. -/
theorem lookup_filter (pairs : List (String × String)) (chosen : String → Bool) (name : String) :
    (pairs.filter fun pair => chosen pair.1).lookup name =
      if chosen name = true then pairs.lookup name else none := by
  induction pairs with
  | nil => rw [List.filter_nil, List.lookup_nil, ite_self]
  | cons pair rest ih =>
      rw [List.filter_cons]
      by_cases hname : name = pair.1
      · subst hname
        split
        · rw [List.lookup_cons_self, List.lookup_cons_self]
        · rename_i hleft
          rw [ih, if_neg hleft]
      · have hskip : ∀ l : List (String × String), (pair :: l).lookup name = l.lookup name := by
          intro l
          rw [List.lookup_cons, beq_false_of_ne hname]
        rw [hskip]
        split
        · rw [hskip, ih]
        · exact ih

end Form

/-! ## Parameters -/

namespace Params

open Form

/-- The pairs of a query string, or of a request without one. -/
def pairs (query : Option String) : List (String × String) := decode (query.getD "")

theorem get_eq (p : Params) (name : String) : p.get name = (p.values.lookup name).getD "" := by
  have hfind : ∀ values : List (String × String),
      (values.find? fun v => v.1 == name).map Prod.snd = values.lookup name := by
    intro values
    induction values with
    | nil => rfl
    | cons v rest ih =>
        rw [List.find?_cons, List.lookup_cons, BEq.comm]
        cases name == v.1 with
        | true => rfl
        | false => exact ih
  rw [get, hfind]

/-- One more pair counts if its name is new. -/
theorem lookup_insert (p : Params) (pair : String × String) (name : String) :
    (p.insert pair).values.lookup name = (p.values ++ [pair]).lookup name := by
  rw [insert]
  split
  · -- A name that is there already is found where it was, and the new pair behind it is not reached.
    rename_i hold
    obtain ⟨v, hv, hname⟩ := List.any_eq_true.1 hold
    have hmem : pair.1 ∈ names p.values := by
      rw [← beq_iff_eq.1 hname]
      exact List.mem_map_of_mem hv
    rw [List.lookup_append]
    by_cases hsame : name = pair.1
    · subst hsame
      cases hfound : p.values.lookup pair.1 with
      | none => exact absurd hmem (not_mem_names_iff.2 hfound)
      | some value => rfl
    · rw [List.lookup_cons, beq_false_of_ne hsame, List.lookup_nil, Option.or_none]
  · rfl

/-- Of all pairs that are inserted, the first one of each name is found. -/
theorem lookup_foldl_insert (p : Params) (pairs : List (String × String)) (name : String) :
    (pairs.foldl insert p).values.lookup name = (p.values ++ pairs).lookup name := by
  induction pairs generalizing p with
  | nil => rw [List.append_nil]; rfl
  | cons pair rest ih =>
      calc (rest.foldl insert (p.insert pair)).values.lookup name
          = ((p.insert pair).values.lookup name).or (rest.lookup name) := by rw [ih, List.lookup_append]
        _ = ((p.values ++ [pair]).lookup name).or (rest.lookup name) := by rw [lookup_insert]
        _ = (p.values ++ pair :: rest).lookup name := by rw [← List.lookup_append, List.append_assoc]; rfl

theorem lookup_parse (query : Option String) (name : String) :
    (parse query).values.lookup name = (pairs query).lookup name :=
  lookup_foldl_insert {} (pairs query) name

theorem nodup_insert {p : Params} (h : (names p.values).Nodup) (pair : String × String) :
    (names (p.insert pair).values).Nodup := by
  rw [insert]
  split
  · exact h
  · rename_i hnew
    rw [names, List.map_append]
    refine List.nodup_append.2 ⟨h, List.pairwise_singleton _ _, fun name hname other hother hsame => hnew ?_⟩
    obtain ⟨v, hv, rfl⟩ := List.mem_map.1 hname
    refine List.any_eq_true.2 ⟨v, hv, beq_iff_eq.2 ?_⟩
    rw [hsame]
    exact List.mem_singleton.1 hother

theorem nodup_parse (query : Option String) : (names (parse query).values).Nodup := by
  have hall : ∀ (pairs : List (String × String)) (p : Params), (names p.values).Nodup →
      (names (pairs.foldl insert p).values).Nodup := by
    intro pairs
    induction pairs with
    | nil => exact fun p h => h
    | cons pair rest ih => exact fun p h => ih _ (nodup_insert h pair)
  exact hall (pairs query) {} List.nodup_nil

/-- The parameters of a query string are the first pairs of all names. -/
theorem mem_parse_iff (query : Option String) (name value : String) :
    (name, value) ∈ (parse query).values ↔ First (pairs query) name value := by
  rw [mem_iff_first (nodup_parse query), first_iff, first_iff, lookup_parse]

/-! ## Taking -/

/-- What is left when names have been taken, one after the other. -/
def without (p : Params) (taken : List String) : Params := taken.foldl (fun p name => (p.take name).2) p

theorem lookup_take (p : Params) (name other : String) :
    (p.take name).2.values.lookup other = if other ≠ name then p.values.lookup other else none := by
  rw [take, lookup_filter p.values (fun key => key != name) other]
  simp only [bne_iff_ne]

theorem lookup_without (p : Params) (taken : List String) (name : String) :
    (p.without taken).values.lookup name = if name ∈ taken then none else p.values.lookup name := by
  induction taken generalizing p with
  | nil => rfl
  | cons first rest ih =>
      rw [without, List.foldl_cons, ← without, ih, lookup_take]
      by_cases hfirst : name = first
      · simp [hfirst]
      · simp [hfirst]

/-- Where no name is taken twice, all of them are found. -/
theorem takeAll_eq (p : Params) {names : List String} (h : names.Nodup) :
    p.takeAll names = names.map p.get := by
  induction names generalizing p with
  | nil => rfl
  | cons name rest ih =>
      obtain ⟨hnew, hrest⟩ := List.nodup_cons.1 h
      have hkept : ∀ other ∈ rest, (p.take name).2.get other = p.get other := by
        intro other hother
        have hne : other ≠ name := fun hsame => hnew (hsame ▸ hother)
        rw [get_eq, get_eq, lookup_take, if_pos hne]
      rw [takeAll, ih _ hrest, List.map_congr_left hkept]
      rfl

/-! ## Requests -/

/-- What a request reads from its parameters are the texts of some names, and of each of these names it is the
first value of the query string that matters: neither the order of different names nor other names do. -/
structure ReadsFirst {β : Type} (wanted : List String) (read : Params → β) (texts : β → List String) : Prop where
  takes : ∀ p, texts (read p) = p.takeAll wanted
  firsts : ∀ query other, (∀ name ∈ wanted, ∀ value,
    First (pairs query) name value ↔ First (pairs other) name value) → read (parse query) = read (parse other)
  order : ∀ query other, (∀ name, (pairs query).filter (fun pair => pair.1 = name) =
    (pairs other).filter fun pair => pair.1 = name) → read (parse query) = read (parse other)
  others : ∀ query other, (pairs query).filter (fun pair => pair.1 ∈ wanted) =
    (pairs other).filter (fun pair => pair.1 ∈ wanted) → read (parse query) = read (parse other)

/-- Texts that are taken and that make up the request are first values. -/
theorem readsFirst_of_takes {β : Type} {wanted : List String} {read : Params → β} {texts : β → List String}
    (hwanted : wanted.Nodup) (htexts : ∀ x y, texts x = texts y → x = y)
    (htakes : ∀ p, texts (read p) = p.takeAll wanted) : ReadsFirst wanted read texts := by
  have hlookup : ∀ query other, (∀ name ∈ wanted, (pairs query).lookup name = (pairs other).lookup name) →
      read (parse query) = read (parse other) := by
    intro query other h
    apply htexts
    rw [htakes, htakes, takeAll_eq _ hwanted, takeAll_eq _ hwanted]
    refine List.map_congr_left fun name hname => ?_
    rw [get_eq, get_eq, lookup_parse, lookup_parse, h name hname]
  constructor
  case takes => exact htakes
  case firsts =>
    intro query other h
    apply hlookup
    intro name hname
    ext value
    rw [← first_iff, ← first_iff]
    exact h name hname value
  case order =>
    intro query other h
    apply hlookup
    intro name _
    have hself : ∀ pairs : List (String × String),
        (pairs.filter fun pair => pair.1 = name).lookup name = pairs.lookup name := fun pairs =>
      (lookup_filter pairs (fun key => key = name) name).trans (if_pos (decide_eq_true rfl))
    rw [← hself, h name, hself]
  case others =>
    intro query other h
    apply hlookup
    intro name hname
    have hchosen : ∀ pairs : List (String × String),
        (pairs.filter fun pair => pair.1 ∈ wanted).lookup name = pairs.lookup name := fun pairs =>
      (lookup_filter pairs (fun key => key ∈ wanted) name).trans (if_pos (decide_eq_true hname))
    rw [← hchosen, h, hchosen]

end Params

/-- The texts of a find. -/
def FindParams.texts (p : FindParams) : List String := [p.query, p.format]

/-- The texts of a render. -/
def RenderParams.texts (p : RenderParams) : List String := [p.target, p.since, p.upTo, p.format]

/-- The texts of an info. -/
def InfoParams.texts (p : InfoParams) : List String := [p.target, p.format]

theorem FindParams.readsFirst : Params.ReadsFirst ["query", "format"] ofParams texts := by
  have hnames : ["query", "format"].Nodup := by decide
  apply Params.readsFirst_of_takes hnames ?_ fun p => (p.takeAll_eq hnames).symm
  rintro ⟨query, format⟩ ⟨query', format'⟩ h
  cases h
  rfl

theorem RenderParams.readsFirst : Params.ReadsFirst ["target", "from", "until", "format"] ofParams texts := by
  have hnames : ["target", "from", "until", "format"].Nodup := by decide
  apply Params.readsFirst_of_takes hnames ?_ fun p => (p.takeAll_eq hnames).symm
  rintro ⟨target, since, upTo, format⟩ ⟨target', since', upTo', format'⟩ h
  cases h
  rfl

theorem InfoParams.readsFirst : Params.ReadsFirst ["target", "format"] ofParams texts := by
  have hnames : ["target", "format"].Nodup := by decide
  apply Params.readsFirst_of_takes hnames ?_ fun p => (p.takeAll_eq hnames).symm
  rintro ⟨target, format⟩ ⟨target', format'⟩ h
  cases h
  rfl

namespace Params

open Form

/-- Taking a name out of parameters from which others may have been taken: its first value comes out, or nothing
if it was not there or has been taken, and all other names stay. -/
structure TakesOut (query : Option String) (taken : List String) (name : String) : Prop where
  value : ∀ value, First (pairs query) name value → name ∉ taken →
    (((parse query).without taken).take name).1 = value
  empty : name ∉ names (pairs query) ∨ name ∈ taken → (((parse query).without taken).take name).1 = ""
  rest : ∀ other value, (other, value) ∈ (((parse query).without taken).take name).2.values ↔
    other ≠ name ∧ (other, value) ∈ ((parse query).without taken).values

theorem takesOut (query : Option String) (taken : List String) (name : String) : TakesOut query taken name := by
  have htaken : (((parse query).without taken).take name).1 =
      (if name ∈ taken then none else (pairs query).lookup name).getD "" := by
    rw [take, get_eq, lookup_without, lookup_parse]
  constructor
  case value =>
    intro value hfirst hleft
    rw [htaken, if_neg hleft, first_iff.1 hfirst]
    rfl
  case empty =>
    rintro (hmissing | hgone)
    · rw [htaken, not_mem_names_iff.1 hmissing, ite_self]
      rfl
    · rw [htaken, if_pos hgone]
      rfl
  case rest =>
    intro other value
    rw [take, List.mem_filter, bne_iff_ne, and_comm]

/-- The first value of a name counts, in every query string. If something is appended to a query string, then each
of its names keeps its first value, and new names get theirs; a name is there once, and nothing else is. Taking a
name gives that value once, and the parameters of finds, renders and infos depend on nothing but the first values of
their own names. -/
theorem first_value_counts :
    (∀ (front rest : String) (name value : String),
      (name, value) ∈ (parse (some (front ++ "&" ++ rest))).values ↔
        First (decode front) name value ∨
          name ∉ names (decode front) ∧ First (decode rest) name value) ∧
      (∀ query, (names (parse query).values).Nodup) ∧
      (∀ query taken name, TakesOut query taken name) ∧
      ReadsFirst ["query", "format"] FindParams.ofParams FindParams.texts ∧
      ReadsFirst ["target", "from", "until", "format"] RenderParams.ofParams RenderParams.texts ∧
      ReadsFirst ["target", "format"] InfoParams.ofParams InfoParams.texts := by
  refine ⟨fun front rest name value => ?_, nodup_parse, takesOut, FindParams.readsFirst,
    RenderParams.readsFirst, InfoParams.readsFirst⟩
  have hpairs : pairs (some (front ++ "&" ++ rest)) = decode front ++ decode rest := decode_append front rest
  rw [mem_parse_iff, hpairs, first_append]

/-- A name that is repeated in another spelling, and one that is appended. -/
theorem first_value_counts_spellings :
    ("target", "a.b") ∈ (parse (some ("target=a.b&%74arget=c.d" ++ "&" ++ "target=e.f&from=10"))).values ∧
      ("from", "10") ∈ (parse (some ("target=a.b&%74arget=c.d" ++ "&" ++ "target=e.f&from=10"))).values := by
  have hfront : decode "target=a.b&%74arget=c.d" = [("target", "a.b"), ("target", "c.d")] := by decide +kernel
  have hrest : decode "target=e.f&from=10" = [("target", "e.f"), ("from", "10")] := by decide +kernel
  constructor
  · refine (first_value_counts.1 _ _ _ _).2 (.inl ?_)
    exact ⟨[], [("target", "c.d")], hfront, fun _ hpair => absurd hpair List.not_mem_nil⟩
  · refine (first_value_counts.1 _ _ _ _).2 (.inr ⟨?_, ?_⟩)
    · rw [hfront]
      decide
    · exact ⟨[("target", "e.f")], [], hrest, by decide⟩

end Params

end MetricFanout
