import MetricFanout.Toml.Reader
/-!
# Integers of a TOML document fit into 64 bits

The reader of numbers refuses integers that need more than 64 bits with a sign. Nothing that is built out of
values, be it an array, an inline table, or a whole document of headers and dotted keys, has other integers
than those that have been read.

The entries of a growing document are judged by the value that they have come to so far, so the invariant of
the document is that of its value.
-/

namespace MetricFanout.Toml

mutual
/-- Every integer of a value fits into 64 bits. -/
def Fits : Toml → Prop
  | .int i => Int64.minValue.toInt ≤ i ∧ i ≤ Int64.maxValue.toInt
  | .array items => AllFit items
  | .table fields => FieldsFit fields
  | _ => True

/-- Every integer of the items fits. -/
def AllFit : List Toml → Prop
  | [] => True
  | v :: rest => v.Fits ∧ AllFit rest

/-- Every integer of the fields fits. -/
def FieldsFit : List (String × Toml) → Prop
  | [] => True
  | (_, v) :: rest => v.Fits ∧ FieldsFit rest
end

theorem fits_array {items : List Toml} : (array items).Fits ↔ ∀ v ∈ items, v.Fits := by
  rw [Fits]
  induction items with
  | nil => simp [AllFit]
  | cons v rest ih => simp [AllFit, ih]

theorem fits_table {fields : List (String × Toml)} : (table fields).Fits ↔ ∀ f ∈ fields, f.2.Fits := by
  rw [Fits]
  induction fields with
  | nil => simp [FieldsFit]
  | cons f rest ih => simp [FieldsFit, ih]

/-! ## Numbers -/

section Numbers

variable {cs rest : List Char} {v : Toml}

theorem fits_of_inRange {i : Int} (h : inRange i = some v) : v.Fits := by
  unfold inRange at h
  split at h
  · rename_i hrange
    cases h
    exact hrange
  · cases h

theorem fits_of_floatOf {negative : Bool} {whole fraction : List Nat} {exponent : Int}
    (h : floatOf negative whole fraction exponent = some v) : v.Fits := by
  unfold floatOf at h
  dsimp only at h
  split at h
  · cases h
  · cases h
    trivial

theorem fits_of_special? {negative : Bool} (h : special? negative cs = some (v, rest)) : v.Fits := by
  unfold special? at h
  split at h <;> cases h <;> trivial

theorem fits_of_decimal? {negative : Bool} (h : decimal? negative cs = some (v, rest)) : v.Fits := by
  simp only [decimal?, Option.bind_eq_bind, Option.bind_eq_some_iff] at h
  obtain ⟨_, _, _, _, _, _, h⟩ := h
  split at h
  · obtain ⟨value, hvalue, heq⟩ := Option.bind_eq_some_iff.1 h
    cases heq
    exact fits_of_inRange hvalue
  · obtain ⟨value, hvalue, heq⟩ := Option.bind_eq_some_iff.1 h
    cases heq
    exact fits_of_floatOf hvalue

theorem fits_of_based? {base : Nat} (h : based? base cs = some (v, rest)) : v.Fits := by
  simp only [based?, Option.bind_eq_bind, Option.bind_eq_some_iff] at h
  obtain ⟨_, _, value, hvalue, heq⟩ := h
  cases heq
  exact fits_of_inRange hvalue

theorem fits_of_number? (h : number? cs = some (v, rest)) : v.Fits := by
  unfold number? at h
  split at h
  · exact fits_of_based? h
  · exact fits_of_based? h
  · exact fits_of_based? h
  · dsimp only at h
    split at h
    · rename_i hspecial
      rw [Option.some.injEq] at h
      exact fits_of_special? (h ▸ hspecial)
    · exact fits_of_decimal? h

theorem fits_of_scalar? (h : scalar? cs = some (v, rest)) : v.Fits := by
  unfold scalar? at h
  split at h
  · obtain ⟨_, _, heq⟩ := Option.map_eq_some_iff.1 h
    cases heq
    trivial
  · obtain ⟨_, _, heq⟩ := Option.map_eq_some_iff.1 h
    cases heq
    trivial
  · cases h
    trivial
  · cases h
    trivial
  · split at h
    · cases h
      trivial
    · exact fits_of_number? h

end Numbers

/-! ## Growing documents -/

theorem Item.mem_fields {es : Entries} {f : String × Toml} :
    f ∈ Item.fields es ↔ ∃ e ∈ es, (e.1, e.2.toToml) = f := by
  induction es with
  | nil => simp [Item.fields]
  | cons e rest ih => simp [Item.fields, ih, eq_comm]

theorem Item.mem_arrayOf {elements : List Entries} {v : Toml} :
    v ∈ Item.arrayOf elements ↔ ∃ es ∈ elements, Toml.table (Item.fields es) = v := by
  induction elements with
  | nil => simp [Item.arrayOf]
  | cons es rest ih => simp [Item.arrayOf, ih, eq_comm]

namespace Entries

/-- Every integer below the entries fits. -/
def Fit (es : Entries) : Prop := ∀ e ∈ es, e.2.toToml.Fits

theorem fits_fields {es : Entries} : (table (Item.fields es)).Fits ↔ es.Fit := by
  rw [fits_table]
  constructor
  · exact fun h e he => h _ (Item.mem_fields.2 ⟨e, he, rfl⟩)
  · intro h f hf
    obtain ⟨e, he, rfl⟩ := Item.mem_fields.1 hf
    exact h e he

theorem fits_item_table {origin : Origin} {es : Entries} : (Item.table origin es).toToml.Fits ↔ es.Fit := by
  rw [Item.toToml, fits_fields]

theorem fits_item_elements {elements : List Entries} :
    (Item.elements elements).toToml.Fits ↔ ∀ es ∈ elements, es.Fit := by
  rw [Item.toToml, fits_array]
  constructor
  · exact fun h es hes => fits_fields.1 (h _ (List.mem_reverse.2 (Item.mem_arrayOf.2 ⟨es, hes, rfl⟩)))
  · intro h v hv
    obtain ⟨es, hes, rfl⟩ := Item.mem_arrayOf.1 (List.mem_reverse.1 hv)
    exact fits_fields.2 (h es hes)

variable {es es' : Entries} {key : String} {item : Item}

theorem fit_nil : Fit [] := fun _ he => absurd he List.not_mem_nil

theorem Fit.get? (h : es.Fit) (hitem : es.get? key = some item) : item.toToml.Fits := by
  obtain ⟨e, he, rfl⟩ := Option.map_eq_some_iff.1 hitem
  exact h e (List.mem_of_find?_eq_some he)

theorem Fit.put (h : es.Fit) (hitem : item.toToml.Fits) : (es.put key item).Fit := by
  induction es with
  | nil =>
      intro e he
      obtain rfl := List.mem_singleton.1 he
      exact hitem
  | cons e rest ih =>
      have hrest : Fit rest := fun e he => h e (List.mem_cons_of_mem _ he)
      rw [Entries.put]
      split
      · exact fun f hf => (List.mem_cons.1 hf).elim (fun heq => heq ▸ hitem) fun hf => hrest f hf
      · exact fun f hf => (List.mem_cons.1 hf).elim (fun heq => heq ▸ h e List.mem_cons_self)
          fun hf => ih hrest f hf

/-- A change at the end of a path keeps what the change itself keeps. -/
theorem Fit.change {via : Origin} {act : Origin → Entries → Option Entries}
    (hact : ∀ {origin inner inner'}, Fit inner → act origin inner = some inner' → Fit inner') :
    ∀ {path : List String} {origin : Origin} {es es' : Entries}, es.Fit →
      es.change via act path origin = some es' → es'.Fit
  | [], origin, es, es', h, hchange => hact h hchange
  | key :: path, origin, es, es', h, hchange => by
      unfold Entries.change at hchange
      split at hchange
      · obtain ⟨inner, hinner, rfl⟩ := Option.map_eq_some_iff.1 hchange
        exact h.put (fits_item_table.2 (Fit.change hact fit_nil hinner))
      · cases hchange
      · cases hchange
      · rename_i latest earlier hget
        obtain ⟨inner, hinner, rfl⟩ := Option.map_eq_some_iff.1 hchange
        obtain ⟨hlatest, hearlier⟩ := List.forall_mem_cons.1 (fits_item_elements.1 (h.get? hget))
        exact h.put (fits_item_elements.2
          (List.forall_mem_cons.2 ⟨Fit.change hact hlatest hinner, hearlier⟩))
      · rename_i origin' entries hget
        split at hchange
        · cases hchange
        · obtain ⟨inner, hinner, rfl⟩ := Option.map_eq_some_iff.1 hchange
          exact h.put (fits_item_table.2 (Fit.change hact (fits_item_table.1 (h.get? hget)) hinner))

theorem Fit.setNew (h : es.Fit) (hitem : item.toToml.Fits) (hset : es.setNew key item = some es') :
    es'.Fit := by
  unfold Entries.setNew at hset
  split at hset
  · cases hset
    exact h.put hitem
  · cases hset

theorem Fit.assign {key : Key} {v : Toml} (h : es.Fit) (hv : v.Fits) (hassign : es.assign key v = some es') :
    es'.Fit := by
  refine Fit.change (fun hinner hact => ?_) h hassign
  split at hact
  · exact hinner.setNew (by rwa [Item.toToml]) hact
  · cases hact

theorem Fit.openTable {header : Key} (h : es.Fit) (hopen : es.openTable header = some es') : es'.Fit := by
  refine Fit.change (fun hinner hact => ?_) h hopen
  split at hact
  · cases hact
    exact hinner.put (fits_item_table.2 fit_nil)
  · rename_i entries hget
    cases hact
    exact hinner.put (fits_item_table.2 (fits_item_table.1 (hinner.get? hget)))
  · cases hact

theorem Fit.openElement {header : Key} (h : es.Fit) (hopen : es.openElement header = some es') : es'.Fit := by
  refine Fit.change (fun hinner hact => ?_) h hopen
  split at hact
  · cases hact
    exact hinner.put (fits_item_elements.2 (List.forall_mem_singleton.2 fit_nil))
  · rename_i earlier hget
    cases hact
    exact hinner.put (fits_item_elements.2
      (List.forall_mem_cons.2 ⟨fit_nil, fits_item_elements.1 (hinner.get? hget)⟩))
  · cases hact

end Entries

/-- Pairs whose values fit make an inline table that fits. -/
theorem fits_of_inlineTable? {pairs : List (Key × Toml)} {v : Toml} (hpairs : ∀ p ∈ pairs, p.2.Fits)
    (h : inlineTable? pairs = some v) : v.Fits := by
  obtain ⟨es, hes, rfl⟩ := Option.map_eq_some_iff.1 h
  rw [Entries.fits_fields]
  have hstart := Entries.fit_nil
  generalize ([] : Entries) = start at hes hstart
  clear h
  induction pairs generalizing start with
  | nil =>
      cases hes
      exact hstart
  | cons p rest ih =>
      obtain ⟨hp, hrest⟩ := List.forall_mem_cons.1 hpairs
      rw [List.foldlM_cons] at hes
      obtain ⟨next, hnext, hes⟩ := Option.bind_eq_some_iff.1 hes
      exact ih hrest next hes (hstart.assign hp hnext)

/-! ## Values -/

/-- A reader whose values fit. -/
def Bounded (value : Reader Toml) : Prop := ∀ {cs rest v}, value cs = some (v, rest) → v.Fits

theorem Bounded.arrayItems? {value : Reader Toml} (hvalue : Bounded value) {cs rest : List Char}
    {vs : List Toml} (h : arrayItems? value cs = some (vs, rest)) : ∀ v ∈ vs, v.Fits := by
  unfold Toml.arrayItems? at h
  split at h
  · cases h
  · cases h
    exact List.forall_mem_nil _
  · split at h
    · cases h
    · rename_i v behind hv
      split at h
      · cases h
        exact List.forall_mem_singleton.2 (hvalue hv)
      · split at h
        · obtain ⟨⟨more, r⟩, hmore, heq⟩ := Option.map_eq_some_iff.1 h
          cases heq
          exact List.forall_mem_cons.2 ⟨hvalue hv, hvalue.arrayItems? hmore⟩
        · cases h
      · cases h
termination_by cs.length

theorem Bounded.pair? {value : Reader Toml} (hvalue : Bounded value) {cs rest : List Char} {p : Key × Toml}
    (h : pair? value cs = some (p, rest)) : p.2.Fits := by
  unfold Toml.pair? at h
  split at h
  · obtain ⟨_, hv, heq⟩ := Option.map_eq_some_iff.1 h
    cases heq
    exact hvalue hv
  · cases h

theorem Bounded.inlinePairs? {value : Reader Toml} (hvalue : Bounded value) {cs rest : List Char}
    {pairs : List (Key × Toml)} (h : inlinePairs? value cs = some (pairs, rest)) : ∀ p ∈ pairs, p.2.Fits := by
  unfold Toml.inlinePairs? at h
  split at h
  · cases h
  · rename_i p behind hp
    split at h
    · cases h
      exact List.forall_mem_singleton.2 (hvalue.pair? hp)
    · split at h
      · obtain ⟨⟨more, r⟩, hmore, heq⟩ := Option.map_eq_some_iff.1 h
        cases heq
        exact List.forall_mem_cons.2 ⟨hvalue.pair? hp, hvalue.inlinePairs? hmore⟩
      · cases h
    · cases h
termination_by cs.length

theorem Bounded.inlineBody? {value : Reader Toml} (hvalue : Bounded value) : Bounded (inlineBody? value) := by
  intro cs rest v h
  unfold Toml.inlineBody? at h
  split at h
  · cases h
    exact fits_table.2 (List.forall_mem_nil _)
  · split at h
    · cases h
    · rename_i hpairs
      obtain ⟨_, ht, heq⟩ := Option.map_eq_some_iff.1 h
      cases heq
      exact fits_of_inlineTable? (hvalue.inlinePairs? hpairs) ht

theorem bounded_value? (depth : Nat) : Bounded (value? depth) := by
  induction depth with
  | zero => exact fits_of_scalar?
  | succ depth ih =>
      intro cs rest v h
      unfold value? at h
      split at h
      · obtain ⟨⟨vs, _⟩, hvs, heq⟩ := Option.map_eq_some_iff.1 h
        cases heq
        exact fits_array.2 (Bounded.arrayItems? ih hvs)
      · exact Bounded.inlineBody? ih h
      · exact fits_of_scalar? h

/-! ## Documents -/

/-- The value of a statement fits, if it has one. -/
def Statement.Fits : Statement → Prop
  | .pair _ v => v.Fits
  | _ => True

theorem fits_of_statement? {cs rest : List Char} {s : Statement} (h : statement? cs = some (s, rest)) :
    s.Fits := by
  simp only [statement?, Option.bind_eq_bind] at h
  split at h
  · obtain ⟨_, hs, h⟩ := Option.bind_eq_some_iff.1 h
    obtain ⟨_, _, rfl⟩ := Option.map_eq_some_iff.1 hs
    obtain ⟨_, _, heq⟩ := Option.bind_eq_some_iff.1 h
    cases heq
    trivial
  · obtain ⟨_, hs, h⟩ := Option.bind_eq_some_iff.1 h
    obtain ⟨_, _, rfl⟩ := Option.map_eq_some_iff.1 hs
    obtain ⟨_, _, heq⟩ := Option.bind_eq_some_iff.1 h
    cases heq
    trivial
  · obtain ⟨_, hs, h⟩ := Option.bind_eq_some_iff.1 h
    obtain ⟨_, hp, rfl⟩ := Option.map_eq_some_iff.1 hs
    obtain ⟨_, _, heq⟩ := Option.bind_eq_some_iff.1 h
    cases heq
    exact Bounded.pair? (bounded_value? maxDepth) hp

theorem fits_of_statements? {cs : List Char} {statements : List Statement}
    (h : statements? cs = some statements) : ∀ s ∈ statements, s.Fits := by
  unfold statements? at h
  split at h
  · cases h
  · cases h
    exact List.forall_mem_nil _
  · split at h
    · cases h
    · rename_i hs
      split at h
      · obtain ⟨more, hmore, rfl⟩ := Option.map_eq_some_iff.1 h
        exact List.forall_mem_cons.2 ⟨fits_of_statement? hs, fits_of_statements? hmore⟩
      · cases h
termination_by cs.length

/-- A statement that fits keeps a document that fits. -/
theorem Document.fit_add {d d' : Document} {s : Statement} (hd : d.entries.Fit) (hs : s.Fits)
    (h : d.add s = some d') : d'.entries.Fit := by
  cases s with
  | table header =>
      obtain ⟨_, hopen, rfl⟩ := Option.map_eq_some_iff.1 h
      exact hd.openTable hopen
  | element header =>
      obtain ⟨_, hopen, rfl⟩ := Option.map_eq_some_iff.1 h
      exact hd.openElement hopen
  | pair key v =>
      obtain ⟨_, hchange, rfl⟩ := Option.map_eq_some_iff.1 h
      exact Entries.Fit.change (fun hinner hassign => hinner.assign hs hassign) hd hchange

/-- A document of statements that fit. -/
theorem Document.fit_foldlM {statements : List Statement} (hs : ∀ s ∈ statements, s.Fits) {start d : Document}
    (hstart : start.entries.Fit) (h : statements.foldlM Document.add start = some d) : d.entries.Fit := by
  induction statements generalizing start with
  | nil =>
      cases h
      exact hstart
  | cons s rest ih =>
      obtain ⟨hhead, hrest⟩ := List.forall_mem_cons.1 hs
      rw [List.foldlM_cons] at h
      obtain ⟨next, hnext, h⟩ := Option.bind_eq_some_iff.1 h
      exact ih hrest (Document.fit_add hstart hhead hnext) h

/-- Every integer of a document fits into 64 bits. -/
theorem fits_of_parse {text : String} {v : Toml} (h : parse text = some v) : v.Fits := by
  unfold parse at h
  split at h
  · cases h
  · rename_i statements hstatements
    obtain ⟨d, hd, rfl⟩ := Option.map_eq_some_iff.1 h
    exact Entries.fits_fields.2
      (Document.fit_foldlM (fits_of_statements? hstatements) Entries.fit_nil hd)

end MetricFanout.Toml
