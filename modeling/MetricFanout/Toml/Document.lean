import MetricFanout.Toml.Basic
import MetricFanout.Toml.Text
/-!
# Building a TOML document

A document is a sequence of statements: headers that open a table or append an element to an array
of tables, and pairs that set a key in the table opened last. This module says what a sequence of
statements builds and which statements contradict earlier ones.

## Implementation notes

While a document grows, every table knows where it came from, because that decides who may add to
it: a header opens a table once, and only if nothing but longer headers has mentioned it before;
dotted keys add to tables that dotted keys have made. A table below the present one that only longer
headers have mentioned may be passed through by a dotted key, but not filled by it.
-/

namespace MetricFanout.Toml

/-- Where a table came from. -/
inductive Origin where
  /-- A header names it. -/
  | header
  /-- Only longer headers lead through it. -/
  | implied
  /-- A dotted key leads through it. -/
  | dotted
  deriving DecidableEq, Repr

/-- What stands under a key while the document grows. The elements of an array of tables stand with
the latest first. -/
inductive Item where
  | value (v : Toml)
  | table (origin : Origin) (entries : List (String × Item))
  | elements (latestFirst : List (List (String × Item)))
  deriving Inhabited

/-- The entries of a growing table. -/
abbrev Entries := List (String × Item)

namespace Entries

/-- The item of a key. -/
def get? (es : Entries) (key : String) : Option Item :=
  (es.find? (fun e => e.1 == key)).map Prod.snd

/-- Set the item of a key. -/
def put (es : Entries) (key : String) (item : Item) : Entries :=
  match es with
  | [] => [(key, item)]
  | e :: rest => if e.1 == key then (key, item) :: rest else e :: put rest key item

/-- Change the table at the end of a path. On the way missing tables are made, with the given
origin, and of an array of tables the latest element is entered. Dotted keys do not pass through a
table that has a header. -/
def change (via : Origin) (act : Origin → Entries → Option Entries) :
    (path : List String) → Origin → Entries → Option Entries
  | [], origin, es => act origin es
  | key :: path, _, es =>
      match es.get? key with
      | none => (change via act path via []).map fun inner => es.put key (.table via inner)
      | some (.value _) => none
      | some (.elements []) => none
      | some (.elements (latest :: earlier)) =>
          (change via act path .header latest).map fun inner =>
            es.put key (.elements (inner :: earlier))
      | some (.table origin entries) =>
          if via = .dotted && origin = .header then none
          else
            (change via act path origin entries).map fun inner =>
              es.put key (.table origin inner)

/-- Set a key that is not there yet. -/
def setNew (key : String) (item : Item) (es : Entries) : Option Entries :=
  match es.get? key with
  | none => some (es.put key item)
  | some _ => none

/-- Set a key in a table. A table that the key leads through takes it only from dotted keys. -/
def assign (key : Key) (v : Toml) (es : Entries) : Option Entries :=
  change .dotted (fun origin inner =>
    if key.tables.isEmpty || origin = .dotted then setNew key.name (.value v) inner else none)
    key.tables .header es

/-- Open the table of a header. -/
def openTable (header : Key) (es : Entries) : Option Entries :=
  change .implied (fun _ inner =>
    match inner.get? header.name with
    | none => some (inner.put header.name (.table .header []))
    | some (.table .implied entries) => some (inner.put header.name (.table .header entries))
    | some _ => none) header.tables .header es

/-- Append an element to the array of tables of a header. -/
def openElement (header : Key) (es : Entries) : Option Entries :=
  change .implied (fun _ inner =>
    match inner.get? header.name with
    | none => some (inner.put header.name (.elements [[]]))
    | some (.elements earlier) => some (inner.put header.name (.elements ([] :: earlier)))
    | some _ => none) header.tables .header es

end Entries

mutual
/-- The value that an item has come to. -/
def Item.toToml : Item → Toml
  | .value v => v
  | .table _ es => .table (Item.fields es)
  | .elements latestFirst => .array (Item.arrayOf latestFirst).reverse

/-- The fields that entries have come to. -/
def Item.fields : Entries → List (String × Toml)
  | [] => []
  | (k, i) :: rest => (k, i.toToml) :: Item.fields rest

/-- The tables that elements have come to. -/
def Item.arrayOf : List Entries → List Toml
  | [] => []
  | es :: rest => .table (Item.fields es) :: Item.arrayOf rest
end

/-- A table written in one line, out of its pairs. -/
def inlineTable? (pairs : List (Key × Toml)) : Option Toml :=
  (pairs.foldlM (fun es (k, v) => Entries.assign k v es) []).map fun es => .table (Item.fields es)

/-- A statement of a document. -/
inductive Statement where
  | table (header : Key)
  | element (header : Key)
  | pair (key : Key) (value : Toml)

/-- A growing document: its entries and the path of the table opened last. -/
structure Document where
  entries : Entries := []
  current : List String := []

namespace Document

/-- Add a statement. -/
def add (d : Document) : Statement → Option Document
  | .table h => (d.entries.openTable h).map fun es => ⟨es, h.tables ++ [h.name]⟩
  | .element h => (d.entries.openElement h).map fun es => ⟨es, h.tables ++ [h.name]⟩
  | .pair k v =>
      (d.entries.change .implied (fun _ inner => inner.assign k v) d.current .header).map fun es =>
        { d with entries := es }

/-- The table that a document has come to. -/
def toToml (d : Document) : Toml := .table (Item.fields d.entries)

/-- The document of a sequence of statements. -/
def ofStatements? (statements : List Statement) : Option Document := statements.foldlM add {}

end Document

end MetricFanout.Toml
