/-!
# Request targets

The target of a request: a path with a query, the same behind a scheme and a host, a host alone, or
a star. Only the path and the query matter here; escapes in them are not undone. A fragment is
dropped.

Paths and queries may hold any character beyond ASCII. A host is taken as it stands, but its
brackets, colons and percent signs are checked: a percent sign belongs into credentials or brackets,
and outside of those there is one colon at most.
-/

namespace MetricFanout

/-- Path and query of a request. A host alone has an empty path. -/
structure Uri where
  path : String
  query : Option String
  deriving DecidableEq, Repr

namespace Uri

/-- The largest number of bytes of a request target. -/
def maxLength : Nat := 65534

/-- The largest number of characters of a scheme with a name of its own. -/
def maxScheme : Nat := 64

/-- A character that may stand in a path. -/
def isPathChar (c : Char) : Bool :=
  let n := c.toNat
  n = 0x21 || n = 0x22 || (0x24 ≤ n && n ≤ 0x3B) || n = 0x3D || (0x40 ≤ n && n ≤ 0x5F) ||
    (0x61 ≤ n && n ≤ 0x7E) || 0x7F ≤ n

/-- A character that may stand in a query. -/
def isQueryChar (c : Char) : Bool :=
  let n := c.toNat
  n = 0x21 || (0x24 ≤ n && n ≤ 0x3B) || n = 0x3D || 0x3F ≤ n

/-- A character that ends a path. -/
def endsPath (c : Char) : Bool := c = '?' || c = '#'

/-- The characters up to a fragment. -/
def upToFragment (cs : List Char) : List Char := cs.takeWhile (· ≠ '#')

/-- Path and query of a text that starts with a path; an empty path is the root. -/
def ofPath? (cs : List Char) : Option Uri :=
  let path := cs.takeWhile fun c => !endsPath c
  let path' := if path.isEmpty then "/" else String.ofList path
  if !path.all isPathChar then none
  else
    match cs.dropWhile fun c => !endsPath c with
    | '?' :: rest =>
        let query := upToFragment rest
        if query.all isQueryChar then some ⟨path', some (String.ofList query)⟩ else none
    | _ => some ⟨path', none⟩

/-- What has been seen of a host with its credentials. -/
structure HostScan where
  colons : Nat := 0
  opened : Bool := false
  closed : Bool := false
  escaped : Bool := false
  endsInAt : Bool := false

/-- A character that may stand in a host without further conditions. -/
def isHostChar (c : Char) : Bool :=
  c.isAlphanum || "!$&'()*+,-.;=_~".toList.contains c

/-- The most colons that a host may have in brackets. -/
def maxColons : Nat := 8

/-- The host so far and one more character. -/
def HostScan.next (s : HostScan) (c : Char) : Option HostScan :=
  if c = ':' then
    if maxColons ≤ s.colons then none
    else some { s with colons := s.colons + 1, endsInAt := false }
  else if c = '[' then
    if s.escaped || s.opened then none else some { s with opened := true, endsInAt := false }
  else if c = ']' then
    if !s.opened || s.closed then none
    else some { s with closed := true, colons := 0, escaped := false, endsInAt := false }
  else if c = '@' then some { s with colons := 0, escaped := false, endsInAt := true }
  else if c = '%' then some { s with escaped := true, endsInAt := false }
  else if isHostChar c then some { s with endsInAt := false }
  else none

/-- Whether a host may end here. -/
def HostScan.isComplete (s : HostScan) : Bool :=
  s.opened == s.closed && s.colons ≤ 1 && !s.endsInAt && !s.escaped

/-- A character that ends a host. -/
def endsHost (c : Char) : Bool := c = '/' || c = '?' || c = '#'

/-- The host at the front of a text, and the text behind it. -/
def host? (cs : List Char) : Option (List Char × List Char) :=
  let host := cs.takeWhile fun c => !endsHost c
  match host.foldlM HostScan.next {} with
  | some s => if s.isComplete then some (host, cs.dropWhile fun c => !endsHost c) else none
  | none => none

/-- A character of a scheme. -/
def isSchemeChar (c : Char) : Bool := c.isAlphanum || c = '+' || c = '-' || c = '.'

/-- The text behind a scheme, if there is one. Schemes other than those of the web must not be too
long. -/
def behindScheme (cs : List Char) : Except Unit (Option (List Char)) :=
  let scheme := cs.takeWhile isSchemeChar
  match cs.dropWhile isSchemeChar with
  | ':' :: '/' :: '/' :: rest => if maxScheme < scheme.length then .error () else .ok (some rest)
  | _ => .ok none

/-- Path and query of a request target. -/
def parse (text : String) : Option Uri :=
  let cs := text.toList
  if cs.isEmpty || maxLength < text.utf8ByteSize then none
  else if cs.head? = some '/' then ofPath? cs
  else if cs = ['*'] then some ⟨"*", none⟩
  else
    match behindScheme cs with
    | .error () => none
    | .ok none =>
        match host? cs with
        | some (_, []) => some ⟨"", none⟩
        | _ => none
    | .ok (some rest) =>
        match host? rest with
        | some (_ :: _, rest) => ofPath? rest
        | _ => none

end Uri

end MetricFanout
