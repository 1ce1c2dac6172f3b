import MetricFanout.Url.Host
/-!
# URLs

A URL for the web: scheme, credentials, host, port, path, query and fragment, all in the form in
which they are written. A port that is the scheme's own is not written.

A path is a list of directories and a name at its end, so a path ends in a slash exactly when the
name is empty. Resolving a relative path replaces the name.
-/

namespace MetricFanout

/-- The schemes of the web. -/
inductive Scheme where
  | http
  | https
  deriving DecidableEq, Repr

namespace Scheme

/-- The scheme's name. -/
def name : Scheme → String
  | .http => "http"
  | .https => "https"

/-- The scheme's own port. -/
def port : Scheme → Nat
  | .http => 80
  | .https => 443

end Scheme

/-- An absolute path. -/
structure UrlPath where
  dirs : List (List Char) := []
  name : List Char := []
  deriving DecidableEq, Repr

namespace UrlPath

/-- The path as it is written. -/
def text (p : UrlPath) : List Char := '/' :: (p.dirs.flatMap (· ++ ['/']) ++ p.name)

/-- Characters that are escaped in a path. -/
def mustEscape (c : Char) : Bool :=
  c.toNat ≤ 0x20 || 0x7F ≤ c.toNat || "\"<>`#?\x7b\x7d".toList.contains c

/-- A dot, perhaps escaped. -/
def dots : List Char → Option Nat
  | [] => some 0
  | '.' :: rest => (dots rest).map (· + 1)
  | '%' :: '2' :: 'e' :: rest => (dots rest).map (· + 1)
  | '%' :: '2' :: 'E' :: rest => (dots rest).map (· + 1)
  | _ => none

/-- A letter with a colon or a bar, as drives are named. -/
def isDrive : List Char → Bool
  | [c, d] => c.isAlpha && (d = ':' || d = '|')
  | _ => false

/-- Go up one directory. A directory that is named like a drive is not left, and there is nothing
above the root. -/
def parent (dirs : List (List Char)) : List (List Char) :=
  match dirs.getLast? with
  | none => []
  | some d => if isDrive d then dirs else dirs.dropLast

/-- Go into a directory: one dot stays, two dots go up. -/
def enter (dirs : List (List Char)) (segment : List Char) : List (List Char) :=
  match dots segment with
  | some 1 => dirs
  | some 2 => parent dirs
  | _ => dirs ++ [Percent.encodeWith mustEscape segment]

/-- Read segments from a directory on; the last one is the name unless it consists of dots. -/
def walk : (dirs : List (List Char)) → List (List Char) → UrlPath
  | dirs, [] => ⟨dirs, []⟩
  | dirs, [last] =>
      match dots last with
      | some 1 => ⟨dirs, []⟩
      | some 2 => ⟨parent dirs, []⟩
      | _ => ⟨dirs, Percent.encodeWith mustEscape last⟩
  | dirs, s :: rest => walk (enter dirs s) rest

/-- A slash of either direction. -/
def isSlash (c : Char) : Bool := c = '/' || c = '\\'

/-- The path of a URL, as it stands behind the host. One slash at the front is the root's. -/
def parse (cs : List Char) : UrlPath :=
  match cs with
  | [] => {}
  | c :: rest => walk [] (splitAt isSlash (if isSlash c then rest else c :: rest))

/-- Resolve a relative path: it replaces the name. -/
def resolve (p : UrlPath) (relative : List Char) : UrlPath := walk p.dirs (splitAt isSlash relative)

/-- The path with a slash at its end. -/
def asDirectory (p : UrlPath) : UrlPath := if p.name.isEmpty then p else ⟨p.dirs ++ [p.name], []⟩

end UrlPath

/-- A URL for the web. -/
structure Url where
  scheme : Scheme
  username : List Char
  password : List Char
  host : Host
  port : Option Nat
  path : UrlPath
  query : Option (List Char)
  fragment : Option (List Char)
  deriving DecidableEq, Repr

namespace Url

/-- The name and password in front of the host. -/
def credentials (u : Url) : List Char :=
  if u.username.isEmpty && u.password.isEmpty then []
  else u.username ++ (if u.password.isEmpty then [] else ':' :: u.password) ++ ['@']

/-- The port behind the host. -/
def portText (u : Url) : List Char :=
  match u.port with
  | none => []
  | some p => ':' :: Host.decimal p

/-- A part behind its mark, if it is there. -/
def marked (mark : Char) : Option (List Char) → List Char
  | none => []
  | some cs => mark :: cs

/-- The URL as it is written. -/
def text (u : Url) : List Char :=
  u.scheme.name.toList ++ "://".toList ++ u.credentials ++ u.host.text ++ u.portText ++
    u.path.text ++ marked '?' u.query ++ marked '#' u.fragment

/-- The port that is connected to. -/
def effectivePort (u : Url) : Nat := u.port.getD u.scheme.port

/-- The URL of a path relative to this one; query and fragment do not go along. -/
def resolve (u : Url) (relative : List Char) : Url :=
  { u with path := u.path.resolve relative, query := none, fragment := none }

/-- What is asked of the host: path and query. -/
def target (u : Url) : List Char := u.path.text ++ marked '?' u.query

end Url

end MetricFanout
