import MetricFanout.Url.Basic
/-!
# Reading URLs

A text is a URL if it starts with a scheme. URLs for the web are taken apart and brought to their
written form; URLs of other schemes are only checked.

Blanks and controls at both ends are ignored, and so are tabs and line ends anywhere. Slashes of
either direction and in any number lead to the host of a web URL.
-/

namespace MetricFanout.Url

/-- A URL that was read. -/
inductive Reading where
  /-- A URL for the web. -/
  | web (u : Url)
  /-- A URL of another scheme. -/
  | other (scheme : String)
  deriving DecidableEq, Repr

/-- Kinds of schemes, by the way in which a host is written. -/
inductive Kind where
  | web (s : Scheme)
  /-- Like the web, but not of it. -/
  | special
  | file
  | opaqueHost
  deriving DecidableEq

/-- The kind of a scheme. -/
def kindOf (scheme : String) : Kind :=
  if scheme = "http" then .web .http
  else if scheme = "https" then .web .https
  else if scheme = "ws" || scheme = "wss" || scheme = "ftp" then .special
  else if scheme = "file" then .file
  else .opaqueHost

/-- Blanks and controls. -/
def isBlankOrControl (c : Char) : Bool := c.toNat ≤ 0x20

/-- The text without blanks and controls at its ends and without tabs and line ends. -/
def cleaned (cs : List Char) : List Char :=
  let cs := cs.dropWhile isBlankOrControl
  let cs := (cs.reverse.dropWhile isBlankOrControl).reverse
  cs.filter fun c => c ≠ '\t' && c ≠ '\n' && c ≠ '\r'

/-- Characters of a scheme behind its first letter. -/
def isSchemeChar (c : Char) : Bool := c.isAlphanum || c = '+' || c = '-' || c = '.'

/-- The scheme, in lower case, and what follows its colon. -/
def splitScheme (cs : List Char) : Option (String × List Char) :=
  match cs with
  | [] => none
  | c :: _ =>
      if c.isAlpha then
        match cs.dropWhile isSchemeChar with
        | ':' :: rest => some (String.ofList ((cs.takeWhile isSchemeChar).map Char.toLower), rest)
        | _ => none
      else none

/-- The end of the authority: a slash, or the start of a query or a fragment. A backslash counts as
a slash where `backslash` says so. -/
def endsAuthority (backslash : Bool) (c : Char) : Bool :=
  c = '/' || c = '?' || c = '#' || (backslash && c = '\\')

/-- Split off the credentials at the last at sign. -/
def splitCredentials (authority : List Char) : Option (List Char) × List Char :=
  let host := (authority.reverse.takeWhile (· ≠ '@')).reverse
  if host.length = authority.length then (none, authority)
  else (some (authority.take (authority.length - host.length - 1)), host)

/-- Characters that are escaped in credentials. -/
def credentialEscape (c : Char) : Bool :=
  UrlPath.mustEscape c || "/:;=@[\\]^|".toList.contains c

/-- Name and password, escaped. -/
def readCredentials (cs : List Char) : List Char × List Char :=
  (Percent.encodeWith credentialEscape (cs.takeWhile (· ≠ ':')),
    Percent.encodeWith credentialEscape ((cs.dropWhile (· ≠ ':')).drop 1))

/-- Split the host from its port at the first colon outside brackets. -/
def splitHost : (bracket : Bool) → List Char → List Char × List Char
  | _, [] => ([], [])
  | bracket, c :: rest =>
      if c = ':' && !bracket then ([], c :: rest)
      else
        let within := if c = '[' then true else if c = ']' then false else bracket
        let (host, port) := splitHost within rest
        (c :: host, port)

/-- The largest port. -/
def maxPort : Nat := 65535

/-- Read what follows the host: nothing, or a colon and perhaps digits. -/
def readPort (cs : List Char) : Except UrlError (Option Nat) :=
  match cs with
  | [] => .ok none
  | _ :: digits =>
      if digits.all Char.isDigit then
        if digits.isEmpty then .ok none
        else
          match Host.number? 10 digits with
          | some p => if p ≤ maxPort then .ok (some p) else .error .invalidPort
          | none => .error .invalidPort
      else .error .invalidPort

/-- An authority: credentials, host and port. -/
structure Authority where
  username : List Char
  password : List Char
  host : List Char
  port : List Char

/-- Take an authority apart. Credentials that are empty need a host behind them. -/
def readAuthority (authority : List Char) (more : Bool) : Except UrlError Authority :=
  let (userinfo, rest) := splitCredentials authority
  let (host, port) := splitHost false rest
  match userinfo with
  | none => .ok ⟨[], [], host, port⟩
  | some info =>
      if info.isEmpty && rest.isEmpty && more then .error .emptyHost
      else
        let (username, password) := readCredentials info
        .ok ⟨username, password, host, port⟩

/-- Characters that are escaped in a query. -/
def queryEscape (c : Char) : Bool :=
  c.toNat ≤ 0x20 || 0x7F ≤ c.toNat || "\"#<>'".toList.contains c

/-- Characters that are escaped in a fragment. -/
def fragmentEscape (c : Char) : Bool :=
  c.toNat ≤ 0x20 || 0x7F ≤ c.toNat || "\"<>`".toList.contains c

/-- The query at the front of a text, if it starts with a question mark. -/
def readQuery (cs : List Char) : Option (List Char) :=
  match cs with
  | '?' :: rest => some (Percent.encodeWith queryEscape (rest.takeWhile (· ≠ '#')))
  | _ => none

/-- The fragment of a text, behind its first hash. -/
def readFragment (cs : List Char) : Option (List Char) :=
  match cs.dropWhile (· ≠ '#') with
  | '#' :: rest => some (Percent.encodeWith fragmentEscape rest)
  | _ => none

/-- Read a web URL behind the slashes that follow its scheme. -/
def readWeb [Idna] (scheme : Scheme) (cs : List Char) : Except UrlError Url := do
  let authority := cs.takeWhile fun c => !endsAuthority true c
  let rest := cs.dropWhile fun c => !endsAuthority true c
  let a ← readAuthority authority (!rest.isEmpty)
  if a.host.isEmpty then throw .emptyHost
  let host ← Host.parse a.host
  let port ← readPort a.port
  let path := rest.takeWhile fun c => c ≠ '?' && c ≠ '#'
  let behind := rest.dropWhile fun c => c ≠ '?' && c ≠ '#'
  return {
    scheme := scheme
    username := a.username
    password := a.password
    host := host
    port := if port = some scheme.port then none else port
    path := .parse path
    query := readQuery behind
    fragment := readFragment behind }

/-- Check a URL of an unknown scheme behind two slashes. Its authority may be empty, but credentials
need a host. -/
def checkOpaque (cs : List Char) : Except UrlError Unit := do
  let authority := cs.takeWhile fun c => !endsAuthority false c
  let rest := cs.dropWhile fun c => !endsAuthority false c
  let a ← readAuthority authority (!rest.isEmpty)
  Host.checkOpaque a.host
  if a.host.isEmpty && !a.port.isEmpty then throw .emptyHost
  let _ ← readPort (a.port.takeWhile (· ≠ '\\'))
  if a.host.isEmpty && !(a.username.isEmpty && a.password.isEmpty) then throw .emptyHost

/-- Check the host of a file URL, which is written behind two slashes and may be missing. -/
def checkFile [Idna] (cs : List Char) : Except UrlError Unit :=
  match cs with
  | a :: b :: rest =>
      if UrlPath.isSlash a && UrlPath.isSlash b then
        let host := rest.takeWhile fun c => !endsAuthority true c
        if host.isEmpty || UrlPath.isDrive host then .ok ()
        else (Host.parse host).map fun _ => ()
      else .ok ()
  | _ => .ok ()

/-- Read a URL. -/
def parse [Idna] (text : List Char) : Except UrlError Reading :=
  match splitScheme (cleaned text) with
  | none => .error .relative
  | some (scheme, rest) =>
      match kindOf scheme with
      | .web s => (readWeb s (rest.dropWhile UrlPath.isSlash)).map .web
      | .special => (readWeb .http (rest.dropWhile UrlPath.isSlash)).map fun _ => .other scheme
      | .file => (checkFile rest).map fun _ => .other scheme
      | .opaqueHost =>
          match rest with
          | '/' :: '/' :: rest => (checkOpaque rest).map fun _ => .other scheme
          | _ => .ok (.other scheme)

end MetricFanout.Url
