import MetricFanout.Url.Parse
/-!
# Backend addresses

A backend is configured by an address: a web URL, or a host with a port, which stands for an `http`
URL. The base URL of a backend ends in a slash, so that the paths of its endpoints are resolved
below it. Its identity is the base URL without slashes at the end.
-/

namespace MetricFanout

/-- Why an address is no backend. -/
inductive AddressError where
  | url (error : UrlError)
  | scheme (name : String)
  deriving DecidableEq, Repr

/-- The reason in words. -/
def AddressError.message : AddressError → String
  | .url e => e.message
  | .scheme name => "unsupported scheme '" ++ name ++ "'"

/-- Whether one text occurs in another. -/
def occursIn (part : List Char) : List Char → Bool
  | [] => part.isEmpty
  | c :: rest => part.isPrefixOf (c :: rest) || occursIn part rest

/-- The address with its scheme. -/
def withScheme (address : List Char) : List Char :=
  if occursIn "://".toList address then address else "http://".toList ++ address

/-- The base URL of an address. -/
def baseUrl [Idna] (address : String) : Except AddressError Url :=
  match Url.parse (withScheme address.toList) with
  | .error e => .error (.url e)
  | .ok (.other scheme) => .error (.scheme scheme)
  | .ok (.web u) => .ok { u with path := u.path.asDirectory }

/-- A text without slashes at its end. -/
def dropSlashes (cs : List Char) : List Char := (cs.reverse.dropWhile (· == '/')).reverse

/-- The identity of a base URL. -/
def Url.identity (u : Url) : String := String.ofList (dropSlashes u.text)

end MetricFanout
