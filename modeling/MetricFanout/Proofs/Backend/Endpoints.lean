import MetricFanout.Backend.Request
import MetricFanout.Proofs.Backend.Identity
/-!
# Endpoints stand below their base

The path of an endpoint is relative, and resolving it replaces what follows the last slash of the base URL. A base
URL ends its path in a slash, so that the endpoint is put behind the whole of it, and nothing that was written in
the address is lost.

A path is written as segments between slashes, and one slash at its end makes no difference to them. They are what
the path of the base URL consists of, unless dots among them are to be followed.
-/

namespace MetricFanout

open Percent (encodeWith)

namespace UrlPath

/-- A path without the slash of the root, if it is written. -/
def withoutRoot (cs : List Char) : List Char :=
  match cs with
  | [] => []
  | c :: rest => if isSlash c then rest else c :: rest

/-- The segments that are written in a path. -/
def writtenSegments (cs : List Char) : List (List Char) :=
  let parts := splitAt isSlash (withoutRoot cs)
  if parts.getLast? = some [] then parts.dropLast else parts

theorem parse_eq_walk (cs : List Char) : parse cs = walk [] (splitAt isSlash (withoutRoot cs)) := by
  cases cs with
  | nil => rfl
  | cons c rest => rfl

/-- A directory consists of the segments that are written, escaped, whether or not a slash follows them. -/
theorem asDirectory_parse {cs : List Char} (h : ∀ s ∈ writtenSegments cs, Stays s) :
    (parse cs).asDirectory = ⟨(writtenSegments cs).map (encodeWith mustEscape), []⟩ := by
  obtain ⟨init, last, hparts⟩ := exists_splitAt_eq_append isSlash (withoutRoot cs)
  simp only [writtenSegments, parse_eq_walk, hparts, List.getLast?_concat, List.dropLast_concat] at h ⊢
  by_cases hlast : last = []
  · rw [if_pos (congrArg some hlast)] at h ⊢
    have hstays : Stays last := by rw [hlast]; decide
    rw [walk_of_stays hstays [] init h, hlast]
    rfl
  · have hsome : some last ≠ some [] := fun hnil => hlast (Option.some.inj hnil)
    rw [if_neg hsome] at h ⊢
    obtain ⟨hinit, hstays⟩ := List.forall_mem_append.1 h
    have hname : encodeWith mustEscape last ≠ [] := mt Percent.encodeWith_eq_nil hlast
    rw [walk_of_stays (hstays last List.mem_cons_self) [] init hinit, asDirectory,
      if_neg (mt List.isEmpty_iff.1 hname), List.nil_append, List.map_append, List.map_singleton]

end UrlPath

namespace Url

/-- The path that is written in a URL. -/
def writtenPath (text : List Char) : List Char :=
  match splitScheme (cleaned text) with
  | none => []
  | some (_, rest) => pathIn ((rest.dropWhile UrlPath.isSlash).dropWhile fun c => !endsAuthority true c)

theorem path_of_parse [Idna] {text : List Char} {u : Url} (h : parse text = .ok (.web u)) :
    u.path = .parse (writtenPath text) := by
  obtain ⟨scheme, s, rest, hscheme, hread⟩ := exists_of_parse h
  obtain ⟨_, _, _, _, _, _, _, rfl⟩ := readWeb_eq_ok_iff.1 hread
  rw [writtenPath, hscheme]
  rfl

/-- The segments that are written in the path of an address. -/
def addressSegments (address : String) : List (List Char) :=
  UrlPath.writtenSegments (writtenPath (withScheme address.toList))

/-- The URL of an endpoint, to which the parameters of a request are added. -/
def endpointUrl (base : Url) (op : Operation) : Url := base.resolve (Request.endpoint op).toList

/-- A URL stands below a base: the same but for an endpoint behind the path, and read back as it is. -/
structure Below [Idna] (base : Url) (endpoint : List Char) (u : Url) : Prop where
  scheme : u.scheme = base.scheme
  username : u.username = base.username
  password : u.password = base.password
  host : u.host = base.host
  port : u.port = base.port
  path : u.path.text = base.path.text ++ endpoint
  query : u.query = none
  fragment : u.fragment = none
  text : parse u.text = .ok (.web u)

end Url

namespace Request

open UrlPath (Plain)

/-- Endpoints are directories with plain names. -/
theorem exists_endpoint (op : Operation) : ∃ segments : List (List Char),
    (∀ s ∈ segments, Plain s) ∧ (endpoint op).toList = segments.flatMap (· ++ ['/']) := by
  have hmetrics : Plain "metrics".toList := by decide
  have hfind : Plain "find".toList := by decide
  have hrender : Plain "render".toList := by decide
  have hinfo : Plain "info".toList := by decide
  cases op with
  | find => exact ⟨_, List.forall_mem_cons.2 ⟨hmetrics, List.forall_mem_singleton.2 hfind⟩, rfl⟩
  | render => exact ⟨_, List.forall_mem_singleton.2 hrender, rfl⟩
  | info => exact ⟨_, List.forall_mem_singleton.2 hinfo, rfl⟩

end Request

namespace Url

variable {address : String} {base : Url}

/-- Resolving an endpoint leaves nothing of a directory out. -/
theorem path_endpointUrl (op : Operation) : ∃ segments : List (List Char),
    (∀ s ∈ segments, UrlPath.Plain s) ∧ (Request.endpoint op).toList = segments.flatMap (· ++ ['/']) ∧
      ∀ u : Url, (u.endpointUrl op).path = ⟨u.path.dirs ++ segments, []⟩ := by
  obtain ⟨segments, hplain, hendpoint⟩ := Request.exists_endpoint op
  refine ⟨segments, hplain, hendpoint, fun u => ?_⟩
  rw [endpointUrl, hendpoint, resolve, UrlPath.resolve_of_plain hplain]

/-- An endpoint is put behind the path of a base URL. -/
theorem below_endpointUrl [Idna] [LawfulIdna] (h : baseUrl address = .ok base) (op : Operation) :
    base.Below (Request.endpoint op).toList (base.endpointUrl op) := by
  obtain ⟨segments, hplain, hendpoint, hpath⟩ := path_endpointUrl op
  have hbase := normal_of_baseUrl h
  have hnormal : (base.endpointUrl op).Normal := by
    refine ⟨hbase.username, hbase.password, hbase.host, hbase.port, ?_, fun _ hq => (nomatch hq),
      fun _ hf => (nomatch hf)⟩
    rw [hpath]
    exact ⟨List.forall_mem_append.2 ⟨hbase.path.dirs, hplain⟩, UrlPath.plain_nil⟩
  refine ⟨rfl, rfl, rfl, rfl, rfl, ?_, rfl, rfl, hnormal.parse_text⟩
  rw [hpath, hendpoint, UrlPath.eq_of_name_eq_nil (name_of_baseUrl h)]
  simp [UrlPath.text]

/-- The path of a base URL is that of its address, with one slash more if it had none at its end. -/
theorem path_of_baseUrl [Idna] [LawfulIdna] (h : baseUrl address = .ok base) :
    ∃ u, parse (withScheme address.toList) = .ok (.web u) ∧ base = { u with path := base.path } ∧
      u.path = .parse (writtenPath (withScheme address.toList)) ∧
      base.path = .parse (if u.path.text.getLast? = some '/' then u.path.text else u.path.text ++ ['/']) := by
  obtain ⟨u, hread, rfl⟩ := baseUrl_eq_ok_iff.1 h
  have hpath := (normal_of_parse hread).path
  refine ⟨u, hread, rfl, path_of_parse hread, ?_⟩
  simp only [hpath.getLast?_text]
  rw [← UrlPath.text_asDirectory, hpath.asDirectory.parse_text]

/-- A base URL stands for the address that it is read from. -/
structure StandsFor [Idna] (base : Url) (address : String) : Prop where
  scheme : base.scheme.name = "http" ∨ base.scheme.name = "https"
  host : base.host.text ≠ []
  directory : base.path.text.getLast? = some '/'
  text : parse base.text = .ok (.web base)
  /-- It differs from what is read from the address in one slash at the end of the path, if that had none. -/
  reading : ∃ u, parse (withScheme address.toList) = .ok (.web u) ∧ base = { u with path := base.path } ∧
    u.path = .parse (writtenPath (withScheme address.toList)) ∧
    base.path = .parse (if u.path.text.getLast? = some '/' then u.path.text else u.path.text ++ ['/'])
  /-- Without dots to follow, its path is made of the segments that the address has. -/
  segments : (∀ s ∈ addressSegments address, UrlPath.Stays s) →
    base.path = ⟨(addressSegments address).map (encodeWith UrlPath.mustEscape), []⟩
  endpoints : ∀ op, base.Below (Request.endpoint op).toList (base.endpointUrl op)
  /-- A request adds no more than its parameters to an endpoint. -/
  requests : ∀ (r : Request) (b : Backend), b.base = base →
    r.url b = { base.endpointUrl r.operation with query := some (Form.encode r.params) }

/-- **Endpoints stand below the address that is configured.** A base URL has a web scheme, a host and a path that
ends in a slash, and keeps all that is read from the address. Below it stand the URLs of all endpoints. -/
theorem endpoints_below [Idna] [LawfulIdna] (address : String) (base : Url) (h : baseUrl address = .ok base) :
    base.StandsFor address := by
  have hbase := normal_of_baseUrl h
  constructor
  case scheme =>
    cases base.scheme with
    | http => exact .inl rfl
    | https => exact .inr rfl
  case host => exact hbase.host.text_ne_nil
  case directory => exact hbase.path.getLast?_text.2 (name_of_baseUrl h)
  case text => exact hbase.parse_text
  case reading => exact path_of_baseUrl h
  case segments =>
    intro hstays
    obtain ⟨u, hread, rfl⟩ := baseUrl_eq_ok_iff.1 h
    simp only
    rw [path_of_parse hread, UrlPath.asDirectory_parse hstays]
    rfl
  case endpoints => exact below_endpointUrl h
  case requests =>
    rintro r b rfl
    rfl

section Prefix

open Umlaut

/-- A name beyond ASCII, and a prefix with an empty segment and a blank, written without a slash at its end. -/
theorem endpoints_below_prefix : ∃ base, baseUrl "https://me:pw@bücher.example:8443/a b//c?q#f" = .ok base ∧
    base.path.text = "/a%20b//c/".toList ∧ base.host.text = "xn--bcher-kva.example".toList ∧
    base.StandsFor "https://me:pw@bücher.example:8443/a b//c?q#f" := by
  have hbase : baseUrl "https://me:pw@bücher.example:8443/a b//c?q#f" =
      .ok ⟨.https, "me".toList, "pw".toList, .domain "xn--bcher-kva.example".toList, some 8443,
        ⟨["a%20b".toList, [], ['c']], []⟩, some ['q'], some ['f']⟩ := by
    decide +kernel
  have hbelow := endpoints_below _ _ hbase
  refine ⟨_, hbase, ?_, rfl, hbelow⟩
  rw [hbelow.segments (by decide +kernel)]
  decide +kernel

end Prefix

/-! ## One identity -/

/-- **Backends of one identity are asked in one place, up to the slashes at the end of their paths.** Their endpoints
agree in all but the path, and in the path exactly if the base URLs do. These paths are the same behind a query or a
fragment, or if neither ends in more than one slash; otherwise they differ in empty directories at their end. -/
theorem endpoints_of_identity_eq [Idna] [LawfulIdna] (first second : String) (base other : Url)
    (hbase : baseUrl first = .ok base) (hother : baseUrl second = .ok other) (hid : base.identity = other.identity) :
    base.path.trimmed = other.path.trimmed ∧
    (base.HasMarks ∨ (base.path.trimmed = base.path ∧ other.path.trimmed = other.path) → base.path = other.path) ∧
    ∀ op, other.endpointUrl op = { base.endpointUrl op with path := (other.endpointUrl op).path } ∧
      (base.endpointUrl op = other.endpointUrl op ↔ base.path = other.path) := by
  -- the identity is an address, and what is read from it is either URL without the slashes at its end
  have hsame : base.trimmed = other.trimmed := by
    have hread := baseUrl_identity hbase
    rw [hid, baseUrl_identity hother] at hread
    exact (Except.ok.inj hread).symm
  have hmarks : base.HasMarks ↔ other.HasMarks := by
    rw [← hasMarks_trimmed base, hsame, hasMarks_trimmed]
  have hpath := congrArg Url.path hsame
  rw [path_trimmed, path_trimmed] at hpath
  have htrimmed : base.path.trimmed = other.path.trimmed := by
    by_cases h : base.HasMarks
    · rw [if_pos h, if_pos (hmarks.1 h)] at hpath
      rw [hpath]
    · rwa [if_neg h, if_neg (mt hmarks.2 h)] at hpath
  refine ⟨htrimmed, ?_, fun op => ?_⟩
  · rintro (h | ⟨hfirst, hsecond⟩)
    · rwa [if_pos h, if_pos (hmarks.1 h)] at hpath
    · rw [← hfirst, ← hsecond, htrimmed]
  · have hrest : other.endpointUrl op = { base.endpointUrl op with path := (other.endpointUrl op).path } := by
      have hbare := bare_trimmed base (other.path.resolve (Request.endpoint op).toList)
      rw [hsame, bare_trimmed] at hbare
      exact hbare
    refine ⟨hrest, fun heq => ?_, fun heq => ?_⟩
    · obtain ⟨segments, _, _, hpath⟩ := path_endpointUrl op
      have hdirs := congrArg Url.path heq
      rw [hpath, hpath, UrlPath.mk.injEq] at hdirs
      rw [UrlPath.eq_of_name_eq_nil (name_of_baseUrl hbase), UrlPath.eq_of_name_eq_nil (name_of_baseUrl hother),
        List.append_cancel_right hdirs.1]
    · rw [hrest, endpointUrl, endpointUrl, resolve, resolve, heq]

open Program

/-- A port that need not be written, a slash in front of the query and one at its end. -/
theorem endpoints_of_identity_eq_query : ∃ base other, baseUrl "h/x?k=/" = .ok base ∧
    baseUrl "http://H:80/x/?k=" = .ok other ∧ base.identity = other.identity ∧
    ∀ op, base.endpointUrl op = other.endpointUrl op := by
  have hbase : baseUrl "h/x?k=/" =
      .ok ⟨.http, [], [], .domain ['h'], none, ⟨[['x']], []⟩, some "k=/".toList, none⟩ := by
    decide +kernel
  have hother : baseUrl "http://H:80/x/?k=" =
      .ok ⟨.http, [], [], .domain ['h'], none, ⟨[['x']], []⟩, some "k=".toList, none⟩ := by
    decide +kernel
  have hid : Url.identity ⟨.http, [], [], .domain ['h'], none, ⟨[['x']], []⟩, some "k=/".toList, none⟩ =
      Url.identity ⟨.http, [], [], .domain ['h'], none, ⟨[['x']], []⟩, some "k=".toList, none⟩ := by
    decide +kernel
  obtain ⟨_, hpath, hops⟩ := endpoints_of_identity_eq _ _ _ _ hbase hother hid
  exact ⟨_, _, hbase, hother, hid, fun op => (hops op).2.2 (hpath (.inl (by decide)))⟩

/-- With one slash more at the end of its path, a backend has the same identity and other endpoints: a pool keeps
only the first of the two. -/
theorem endpoints_ne_of_slashes : ∃ base other, baseUrl "http://h/x" = .ok base ∧
    baseUrl "http://h/x//" = .ok other ∧ base.identity = other.identity ∧
    (∀ op, base.endpointUrl op ≠ other.endpointUrl op) ∧
    (Pool.ofAddresses ["http://h/x", "http://h/x//"] 0).map Pool.size = .ok 1 := by
  have hbase : baseUrl "http://h/x" = .ok ⟨.http, [], [], .domain ['h'], none, ⟨[['x']], []⟩, none, none⟩ := by
    decide +kernel
  have hother : baseUrl "http://h/x//" =
      .ok ⟨.http, [], [], .domain ['h'], none, ⟨[['x'], []], []⟩, none, none⟩ := by
    decide +kernel
  refine ⟨_, _, hbase, hother, by decide +kernel, fun op => ?_, by decide +kernel⟩
  cases op with
  | find => decide +kernel
  | render => decide +kernel
  | info => decide +kernel

end Url

end MetricFanout
