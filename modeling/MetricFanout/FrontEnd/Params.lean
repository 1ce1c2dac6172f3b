import MetricFanout.Text.Form
import MetricFanout.Text.Blank
/-!
# Request parameters

The parameters of the three front-end requests: how they are taken from a query string and when they
are accepted. Of a repeated parameter the first value counts.
-/

namespace MetricFanout

/-- Why a request is rejected. -/
inductive Rejection where
  | emptyQuery
  | emptyTarget
  | emptyInfoTarget
  | fromNotInteger
  | untilNotInteger
  | unsupportedFormat
  deriving DecidableEq, Repr

/-- The rejection in words. -/
def Rejection.message : Rejection → String
  | .emptyQuery => "empty query"
  | .emptyTarget => "empty target"
  | .emptyInfoTarget => "info: empty target"
  | .fromNotInteger => "from is not a integer"
  | .untilNotInteger => "until is not a integer"
  | .unsupportedFormat => "unsupported format"

/-- The form in which an answer is sent. -/
inductive Format where
  | json
  | pickle
  deriving DecidableEq, Repr

/-- The format's name in a query string; none is a pickle. -/
def Format.parse? : String → Option Format
  | "json" => some .json
  | "" => some .pickle
  | "pickle" => some .pickle
  | _ => none

/-- The parameters of a query string, each with its first value. -/
structure Params where
  values : List (String × String) := []
  deriving Repr

namespace Params

/-- Keep the first value of each name. -/
def insert (p : Params) (pair : String × String) : Params :=
  if p.values.any (fun v => v.1 == pair.1) then p else ⟨p.values ++ [pair]⟩

/-- The parameters of a query string, or of a request without one. -/
def parse (query : Option String) : Params := (Form.decode (query.getD "")).foldl insert {}

/-- The value of a parameter, empty when it is missing. -/
def get (p : Params) (name : String) : String :=
  ((p.values.find? (fun v => v.1 == name)).map Prod.snd).getD ""

/-- Take a parameter out. -/
def take (p : Params) (name : String) : String × Params :=
  (p.get name, ⟨p.values.filter (fun v => v.1 != name)⟩)

/-- Take parameters out one after the other. -/
def takeAll : Params → List String → List String
  | _, [] => []
  | p, name :: rest => (p.take name).1 :: takeAll (p.take name).2 rest

end Params

/-- A decimal integer in the range of 32 bits: perhaps a sign, then digits. -/
def parseInt32? (cs : List Char) : Option Int32 :=
  let (negative, digits) : Bool × List Char :=
    match cs with
    | '-' :: rest => (true, rest)
    | '+' :: rest => (false, rest)
    | rest => (false, rest)
  if digits.isEmpty || !digits.all Char.isDigit then none
  else
    let n : Nat := digits.foldl (fun n c => n * 10 + (c.toNat - 48)) 0
    let i : Int := if negative then -n else n
    if Int32.minValue.toInt ≤ i ∧ i ≤ Int32.maxValue.toInt then some (Int32.ofInt i) else none

/-- A find request as it arrives. -/
structure FindParams where
  query : String
  format : String

/-- The find parameters. -/
def FindParams.ofParams (p : Params) : FindParams := ⟨p.get "query", p.get "format"⟩

/-- Accept a find: a query must be given, and the format must be known. -/
def FindParams.validate (p : FindParams) : Except Rejection Format :=
  if p.query.isEmpty then .error .emptyQuery
  else
    match Format.parse? p.format with
    | some f => .ok f
    | none => .error .unsupportedFormat

/-- A render request as it arrives. -/
structure RenderParams where
  target : String
  since : String
  upTo : String
  format : String

/-- The render parameters. -/
def RenderParams.ofParams (p : Params) : RenderParams :=
  ⟨p.get "target", p.get "from", p.get "until", p.get "format"⟩

/-- An accepted render request. -/
structure RenderRequest where
  target : String
  since : Int32
  upTo : Int32
  format : Format
  deriving DecidableEq

/-- Accept a render: both times must be integers, then a target must be given, then the format must
be known. White space around the times does not matter. -/
def RenderParams.validate (p : RenderParams) : Except Rejection RenderRequest :=
  match parseInt32? (Blank.trim p.since.toList) with
  | none => .error .fromNotInteger
  | some since =>
      match parseInt32? (Blank.trim p.upTo.toList) with
      | none => .error .untilNotInteger
      | some upTo =>
          if p.target.isEmpty then .error .emptyTarget
          else
            match Format.parse? p.format with
            | none => .error .unsupportedFormat
            | some format => .ok ⟨p.target, since, upTo, format⟩

/-- An info request as it arrives. -/
structure InfoParams where
  target : String
  format : String

/-- The info parameters. -/
def InfoParams.ofParams (p : Params) : InfoParams := ⟨p.get "target", p.get "format"⟩

/-- Accept an info: a target must be given, and the answer is JSON only. -/
def InfoParams.validate (p : InfoParams) : Except Rejection Unit :=
  if p.target.isEmpty then .error .emptyInfoTarget
  else if p.format = "" ∨ p.format = "json" then .ok ()
  else .error .unsupportedFormat

end MetricFanout
