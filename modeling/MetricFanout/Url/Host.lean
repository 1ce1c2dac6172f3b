import MetricFanout.Text.Percent
import MetricFanout.Url.Idna
/-!
# Hosts

A host is a name or an address. Addresses have many spellings and one form: an IPv4 address may be
written with fewer than four numbers and in octal or hexadecimal, and a run of zeros in an IPv6
address may be left out. A name whose last label is a number must be an IPv4 address.
-/

namespace MetricFanout

/-- Why a text is no URL. -/
inductive UrlError where
  | emptyHost
  | invalidPort
  | invalidDomain
  | invalidDomainCharacter
  | invalidIpv4
  | invalidIpv6
  | relative
  deriving DecidableEq, Repr

/-- The error in words. -/
def UrlError.message : UrlError → String
  | .emptyHost => "empty host"
  | .invalidPort => "invalid port number"
  | .invalidDomain => "invalid international domain name"
  | .invalidDomainCharacter => "invalid domain character"
  | .invalidIpv4 => "invalid IPv4 address"
  | .invalidIpv6 => "invalid IPv6 address"
  | .relative => "relative URL without a base"

/-- A host. -/
inductive Host where
  | domain (name : List Char)
  | ipv4 (address : Nat)
  | ipv6 (pieces : List Nat)
  deriving DecidableEq, Repr

namespace Host

/-! ## Numbers -/

/-- The value of digits in a base, or `none` for a character that is no digit of it. -/
def number? (base : Nat) (cs : List Char) : Option Nat :=
  cs.foldlM (fun n c => do
    let d ← Percent.value? c.toNat
    if d < base then some (n * base + d) else none) 0

/-- A number of an IPv4 address: hexadecimal after `0x`, octal after another zero, else decimal. A
prefix alone is zero. -/
def ipv4Number? (cs : List Char) : Option Nat :=
  match cs with
  | [] => none
  | '0' :: 'x' :: digits => number? 16 digits
  | '0' :: 'X' :: digits => number? 16 digits
  | '0' :: d :: digits => number? 8 (d :: digits)
  | digits => number? 10 digits

/-- The labels of a name without an empty one at the end. -/
def labels (name : List Char) : List (List Char) :=
  let parts := splitAt (· == '.') name
  if parts.getLast? = some [] then parts.dropLast else parts

/-- Whether the last label is a number, so that the name must be an IPv4 address. -/
def endsInNumber (name : List Char) : Bool :=
  match (labels name).getLast? with
  | none => false
  | some last => (!last.isEmpty && last.all Char.isDigit) || (ipv4Number? last).isSome

/-- The address of up to four numbers: all but the last are bytes, and the last fills what is left.
-/
def ipv4Address? (numbers : List Nat) : Option Nat :=
  match numbers.reverse with
  | [] => none
  | last :: firsts =>
      if numbers.length ≤ 4 && firsts.all (· ≤ 255) && last < Nat.pow 256 (4 - firsts.length) then
        some (last +
          firsts.reverse.foldl (fun a n => a * 256 + n) 0 * Nat.pow 256 (4 - firsts.length))
      else none

/-- An IPv4 address. -/
def ipv4? (name : List Char) : Option Nat := ((labels name).mapM ipv4Number?).bind ipv4Address?

/-! ## IPv6 -/

/-- A decimal number of at most 255 without leading zeros. -/
def byte? (cs : List Char) : Option Nat :=
  match cs with
  | [] => none
  | ['0'] => some 0
  | '0' :: _ => none
  | cs =>
      if cs.length ≤ 3 then (number? 10 cs).bind fun n => if n ≤ 255 then some n else none
      else none

/-- An IPv4 address at the end of an IPv6 address, as two pieces. -/
def dotted? (cs : List Char) : Option (List Nat) :=
  match (splitAt (· == '.') cs).mapM byte? with
  | some [a, b, c, d] => some [a * 256 + b, c * 256 + d]
  | _ => none

/-- The pieces read so far: those before the gap, and those behind it once a gap was met. -/
structure Ipv6Pieces where
  before : List Nat := []
  behind : Option (List Nat) := none

namespace Ipv6Pieces

/-- The number of places taken; a gap takes one. -/
def count (p : Ipv6Pieces) : Nat :=
  p.before.length + match p.behind with
    | none => 0
    | some behind => behind.length + 1

/-- Add pieces at the end. -/
def push (p : Ipv6Pieces) (pieces : List Nat) : Ipv6Pieces :=
  match p.behind with
  | none => { p with before := p.before ++ pieces }
  | some behind => { p with behind := some (behind ++ pieces) }

/-- All eight pieces: the gap is filled with zeros, and without a gap there must be eight. -/
def finish? (p : Ipv6Pieces) : Option (List Nat) :=
  match p.behind with
  | none => if p.before.length = 8 then some p.before else none
  | some behind =>
      if p.count ≤ 8 then
        some (p.before ++ List.replicate (8 - p.before.length - behind.length) 0 ++ behind)
      else none

end Ipv6Pieces

/-- Read pieces up to the end of the text. -/
def ipv6Pieces? (p : Ipv6Pieces) : (fuel : Nat) → List Char → Option (List Nat)
  | _, [] => p.finish?
  | 0, _ => none
  | fuel + 1, c :: cs =>
      if 8 ≤ p.count then none
      else if c = ':' then
        match p.behind with
        | some _ => none
        | none => ipv6Pieces? { p with behind := some [] } fuel cs
      else
        let digits := ((c :: cs).take 4).takeWhile fun c => (Percent.value? c.toNat).isSome
        match (c :: cs).drop digits.length with
        | [] => (number? 16 digits).bind fun n => (p.push [n]).finish?
        | '.' :: _ =>
            if digits.isEmpty || 6 < p.count then none
            else (dotted? (c :: cs)).bind fun pieces => (p.push pieces).finish?
        | ':' :: rest =>
            if rest.isEmpty then none
            else (number? 16 digits).bind fun n => ipv6Pieces? (p.push [n]) fuel rest
        | _ => none

/-- An IPv6 address, as eight pieces. -/
def ipv6? (cs : List Char) : Option (List Nat) :=
  match cs with
  | ':' :: ':' :: rest => ipv6Pieces? { behind := some [] } rest.length rest
  | ':' :: _ => none
  | [] | [_] => none
  | cs => ipv6Pieces? {} cs.length cs

/-! ## Names -/

/-- A name without escapes, in its one form. -/
def domain? [Idna] (cs : List Char) : Option (List Char) :=
  Idna.toAscii? (Percent.decode (Utf8.encode cs))

/-- The host of a URL for the web. -/
def parse [Idna] (cs : List Char) : Except UrlError Host :=
  match cs with
  | '[' :: inner =>
      if inner.getLast? = some ']' then
        match ipv6? inner.dropLast with
        | some pieces => .ok (.ipv6 pieces)
        | none => .error .invalidIpv6
      else .error .invalidIpv6
  | cs =>
      match domain? cs with
      | none => .error .invalidDomain
      | some [] => .error .emptyHost
      | some name =>
          if endsInNumber name then
            match ipv4? name with
            | some address => .ok (.ipv4 address)
            | none => .error .invalidIpv4
          else .ok (.domain name)

/-- Check the host of a URL of an unknown scheme, which is an address in brackets or any text
without delimiters. -/
def checkOpaque (cs : List Char) : Except UrlError Unit :=
  match cs with
  | '[' :: inner =>
      if inner.getLast? = some ']' && (ipv6? inner.dropLast).isSome then .ok ()
      else .error .invalidIpv6
  | cs =>
      if cs.any fun c => c = '\x00' || " #/:<>?@[\\]^|".toList.contains c then
        .error .invalidDomainCharacter
      else .ok ()

/-! ## Text -/

/-- The digits of a number in decimal. -/
def decimal (n : Nat) : List Char := (toString n).toList

/-- The digits of a number in hexadecimal, lower case. -/
def hexadecimal (n : Nat) : List Char := Nat.toDigits 16 n

/-- The number of zeros at the front. -/
def leadingZeros (pieces : List Nat) : Nat := (pieces.takeWhile (· == 0)).length

/-- The first of the longest runs of zeros, as its start and its length. -/
def longestRun : (start : Nat) → List Nat → Nat × Nat
  | start, [] => (start, 0)
  | start, p :: rest =>
      let here := leadingZeros (p :: rest)
      let (s, n) := longestRun (start + 1) rest
      if n ≤ here then (start, here) else (s, n)

/-- Pieces joined by colons. -/
def colons : List Nat → List Char
  | [] => []
  | [p] => hexadecimal p
  | p :: rest => hexadecimal p ++ ':' :: colons rest

/-- An IPv6 address. Its first longest run of at least two zeros is left out. -/
def ipv6Text (pieces : List Nat) : List Char :=
  let (start, length) := longestRun 0 pieces
  if 2 ≤ length then
    colons (pieces.take start) ++ [':', ':'] ++ colons (pieces.drop (start + length))
  else colons pieces

/-- A host in its one form. -/
def text : Host → List Char
  | .domain name => name
  | .ipv4 a =>
      decimal (a / 0x1000000 % 256) ++ '.' :: decimal (a / 0x10000 % 256) ++ '.' ::
        decimal (a / 256 % 256) ++ '.' :: decimal (a % 256)
  | .ipv6 pieces => '[' :: ipv6Text pieces ++ [']']

end Host

end MetricFanout
