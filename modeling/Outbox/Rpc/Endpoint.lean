import Outbox.Text.Hex
import Outbox.Text.Shown

namespace Outbox.Rpc

inductive BadEndpoint where
  | noScheme
  | emptyHost
  | badDomain
  | badDomainCharacter
  | badIpv4
  | badIpv6
  | badPort
deriving DecidableEq

def BadEndpoint.message : BadEndpoint → String
  | noScheme => "relative URL without a base"
  | emptyHost => "empty host"
  | badDomain => "invalid international domain name"
  | badDomainCharacter => "invalid domain character"
  | badIpv4 => "invalid IPv4 address"
  | badIpv6 => "invalid IPv6 address"
  | badPort => "invalid port number"

namespace Endpoint

/-- Blanks and controls at the ends do not count, tabs and line ends nowhere. -/
def clean (s : String) : List Char :=
  let edge := fun c : Char => c ≤ ' '
  let cs := ((s.toList.dropWhile edge).reverse.dropWhile edge).reverse
  cs.filter fun c => c ≠ '\t' ∧ c ≠ '\n' ∧ c ≠ '\r'

/-- The scheme in lower case, and what follows its colon. -/
def scheme? (cs : List Char) : Option (String × List Char) :=
  let inScheme := fun c : Char => c.isAlphanum || c = '+' || c = '-' || c = '.'
  match cs, cs.dropWhile inScheme with
  | first :: _, ':' :: rest =>
    if first.isAlpha then some (String.ofList ((cs.takeWhile inScheme).map Char.toLower), rest)
    else none
  | _, _ => none

def isWeb (scheme : String) : Bool := ["http", "https", "ws", "wss", "ftp"].contains scheme

def splitAt (sep : Char) : List Char → List (List Char)
  | [] => [[]]
  | c :: cs =>
    match splitAt sep cs with
    | part :: parts => if c = sep then [] :: part :: parts else (c :: part) :: parts
    | [] => [[c]]

/-- A number in decimal, or in octal behind a zero, or in hexadecimal behind `0x`. -/
def number? (cs : List Char) : Option Nat :=
  let (base, digits) := match cs with
    | '0' :: 'x' :: ds => (16, ds)
    | '0' :: 'X' :: ds => (16, ds)
    | '0' :: d :: ds => (8, d :: ds)
    | ds => (10, ds)
  if cs = [] then none
  else
    digits.foldl
      (fun n c => do
        let n ← n
        let d ← Hex.value? c
        if d < base then some (base * n + d) else none)
      (some 0)

/-- The parts between the points; one empty part at the end does not count. -/
def labels (cs : List Char) : List (List Char) :=
  let parts := splitAt '.' cs
  if 1 < parts.length ∧ parts.getLast? = some [] then parts.dropLast else parts

def endsInNumber (cs : List Char) : Bool :=
  match (labels cs).getLast? with
  | none => false
  | some last =>
    (last ≠ [] && last.all Char.isDigit) ||
      ((last.take 2 = ['0', 'x'] || last.take 2 = ['0', 'X']) && (number? last).isSome)

/-- At most four numbers, of which the last fills up what the others leave. -/
def isIpv4 (cs : List Char) : Bool :=
  let parts := labels cs
  let numbers := parts.map number?
  parts.length ≤ 4 &&
    match numbers.getLast? with
    | some (some last) =>
      (numbers.dropLast.all fun n => n.any (· < 256)) && last < Nat.pow 256 (5 - parts.length)
    | _ => false

/-- Four plain decimal numbers, as the end of a longer address. -/
def isDottedQuad (cs : List Char) : Bool :=
  let parts := splitAt '.' cs
  parts.length = 4 && parts.all fun p =>
    p ≠ [] && p.all Char.isDigit && (p.length = 1 || p.head? ≠ some '0') &&
      (number? p).any (· < 256)

/-- How many 16-bit groups a colon-separated list stands for. -/
def groups? (parts : List (List Char)) : Option Nat :=
  let isGroup := fun p : List Char => p ≠ [] && p.length ≤ 4 && p.all fun c => (Hex.value? c).isSome
  match parts.getLast? with
  | none => some 0
  | some last =>
    if !parts.dropLast.all isGroup then none
    else if isGroup last then some parts.length
    else if isDottedQuad last then some (parts.length + 1)
    else none

/-- The text around a double colon, if there is one. -/
def gap? : List Char → Option (List Char × List Char)
  | ':' :: ':' :: cs => some ([], cs)
  | c :: cs => (gap? cs).map fun (a, b) => (c :: a, b)
  | [] => none

/-- Eight groups, or fewer around one gap. -/
def isIpv6 (cs : List Char) : Bool :=
  let groupsOf := fun part : List Char =>
    if part = [] then some 0 else groups? (splitAt ':' part)
  match gap? cs with
  | none => groupsOf cs = some 8
  | some (before, after) =>
    match groupsOf before, groupsOf after with
    | some a, some b => a + b ≤ 7 && !before.contains '.'
    | _, _ => false

/-- Escaped bytes are taken at their value where they stand for ASCII. -/
def unescape : List Char → List Char
  | '%' :: a :: b :: cs =>
    match Hex.value? a, Hex.value? b with
    | some h, some l => Char.ofNat (16 * h + l) :: unescape cs
    | _, _ => '%' :: unescape (a :: b :: cs)
  | c :: cs => c :: unescape cs
  | [] => []
termination_by cs => cs.length

def isDomainCharacter (c : Char) : Bool :=
  if c.toNat < 128 then
    '!' ≤ c && c ≠ '\x7f' && !("#/:<>?@[\\]^|%".toList.contains c)
  else Text.isShown c

def webHost (host : List Char) : Option BadEndpoint :=
  match host with
  | [] => some .emptyHost
  | '[' :: rest =>
    if rest.getLast? = some ']' ∧ isIpv6 rest.dropLast then none else some .badIpv6
  | _ =>
    let domain := unescape host
    if !domain.all isDomainCharacter then some .badDomain
    else if endsInNumber domain ∧ !isIpv4 domain then some .badIpv4
    else none

def plainHost (host : List Char) : Option BadEndpoint :=
  match host with
  | '[' :: rest =>
    if rest.getLast? = some ']' ∧ isIpv6 rest.dropLast then none else some .badIpv6
  | _ =>
    if host.any fun c => "\x00 #/:<>?@[\\]^|".toList.contains c then some .badDomainCharacter
    else none

/-- The host ends at a colon outside of brackets. -/
def hostAndPort : Bool → List Char → List Char × List Char
  | _, [] => ([], [])
  | inside, c :: cs =>
    if c = ':' ∧ inside = false then ([], cs)
    else
      let (host, port) := hostAndPort (if c = '[' then true else if c = ']' then false else inside) cs
      (c :: host, port)

/-- An empty port stands for the usual one. -/
def port (cs : List Char) : Option BadEndpoint :=
  if cs.all Char.isDigit ∧ cs.foldl (fun n c => 10 * n + (c.toNat - 48)) 0 < 65536 then none
  else some .badPort

/-- What stands before the last at-sign names a user. -/
def dropUser (cs : List Char) : List Char :=
  if cs.contains '@' then (cs.reverse.takeWhile (· ≠ '@')).reverse else cs

def authority (web : Bool) (cs : List Char) : Option BadEndpoint :=
  let ends := fun c : Char => c = '/' || c = '?' || c = '#' || (web && c = '\\')
  let (host, rest) := hostAndPort false (dropUser (cs.takeWhile fun c => !ends c))
  let verdict := if web then webHost host else plainHost host
  verdict <|> port rest

/-- What is wrong with an address, if anything. -/
def defect? (endpoint : String) : Option BadEndpoint :=
  match scheme? (clean endpoint) with
  | none => some .noScheme
  | some (scheme, rest) =>
    let slash := fun c : Char => c = '/' || c = '\\'
    if isWeb scheme then authority true (rest.dropWhile slash)
    else
      match rest with
      | '/' :: '/' :: rest =>
        if scheme = "file" then
          let host := rest.takeWhile fun c => !(slash c || c = '?' || c = '#')
          if host = [] then none else webHost host
        else authority false rest
      | _ => none

end Endpoint
end Outbox.Rpc
