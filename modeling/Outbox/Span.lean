namespace Outbox

/-- A length of time, whole seconds and nanoseconds. -/
structure Span where
  secs : Nat
  nanos : Nat
deriving DecidableEq

namespace Span

def ofSecs (n : Nat) : Span := ⟨n, 0⟩

def ofMillis (n : Nat) : Span := ⟨n / 1000, n % 1000 * 1000000⟩

/-- `width` decimal digits of `n`, leading zeros included. -/
def places : Nat → Nat → List Char
  | 0, _ => []
  | width + 1, n => places width (n / 10) ++ [Char.ofNat (48 + n % 10)]

/-- The part after the point loses its trailing zeros, and the point goes with the last of them. -/
def decimals (width part : Nat) : String :=
  match ((places width part).reverse.dropWhile (· = '0')).reverse with
  | [] => ""
  | ds => "." ++ String.ofList ds

/-- In the largest unit of s, ms, µs, ns in which the span is at least one, with as many decimals as
it needs. -/
def text (s : Span) : String :=
  if 0 < s.secs then toString s.secs ++ decimals 9 s.nanos ++ "s"
  else if 1000000 ≤ s.nanos then
    toString (s.nanos / 1000000) ++ decimals 6 (s.nanos % 1000000) ++ "ms"
  else if 1000 ≤ s.nanos then toString (s.nanos / 1000) ++ decimals 3 (s.nanos % 1000) ++ "µs"
  else toString s.nanos ++ "ns"

end Span
end Outbox
