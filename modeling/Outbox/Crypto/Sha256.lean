import Outbox.Wire.BigEndian

namespace Outbox.Sha256

/-- The largest number between `low` and `low + Nat.pow 2 bits` whose `k`-th power is at most `n`, if
`low` is such a number. -/
def rootFrom (k n low : Nat) : Nat → Nat
  | 0 => low
  | bits + 1 =>
    let mid := low + Nat.pow 2 bits
    rootFrom k n (if Nat.pow mid k ≤ n then mid else low) bits

/-- The first 32 bits behind the point of the `k`-th root of `n`. -/
def rootBits (k n : Nat) : UInt32 := UInt32.ofNat (rootFrom k (n * Nat.pow 2 (32 * k)) 0 40)

def isPrime (n : Nat) : Bool := 2 ≤ n && (List.range n).all fun d => d < 2 || n % d ≠ 0

/-- The primes below 312, of which there are sixty-four. -/
def primes : List Nat := (List.range 312).filter isPrime

def constants : List UInt32 := primes.map (rootBits 3)

structure Chaining where
  a : UInt32
  b : UInt32
  c : UInt32
  d : UInt32
  e : UInt32
  f : UInt32
  g : UInt32
  h : UInt32

def initial : Chaining :=
  ⟨rootBits 2 2, rootBits 2 3, rootBits 2 5, rootBits 2 7, rootBits 2 11, rootBits 2 13,
    rootBits 2 17, rootBits 2 19⟩

def rotate (w : UInt32) (k : UInt32) : UInt32 := (w >>> k) ||| (w <<< (32 - k))

def word (bs : Bytes) : UInt32 := UInt32.ofNat (BigEndian.toNat bs)

def words : Nat → Bytes → List UInt32
  | 0, _ => []
  | n + 1, bs => word (bs.take 4) :: words n (bs.drop 4)

/-- The next schedule word from the last sixteen, oldest first. -/
def nextWord (ws : List UInt32) : UInt32 :=
  let w15 := ws.getD 1 0
  let w2 := ws.getD 14 0
  let s0 := rotate w15 7 ^^^ rotate w15 18 ^^^ (w15 >>> 3)
  let s1 := rotate w2 17 ^^^ rotate w2 19 ^^^ (w2 >>> 10)
  ws.getD 0 0 + s0 + ws.getD 9 0 + s1

/-- `ws` are the sixteen schedule words from the current one on. -/
def rounds : List UInt32 → List UInt32 → Chaining → Chaining
  | [], _, s => s
  | k :: ks, ws, s =>
    let s1 := rotate s.e 6 ^^^ rotate s.e 11 ^^^ rotate s.e 25
    let ch := (s.e &&& s.f) ^^^ (~~~ s.e &&& s.g)
    let t1 := s.h + s1 + ch + k + ws.getD 0 0
    let s0 := rotate s.a 2 ^^^ rotate s.a 13 ^^^ rotate s.a 22
    let maj := (s.a &&& s.b) ^^^ (s.a &&& s.c) ^^^ (s.b &&& s.c)
    rounds ks (ws.drop 1 ++ [nextWord ws])
      ⟨t1 + s0 + maj, s.a, s.b, s.c, s.d + t1, s.e, s.f, s.g⟩

def compress (s : Chaining) (block : Bytes) : Chaining :=
  let t := rounds constants (words 16 block) s
  ⟨s.a + t.a, s.b + t.b, s.c + t.c, s.d + t.d, s.e + t.e, s.f + t.f, s.g + t.g, s.h + t.h⟩

/-- A one bit, zeros, and the length in bits as the last eight bytes of a block. -/
def pad (bs : Bytes) : Bytes :=
  bs ++ 0x80 :: List.replicate ((119 - bs.length % 64) % 64) 0 ++ BigEndian.ofNat 8 (8 * bs.length)

def compressAll (s : Chaining) (bs : Bytes) : Chaining :=
  if bs.length < 64 then s
  else compressAll (compress s (bs.take 64)) (bs.drop 64)
termination_by bs.length
decreasing_by simp; omega

def digest (bs : Bytes) : Bytes :=
  let s := compressAll initial (pad bs)
  [s.a, s.b, s.c, s.d, s.e, s.f, s.g, s.h].flatMap fun w => BigEndian.ofNat 4 w.toNat

/-- The keyed digest for keys of at most one block. -/
def keyed (key message : Bytes) : Bytes :=
  let key := key ++ List.replicate (64 - key.length) 0
  digest (key.map (· ^^^ 0x5c) ++ digest (key.map (· ^^^ 0x36) ++ message))

end Outbox.Sha256
