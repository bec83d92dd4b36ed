import Outbox.Wire.BigEndian

namespace Outbox.Keccak

/-- Twenty-five lanes; the lane at column `x` and row `y` has index `x + 5 * y`. -/
abbrev Lanes := Vector UInt64 25

/-- Columns and rows are counted modulo five. -/
def Lanes.lane (s : Lanes) (x y : Nat) : UInt64 :=
  have : x % 5 + 5 * (y % 5) < 25 := by omega
  s[x % 5 + 5 * (y % 5)]

def ofCells (f : Nat → Nat → UInt64) : Lanes := Vector.ofFn fun i => f (i.val % 5) (i.val / 5)

def rotate (w : UInt64) (k : Nat) : UInt64 :=
  (w <<< UInt64.ofNat k) ||| (w >>> UInt64.ofNat (64 - k))

def column (s : Lanes) (x : Nat) : UInt64 :=
  s.lane x 0 ^^^ s.lane x 1 ^^^ s.lane x 2 ^^^ s.lane x 3 ^^^ s.lane x 4

/-- Every lane takes in the parity of two neighbouring columns. -/
def theta (s : Lanes) : Lanes :=
  let sums : Vector UInt64 5 := Vector.ofFn fun x => column s x.val
  let sum (x : Nat) : UInt64 :=
    have : x % 5 < 5 := by omega
    sums[x % 5]
  ofCells fun x y => s.lane x y ^^^ sum (x + 4) ^^^ rotate (sum (x + 1)) 1

/-- The lanes but the first, in the order in which a walk from column one visits them. -/
def walk : Nat → Nat → Nat → List (Nat × Nat)
  | 0, _, _ => []
  | steps + 1, x, y => (x, y) :: walk steps y ((2 * x + 3 * y) % 5)

/-- The lane met at step `t` of the walk is turned by the `t`-th triangular number. -/
def offsets : Vector Nat 25 :=
  (walk 24 1 0).zipIdx.foldl
    (fun v e =>
      let i := e.1.1 % 5 + 5 * (e.1.2 % 5)
      have : i < 25 := by omega
      v.set i ((e.2 + 1) * (e.2 + 2) / 2 % 64))
    (Vector.replicate 25 0)

def rho (s : Lanes) : Lanes := Vector.zipWith rotate s offsets

def pi (s : Lanes) : Lanes := ofCells fun x y => s.lane (x + 3 * y) x

def chi (s : Lanes) : Lanes :=
  ofCells fun x y => s.lane x y ^^^ (~~~ s.lane (x + 1) y &&& s.lane (x + 2) y)

def iota (s : Lanes) (c : UInt64) : Lanes := s.set 0 (s.lane 0 0 ^^^ c)

/-- One step of the shift register with feedback polynomial x⁸ + x⁶ + x⁵ + x⁴ + 1. -/
def shift (w : Nat) : Nat := if 2 * w < 256 then 2 * w else (2 * w) ^^^ 0x171

/-- The lowest bits that the register shows, from state `w` on. -/
def register : Nat → Nat → List Bool
  | 0, _ => []
  | steps + 1, w => (w % 2 = 1) :: register steps (shift w)

/-- Seven register bits go to the places `2 ^ j - 1` of a round's constant. -/
def spread (bits : List Bool) : UInt64 :=
  (bits.zipIdx.map fun e => if e.1 then UInt64.ofNat (Nat.pow 2 (Nat.pow 2 e.2 - 1)) else 0).foldl (· ||| ·) 0

def sevens : Nat → List Bool → List UInt64
  | 0, _ => []
  | rounds + 1, bits => spread (bits.take 7) :: sevens rounds (bits.drop 7)

def roundConstants : List UInt64 := sevens 24 (register 168 1)

def permute (s : Lanes) : Lanes :=
  roundConstants.foldl (fun s c => iota (chi (pi (rho (theta s)))) c) s

/-- Bytes taken in between two permutations. -/
def rate : Nat := 136

def littleEndian (bs : Bytes) : UInt64 := bs.foldr (fun b w => (w <<< 8) ||| b.toUInt64) 0

def absorb (s : Lanes) (block : Bytes) : Lanes :=
  permute <| Vector.ofFn fun i =>
    s[i] ^^^ littleEndian ((block.drop (8 * i.val)).take 8)

/-- Fills the last block: a one, zeros, and the top bit of the last byte. -/
def pad (bs : Bytes) : Bytes :=
  let free := rate - bs.length
  if free = 1 then bs ++ [0x81] else bs ++ 0x01 :: List.replicate (free - 2) 0 ++ [0x80]

def absorbAll (s : Lanes) (bs : Bytes) : Lanes :=
  if bs.length < rate then absorb s (pad bs)
  else absorbAll (absorb s (bs.take rate)) (bs.drop rate)
termination_by bs.length
decreasing_by simp [rate] at *; omega

def laneBytes (w : UInt64) : Bytes := (BigEndian.ofNat 8 w.toNat).reverse

def digest (bs : Bytes) : Bytes :=
  let s := absorbAll (Vector.replicate 25 0) bs
  laneBytes (s.lane 0 0) ++ laneBytes (s.lane 1 0) ++ laneBytes (s.lane 2 0) ++
    laneBytes (s.lane 3 0)

end Outbox.Keccak
