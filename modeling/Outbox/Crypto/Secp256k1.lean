namespace Outbox.Secp256k1

/-- The field has `p` elements. -/
def p : Nat := 0xfffffffffffffffffffffffffffffffffffffffffffffffffffffffefffffc2f

/-- The prime order of the base point. -/
def n : Nat := 0xfffffffffffffffffffffffffffffffebaaedce6af48a03bbfd25e8cd0364141

/-- `(x, y, z)` stands for the point `(x / z², y / z³)` of y² = x³ + 7, so that adding needs no
division, and `z = 0` for the point at infinity. -/
structure Point where
  x : Nat
  y : Nat
  z : Nat

def infinity : Point := ⟨1, 1, 0⟩

def base : Point :=
  ⟨0x79be667ef9dcbbac55a06295ce870b07029bfcdb2dce28d959f2815b16f81798,
   0x483ada7726a3c4655da4fbfc0e1108a8fd17b448a68554199c47d08ffb10d4b8, 1⟩

/-- Subtraction modulo `m` of two reduced numbers. -/
def subMod (a b m : Nat) : Nat := (a + (m - b)) % m

def powMod (b e m : Nat) : Nat :=
  if e = 0 then 1 % m
  else
    let h := powMod (b * b % m) (e / 2) m
    if e % 2 = 1 then b * h % m else h
termination_by e

/-- The inverse modulo a prime. -/
def invMod (a m : Nat) : Nat := powMod (a % m) (m - 2) m

def double (q : Point) : Point :=
  let yy := q.y * q.y % p
  let s := 4 * q.x * yy % p
  let m := 3 * (q.x * q.x) % p
  let x := subMod (m * m % p) (2 * s % p) p
  ⟨x, subMod (m * subMod s x p % p) (8 * (yy * yy % p) % p) p, 2 * q.y * q.z % p⟩

def add (q r : Point) : Point :=
  if q.z = 0 then r
  else if r.z = 0 then q
  else
    let qz := q.z * q.z % p
    let rz := r.z * r.z % p
    let u := q.x * rz % p
    let v := r.x * qz % p
    let s := q.y * (rz * r.z % p) % p
    let t := r.y * (qz * q.z % p) % p
    if u = v then if s = t then double q else infinity
    else
      let h := subMod v u p
      let d := subMod t s p
      let hh := h * h % p
      let hhh := hh * h % p
      let w := u * hh % p
      let x := subMod (subMod (d * d % p) hhh p) (2 * w % p) p
      ⟨x, subMod (d * subMod w x p % p) (s * hhh % p) p, h * (q.z * r.z % p) % p⟩

/-- Doubling for every binary digit of `k`, adding for those that are one. -/
def mul (k : Nat) (q : Point) : Point :=
  if k = 0 then infinity
  else
    let h := double (mul (k / 2) q)
    if k % 2 = 1 then add h q else h
termination_by k

/-- The two coordinates of a finite point. -/
def coordinates (q : Point) : Nat × Nat :=
  let i := invMod q.z p
  let ii := i * i % p
  (q.x * ii % p, q.y * (ii * i % p) % p)

end Outbox.Secp256k1
