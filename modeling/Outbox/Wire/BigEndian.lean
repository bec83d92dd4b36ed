namespace Outbox

abbrev Bytes := List UInt8

namespace BigEndian

/-- Each byte shifts what was read before it by eight bits. -/
def toNat (bs : Bytes) : Nat := bs.foldl (fun n b => 256 * n + b.toNat) 0

/-- Exactly `width` bytes; what does not fit is cut off at the top. -/
def ofNat : Nat → Nat → Bytes
  | 0, _ => []
  | width + 1, n => ofNat width (n / 256) ++ [UInt8.ofNat (n % 256)]

/-- The bytes of `n` with no leading zero; zero has none. -/
def shortest (n : Nat) : Bytes :=
  if n = 0 then [] else shortest (n / 256) ++ [UInt8.ofNat (n % 256)]
termination_by n

theorem toNat_nil : toNat [] = 0 := rfl

theorem toNat_append_singleton (bs : Bytes) (b : UInt8) :
    toNat (bs ++ [b]) = 256 * toNat bs + b.toNat := by
  simp [toNat]

theorem length_ofNat (width n : Nat) : (ofNat width n).length = width := by
  induction width generalizing n with
  | zero => rfl
  | succ w ih => simp [ofNat, ih]

theorem toNat_shortest (n : Nat) : toNat (shortest n) = n := by
  induction n using Nat.strongRecOn with
  | _ n ih =>
    unfold shortest
    split
    · next h => simp [h, toNat_nil]
    · next h =>
      rw [toNat_append_singleton, ih (n / 256) (by omega)]
      simp
      omega

end BigEndian
end Outbox
