import Outbox.Failure

namespace Outbox.Fee

/-- The number of amounts that 256 bits can hold. -/
def amountBound : Nat := Nat.pow 2 256

/-- The tip plus twice the base fee, which leaves room for the base fee to grow until inclusion.
Neither the doubled fee nor the sum may pass 256 bits. -/
def cap (tip baseFee : Nat) : Except Failure Nat :=
  if tip + 2 * baseFee < amountBound then .ok (tip + 2 * baseFee)
  else .error (.build
    ("fee cap overflows (tip " ++ toString tip ++ ", base fee " ++ toString baseFee ++ ")"))

end Outbox.Fee
