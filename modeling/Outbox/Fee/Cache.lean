namespace Outbox.Fee

/-- The last second the clock can show. -/
def lastSecond : Int := 0x7fffffffffffffff

/-- A fee read from the ledger. Only a fresh value is ever served, and a failed refresh leaves the
cache as it was. -/
structure Cache where
  /-- Whole seconds. -/
  ttl : Nat
  value : Option Nat := none
  expiresAt : Int := 0
  refreshes : Nat := 0

namespace Cache

def ofTtl (secs : Nat) : Cache := { ttl := min secs lastSecond.toNat }

def fresh? (c : Cache) (now : Int) : Option Nat := if now < c.expiresAt then c.value else none

def isExpired (c : Cache) (now : Int) : Bool := (c.fresh? now).isNone

/-- A refresh completed at `now`; the expiry stops at the end of the clock. -/
def refresh (c : Cache) (v : Nat) (now : Int) : Cache :=
  { c with
    value := some v
    expiresAt := min (now + c.ttl) lastSecond
    refreshes := c.refreshes + 1 }

end Cache
end Outbox.Fee
