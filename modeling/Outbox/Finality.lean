import Outbox.Failure

namespace Outbox

structure Receipt where
  block : Option Nat
  status : Option Nat
deriving DecidableEq

namespace Finality

/-- How many blocks to wait for on a chain nobody configured. -/
def recommended (chainId : Nat) : Nat :=
  if chainId = 1 then 32
  else if chainId = 11155111 ∨ chainId = 5 then 12
  else if chainId = 137 then 128
  else if chainId = 80001 ∨ chainId = 80002 then 32
  else if chainId = 43114 ∨ chainId = 43113 then 1
  else if chainId = 1337 ∨ chainId = 31337 then 0
  else 64

/-- A receipt either decides by itself or names the block to measure from. -/
inductive Reading where
  | decided (failure : Failure)
  | includedAt (block : Nat)

/-- A zero status is a revert whatever the block; without receipt or block the transaction is not
found. -/
def read (hash : Hash) : Option Receipt → Reading
  | none => .decided (.notFound hash)
  | some ⟨_, some 0⟩ => .decided (.reverted hash)
  | some ⟨none, _⟩ => .decided (.notFound hash)
  | some ⟨some b, _⟩ => .includedAt b

/-- Final once the chain has grown `required` blocks past the including one. -/
def depth (hash : Hash) (required included head : Nat) : Except Failure Unit :=
  if head - included < required then .error (.shallow hash (head - included) required)
  else .ok ()

end Finality
end Outbox
