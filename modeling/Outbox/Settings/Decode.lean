import Outbox.Settings
import Outbox.Toml.Value

namespace Outbox.Settings

open Toml

/-- A group of settings is a table by name or an array by position; unknown names and surplus
positions are ignored. -/
inductive Group where
  | named (entries : List (String × Value))
  | positional (items : List Value)

/-- A date counts as a table in which no name is known. -/
def Group.ofValue? : Value → Option Group
  | .table es => some (.named es)
  | .array vs => some (.positional vs)
  | .moment => some (.named [])
  | _ => none

def Group.get? (g : Group) (position : Nat) (name : String) : Option Value :=
  match g with
  | named es => es.lookup name
  | positional vs => vs[position]?

def text? : Value → Option String
  | .text s => some s
  | _ => none

/-- A count below `bound`. -/
def count? (bound : Nat) : Value → Option Nat
  | .integer n => if 0 ≤ n ∧ n < bound then some n.toNat else none
  | _ => none

def word? : Value → Option Nat := count? (Nat.pow 2 64)

def flag? : Value → Option Bool
  | .boolean b => some b
  | _ => none

namespace Group

def required {α : Type} (g : Group) (position : Nat) (name : String) (read : Value → Option α) :
    Option α :=
  (g.get? position name).bind read

def defaulted {α : Type} (g : Group) (position : Nat) (name : String) (default : α)
    (read : Value → Option α) : Option α :=
  match g.get? position name with
  | none => some default
  | some v => read v

/-- By name it may be left out; by position its place must be filled. -/
def optional {α : Type} (g : Group) (position : Nat) (name : String) (read : Value → Option α) :
    Option (Option α) :=
  match g, g.get? position name with
  | named _, none => some none
  | positional _, none => none
  | _, some v => (read v).map some

end Group

def client? (v : Value) : Option ClientSettings := do
  let g ← Group.ofValue? v
  let endpoint ← g.required 0 "endpoint" text?
  let d : ClientSettings := { endpoint := endpoint }
  return {
    endpoint := endpoint
    requestTimeoutSecs := ← g.defaulted 1 "request_timeout_secs" d.requestTimeoutSecs word?
    syncSendTimeoutSecs := ← g.defaulted 2 "sync_send_timeout_secs" d.syncSendTimeoutSecs word?
    syncSendPollIntervalMs :=
      ← g.defaulted 3 "sync_send_poll_interval_ms" d.syncSendPollIntervalMs word?
    tipCacheTtlSecs := ← g.defaulted 4 "tip_cache_ttl_secs" d.tipCacheTtlSecs word?
    baseFeeCacheTtlSecs := ← g.defaulted 5 "base_fee_cache_ttl_secs" d.baseFeeCacheTtlSecs word?
    staticGasPriceWei := ← g.defaulted 6 "static_gas_price_wei" d.staticGasPriceWei word?
    nonceCacheCapacity := ← g.defaulted 7 "nonce_cache_capacity" d.nonceCacheCapacity word? }

def confirmer? (v : Value) : Option ConfirmerSettings := do
  let g ← Group.ofValue? v
  let d : ConfirmerSettings := {}
  return {
    queueSize := ← g.defaulted 0 "queue_size" d.queueSize word?
    workers := ← g.defaulted 1 "workers" d.workers word?
    workerIntervalMs := ← g.defaulted 2 "worker_interval_ms" d.workerIntervalMs word?
    confirmationBlocks := ← g.optional 3 "confirmation_blocks" word? }

def wallet? (v : Value) : Option WalletSettings := do
  let g ← Group.ofValue? v
  return { privateKeyEnv := ← g.optional 0 "private_key_env" text? }

def metrics? (v : Value) : Option MetricsSettings := do
  let g ← Group.ofValue? v
  return {
    enabled := ← g.required 0 "enabled" flag?
    port := ← g.required 1 "port" (count? 65536) }

def ofEntries? (es : List (String × Value)) : Option Settings := do
  let g := Group.named es
  return {
    client := ← g.required 0 "client" client?
    confirmer := ← g.defaulted 1 "confirmer" {} confirmer?
    wallet := ← g.defaulted 2 "wallet" {} wallet?
    metrics := ← g.defaulted 3 "metrics" {} metrics? }

end Outbox.Settings
