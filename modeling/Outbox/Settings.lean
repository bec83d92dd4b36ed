import Outbox.Span

namespace Outbox

structure ClientSettings where
  endpoint : String
  requestTimeoutSecs : Nat := 60
  syncSendTimeoutSecs : Nat := 180
  syncSendPollIntervalMs : Nat := 1000
  tipCacheTtlSecs : Nat := 12288
  baseFeeCacheTtlSecs : Nat := 12288
  /-- The price on a chain without base fee. -/
  staticGasPriceWei : Nat := 0
  nonceCacheCapacity : Nat := 1024

structure ConfirmerSettings where
  queueSize : Nat := 4096
  workers : Nat := 1
  workerIntervalMs : Nat := 1000
  /-- Absent: as many as the chain recommends. -/
  confirmationBlocks : Option Nat := none

structure WalletSettings where
  privateKeyEnv : Option String := none

structure MetricsSettings where
  enabled : Bool := false
  port : Nat := 9090

structure Settings where
  client : ClientSettings
  confirmer : ConfirmerSettings := {}
  wallet : WalletSettings := {}
  metrics : MetricsSettings := {}

namespace ClientSettings

def requestTimeout (c : ClientSettings) : Span := .ofSecs c.requestTimeoutSecs
def syncSendTimeout (c : ClientSettings) : Span := .ofSecs c.syncSendTimeoutSecs
def syncSendPollInterval (c : ClientSettings) : Span := .ofMillis c.syncSendPollIntervalMs
def tipCacheTtl (c : ClientSettings) : Span := .ofSecs c.tipCacheTtlSecs
def baseFeeCacheTtl (c : ClientSettings) : Span := .ofSecs c.baseFeeCacheTtlSecs

end ClientSettings

def ConfirmerSettings.workerInterval (c : ConfirmerSettings) : Span := .ofMillis c.workerIntervalMs

end Outbox
