import Outbox.Span

namespace Outbox

structure Metrics where
  submittedAsync : Nat := 0
  submittedSync : Nat := 0
  confirmed : Nat := 0
  failed : Nat := 0
  nonceAllocated : Nat := 0
  nonceReleased : Nat := 0
  nonceEvicted : Nat := 0
  refreshTip : Nat := 0
  refreshBaseFee : Nat := 0
  syncTimeouts : Nat := 0
  /-- How long the synchronous sends took that ended in time. -/
  latencies : List Span := []

namespace Metrics

def nanos (s : Span) : Nat := 1000000000 * s.secs + s.nanos

/-- Seconds as a decimal number. -/
def seconds (n : Nat) : String :=
  toString (n / 1000000000) ++ Span.decimals 9 (n % 1000000000)

structure Series where
  labels : String
  count : Nat

/-- A family of counters; a series without counts does not appear. -/
def family (name help : String) (series : List Series) : List String :=
  match series.filter fun s => 0 < s.count with
  | [] => []
  | shown =>
    ["# HELP " ++ name ++ " " ++ help, "# TYPE " ++ name ++ " counter"] ++
      shown.map fun s => name ++ s.labels ++ " " ++ toString s.count

def label (name value : String) : String := "\x7b" ++ name ++ "=\"" ++ value ++ "\"\x7d"

/-- Upper ends of the latency classes, in milliseconds. -/
def bounds : List Nat := [500, 1000, 2500, 5000, 10000, 30000, 60000, 120000, 300000]

def latencyName : String := "tx_admission_sync_send_latency_seconds"

/-- Every class counts all latencies up to its end. -/
def histogram (latencies : List Span) : List String :=
  match latencies with
  | [] => []
  | ls =>
    ["# HELP " ++ latencyName ++ " Time from build to settlement of a synchronous send",
      "# TYPE " ++ latencyName ++ " histogram"] ++
      (bounds.map fun ms =>
        latencyName ++ "_bucket" ++ label "le" (seconds (1000000 * ms)) ++ " " ++
          toString (ls.filter fun s => nanos s ≤ 1000000 * ms).length) ++
      [latencyName ++ "_bucket" ++ label "le" "+Inf" ++ " " ++ toString ls.length,
        latencyName ++ "_sum " ++ seconds ((ls.map nanos).foldl (· + ·) 0),
        latencyName ++ "_count " ++ toString ls.length]

/-- Families and their series stand in alphabetical order; what never happened is not shown. -/
def page (m : Metrics) : String :=
  let lines :=
    family "tx_admission_fee_cache_refreshes_total" "Fee cache refreshes from the remote ledger"
      [⟨label "cache" "base_fee", m.refreshBaseFee⟩, ⟨label "cache" "tip", m.refreshTip⟩] ++
    family "tx_admission_nonce_events_total" "Nonce allocator events"
      [⟨label "event" "allocated", m.nonceAllocated⟩, ⟨label "event" "evicted", m.nonceEvicted⟩,
        ⟨label "event" "released", m.nonceReleased⟩] ++
    histogram m.latencies ++
    family "tx_admission_sync_send_timeouts_total" "Synchronous sends that gave up waiting"
      [⟨"", m.syncTimeouts⟩] ++
    family "tx_admission_transactions_confirmed_total" "Total transactions confirmed"
      [⟨"", m.confirmed⟩] ++
    family "tx_admission_transactions_failed_total" "Total transactions rejected or reverted"
      [⟨"", m.failed⟩] ++
    family "tx_admission_transactions_submitted_total"
      "Total transactions accepted by the endpoint"
      [⟨label "mode" "async", m.submittedAsync⟩, ⟨label "mode" "sync", m.submittedSync⟩]
  String.join (lines.map (· ++ "\n"))

/-- What a visitor of the page gets; a server that is not reached answers nothing. -/
structure Response where
  status : Nat
  body : String

def Response.none : Response := ⟨0, ""⟩

/-- There is one page. -/
def respond (m : Metrics) (path : String) : Response :=
  if path = "/metrics" then ⟨200, m.page⟩ else ⟨404, ""⟩

end Metrics
end Outbox
