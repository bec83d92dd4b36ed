import Outbox.Send.Prepare

namespace Outbox.Dispatch

open Ledger Nonce

/-- What can happen to a dispatch. Between two steps of one send or worker any others may come. -/
inductive Label where
  | call (k : SendId) (mode : Send.Mode) (signer : Signer) (request : Request)
  | answer (k : SendId) (a : Except Failure Answer) (now : Int)
  | turn (k : SendId) (now : Int)
  | poll (k : SendId)
  | expire (k : SendId)
  | cancel (k : SendId)
  | start
  | take (i : Nat)
  | workerAnswer (i : Nat) (a : Except Failure Answer)
  /-- A check decided without the ledger. -/
  | verdict (i : Nat) (v : Except Failure Unit)
  | tick (i : Nat)
  | leave (i : Nat)
  | stop
  | drain
  /-- A report by hand. -/
  | report (r : Report)
  | track (hash : Hash)
  | reset (who : Address) (next : Nat)
  | release (who : Address) (n : Nat)

/-- A new send starts by asking for the newest header. A number in use is not given out again. -/
def call (d : Dispatch) (k : SendId) (mode : Send.Mode) (signer : Signer) (request : Request) :
    Dispatch :=
  if d.sends.has k then d else { d with sends := d.sends.put k ⟨mode, signer, request, .probe⟩ }

def withConfirmer (d : Dispatch) (f : Confirmer → Confirmer × List Report) : Dispatch :=
  match d.tracker.confirmer with
  | none => d
  | some c =>
    let (c, reports) := f c
    { d with tracker := { d.tracker with confirmer := some c } }.reportAll reports

def start (d : Dispatch) : Dispatch :=
  { d with started := true }.withConfirmer fun c => (c.start, [])

def verdict (d : Dispatch) (i : Nat) (v : Except Failure Unit) : Dispatch :=
  match d.tracker.confirmer with
  | none => d
  | some c =>
    match c.inHand? i with
    | none => d
    | some hash => (d.log (.checked hash c.depth)).withConfirmer fun c => c.verdict i v

/-- A label that does not apply changes nothing. -/
def step [Counter] (d : Dispatch) : Label → Dispatch
  | .call k mode signer request => d.call k mode signer request
  | .answer k a now => d.answer k a now
  | .turn k now => d.turn k now
  | .poll k => d.poll k
  | .expire k => d.expire k
  | .cancel k => d.cancel k
  | .start => d.start
  | .take i => d.withConfirmer fun c => c.take i
  | .workerAnswer i a => d.withConfirmer fun c => c.answer i a
  | .verdict i v => d.verdict i v
  | .tick i => d.withConfirmer fun c => (c.tick i, [])
  | .leave i => d.withConfirmer fun c => (c.leave i, [])
  | .stop => d.withConfirmer fun c => (c.stop, [])
  | .drain => d.withConfirmer Confirmer.drain
  | .report r => d.report r
  | .track hash => (d.track hash).2
  | .reset who next => { d with allocator := d.allocator.reset who next }
  | .release who n => { d with allocator := (d.allocator.release who n none).2 }

def run [Counter] (d : Dispatch) (labels : List Label) : Dispatch := labels.foldl step d

end Outbox.Dispatch
