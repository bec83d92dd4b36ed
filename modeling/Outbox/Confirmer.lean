import Outbox.Ledger.Check

namespace Outbox

open Ledger

inductive Job where
  | submit (tx : Signed)
  /-- A transaction that is on its way already. -/
  | track (hash : Hash)
deriving DecidableEq

inductive Report where
  | sent (hash : Hash)
  | confirmed (hash : Hash)
  | failed (hash : Hash) (failure : Failure)
deriving DecidableEq

inductive Activity where
  | idle
  | submitting (tx : Signed)
  /-- A pass over the watched hashes: the one in hand, those to come, those to keep. -/
  | checking (hash : Hash) (check : Check) (rest kept : List Hash)
  | exited
deriving DecidableEq

structure Worker where
  activity : Activity := .idle
  watching : List Hash := []
deriving DecidableEq

/-- A queue of bounded length and a crew of workers. A worker submits a transaction and from then on
watches its hash: at every tick it checks all hashes it watches, one after the other. What happens
to a transaction is told in reports. -/
structure Confirmer where
  /-- Jobs that may wait. -/
  size : Nat
  crew : Nat
  /-- Milliseconds between two ticks; workers without ticks do not get to work. -/
  interval : Nat
  /-- Blocks on top of the including one that make a transaction final. -/
  depth : Nat
  queue : List Job := []
  stopping : Bool := false
  /-- Reports are wanted. -/
  started : Bool := false
  workers : List Worker := []

namespace Confirmer

/-- At least one job may wait and one worker works; without a given depth the chain's is used. -/
def ofSettings (size crew interval : Nat) (depth : Option Nat) (chainId : Nat) : Confirmer where
  size := max size 1
  crew := max crew 1
  interval := interval
  depth := depth.getD (Finality.recommended chainId)

/-- A job is taken in at the end of the queue. -/
def push (c : Confirmer) (job : Job) : Except Failure Confirmer :=
  if c.stopping then .error (.enqueue "confirmer stopped" none)
  else if c.queue.length < c.size then .ok { c with queue := c.queue ++ [job] }
  else .error (.enqueue "confirmer queue full" none)

/-- Workers come once; a second start while there are any changes nothing. -/
def start (c : Confirmer) : Confirmer :=
  match c.workers with
  | [] =>
    let activity := if c.interval = 0 then .exited else .idle
    { c with started := true, workers := List.replicate c.crew ⟨activity, []⟩ }
  | _ => c

/-- What a worker does after a job or a pass: it leaves if the crew is to stop. -/
def resting (c : Confirmer) : Activity := if c.stopping then .exited else .idle

def change (c : Confirmer) (i : Nat) (w : Worker) : Confirmer :=
  { c with workers := c.workers.set i w }

/-- An idle worker takes the first job. A hash to track needs no submission. -/
def take (c : Confirmer) (i : Nat) : Confirmer × List Report :=
  match c.workers[i]?, c.queue with
  | some ⟨.idle, watching⟩, job :: queue =>
    let c := { c with queue := queue }
    match job with
    | .submit tx => (c.change i ⟨.submitting tx, watching⟩, [])
    | .track hash => (c.change i ⟨c.resting, watching ++ [hash]⟩, [.sent hash])
  | _, _ => (c, [])

/-- The next hash of a pass, or the end of it. -/
def proceed (c : Confirmer) (i : Nat) (rest kept : List Hash) : Confirmer :=
  match rest with
  | [] => c.change i ⟨c.resting, kept⟩
  | hash :: rest => c.change i ⟨.checking hash .receipt rest kept, []⟩

/-- A tick starts a pass if an idle worker watches anything. -/
def tick (c : Confirmer) (i : Nat) : Confirmer :=
  match c.workers[i]? with
  | some ⟨.idle, hash :: rest⟩ => c.proceed i (hash :: rest) []
  | _ => c

/-- Only finality and a revert end the watching of a hash; whatever else a check says, the hash is
checked again at a later tick. -/
def decide (c : Confirmer) (i : Nat) (hash : Hash) (rest kept : List Hash) :
    Except Failure Unit → Confirmer × List Report
  | .ok () => (c.proceed i rest kept, [.confirmed hash])
  | .error (.reverted h) => (c.proceed i rest kept, [.failed hash (.reverted h)])
  | .error _ => (c.proceed i rest (kept ++ [hash]), [])

/-- A verdict on the hash in hand. -/
def verdict (c : Confirmer) (i : Nat) (v : Except Failure Unit) : Confirmer × List Report :=
  match c.workers[i]? with
  | some ⟨.checking hash _ rest kept, _⟩ => c.decide i hash rest kept v
  | _ => (c, [])

/-- The ledger answered what the worker asked. -/
def answer (c : Confirmer) (i : Nat) (a : Except Failure Answer) : Confirmer × List Report :=
  match c.workers[i]? with
  | some ⟨.submitting tx, watching⟩ =>
    match a with
    | .ok _ => (c.change i ⟨c.resting, watching ++ [tx.hash]⟩, [.sent tx.hash])
    | .error f => (c.change i ⟨c.resting, watching⟩, [.failed tx.hash f.asSubmission])
  | some ⟨.checking hash check rest kept, watching⟩ =>
    match check.answer hash c.depth a with
    | .inl next => (c.change i ⟨.checking hash next rest kept, watching⟩, [])
    | .inr v => c.decide i hash rest kept v
  | _ => (c, [])

/-- What a worker waits for the ledger to answer. -/
def query? (c : Confirmer) (i : Nat) : Option Query :=
  match c.workers[i]? with
  | some ⟨.submitting tx, _⟩ => some (.submit tx)
  | some ⟨.checking hash check _ _, _⟩ => some (check.query hash)
  | _ => none

/-- The hash that a worker is checking. -/
def inHand? (c : Confirmer) (i : Nat) : Option Hash :=
  match c.workers[i]? with
  | some ⟨.checking hash _ _ _, _⟩ => some hash
  | _ => none

def stop (c : Confirmer) : Confirmer := { c with stopping := true }

/-- An idle worker notices that the crew is to stop. -/
def leave (c : Confirmer) (i : Nat) : Confirmer :=
  match c.workers[i]? with
  | some ⟨.idle, watching⟩ => if c.stopping then c.change i ⟨.exited, watching⟩ else c
  | _ => c

def hasExited (c : Confirmer) (i : Nat) : Bool :=
  match c.workers[i]? with
  | some w => w.activity = .exited
  | none => true

def allExited (c : Confirmer) : Bool := c.workers.all fun w => w.activity = .exited

def dropped : Job → List Report
  | .submit tx => [.failed tx.hash (.submission "confirmer stopped" none)]
  | .track _ => []

/-- The end of a stop, once all workers have left: what was never submitted is reported as failed,
if anybody wants to know. -/
def drain (c : Confirmer) : Confirmer × List Report :=
  if c.stopping ∧ c.allExited then
    ({ c with queue := [], workers := [] }, if c.started then c.queue.flatMap dropped else [])
  else (c, [])

end Confirmer
end Outbox
