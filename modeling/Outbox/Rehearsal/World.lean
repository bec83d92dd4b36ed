import Outbox.Send.Step

namespace Outbox.Rehearsal

open Ledger

/-- Numbers are counted in 64 bits when the program runs. -/
instance counter : Nonce.Counter := .word

/-- A question put to the ledger on behalf of nobody's transaction. -/
inductive Errand where
  | single (q : Query) (operation : String)
  | check (hash : Hash) (required : Nat) (stage : Check)

def Errand.query : Errand → Query
  | single q _ => q
  | check hash _ stage => stage.query hash

inductive Actor where
  | send (k : SendId)
  | worker (i : Nat)
  | errand
deriving DecidableEq

/-- What happens when a time has come: an answer of the ledger, a look at a handed-over
transaction, or a worker's tick. -/
inductive Cause where
  | answer (actor : Actor) (q : Query)
  | poll (k : SendId)
  | tick (i : Nat)

structure Alarm where
  due : Nat
  cause : Cause

def Alarm.isFor (actor : Actor) (a : Alarm) : Bool :=
  match a.cause with
  | .answer b _ => b = actor
  | .poll k => actor = .send k
  | .tick _ => false

def Alarm.isTick (a : Alarm) : Bool :=
  match a.cause with
  | .tick _ => true
  | _ => false

/-- Where verdicts come from that are not the ledger's: a table, and what holds for the rest. -/
structure Jury where
  table : Keyed Hash Failure := []
  confirms : Bool

/-- The failures in the table are about the hash they are looked up for. -/
def Jury.verdict (j : Jury) (hash : Hash) : Except Failure Unit :=
  match j.table.get? hash with
  | some f => .error f
  | none => if j.confirms then .ok () else .error (.notFound hash)

structure Ended where
  id : SendId
  time : Nat
  result : Except Fault Send.Outcome

/-- Time stands still while anything can happen; then it moves on to the next instant at which
something is due. All that happens to the dispatch happens through its labelled steps. -/
structure World where
  now : Nat := 0
  dispatch : Dispatch
  ledger : Script
  clock : Fee.Clock := .ledger
  jury : Option Jury := none
  /-- Milliseconds for a call up to the hand-over. -/
  requestTime : Nat
  /-- Milliseconds of waiting after it. -/
  waitTime : Nat
  /-- In the order in which they were set. -/
  alarms : List Alarm := []
  /-- When a send runs out of time. -/
  deadlines : Keyed SendId Nat := []
  /-- Idle workers in the order in which they take jobs. -/
  line : List Nat := []
  errand : Option Errand := none
  errandDeadline : Option Nat := none
  reply : Option (Except Failure (Option Answer)) := none
  /-- Events with their times, newest first. -/
  log : List (Nat × Event) := []
  ended : List Ended := []

namespace World

def confirmer? (w : World) : Option Confirmer := w.dispatch.tracker.confirmer

def fees (w : World) : Int := w.clock.now w.ledger

def setAlarm (w : World) (due : Nat) (cause : Cause) : World :=
  { w with alarms := w.alarms ++ [⟨due, cause⟩] }

/-- The actor waits for nothing any more. -/
def forget (w : World) (actor : Actor) : World :=
  { w with alarms := w.alarms.filter fun a => !a.isFor actor }

def forgetSend (w : World) (k : SendId) : World :=
  { w with deadlines := w.deadlines.erase k }.forget (.send k)

/-- Moves what the dispatch has noted down into the world's records, with the time. -/
def harvest (w : World) : World :=
  let d := w.dispatch
  let w := { w with
    dispatch := { d with events := [], results := [] }
    log := d.events.map (fun e => (w.now, e)) ++ w.log
    ended := d.results.map (fun r => ⟨r.1, w.now, r.2⟩) ++ w.ended }
  (d.results.map (·.1)).foldl forgetSend w

def apply (w : World) (l : Dispatch.Label) : World :=
  { w with dispatch := w.dispatch.step l }.harvest

/-- A timer that fires more than five milliseconds late counts its period from then on. -/
def nextTick (due period now : Nat) : Nat := if due + 5 < now then now + period else due + period

def query? (w : World) : Actor → Option Query
  | .send k => (w.dispatch.sends.get? k).bind Send.query?
  | .worker i =>
    match w.confirmer? with
    | some c => if w.jury.isSome ∧ (c.inHand? i).isSome then none else c.query? i
    | none => none
  | .errand => w.errand.map Errand.query

/-- The end of an errand, or its next question. -/
def errandAnswer (w : World) (a : Except Failure Answer) : World :=
  match w.errand with
  | none => w
  | some (.single _ _) =>
    { w with errand := none, errandDeadline := none, reply := some (a.map some) }
  | some (.check hash required stage) =>
    match stage.answer hash required a with
    | .inl next => { w with errand := some (.check hash required next) }
    | .inr v => { w with errand := none, reply := some (v.map fun _ => none) }

def answer (w : World) (actor : Actor) (q : Query) : World :=
  let (a, ledger) := w.ledger.answer q
  let w := { w with ledger := ledger }
  match actor with
  | .send k => w.apply (.answer k a w.fees)
  | .worker i => w.apply (.workerAnswer i a)
  | .errand => w.errandAnswer a

/-- A send that has just handed over looks at once, and its wait begins. A wait of no length is
over after that look, before anybody else goes on. -/
def beginWait (w : World) (k : SendId) : World :=
  match w.dispatch.sends.get? k with
  | some ⟨_, _, _, .settle _⟩ =>
    let w := ({ w with deadlines := w.deadlines.put k (w.now + w.waitTime) }.setAlarm
      (w.now + w.dispatch.terms.pollInterval) (.poll k)).apply (.poll k)
    if w.waitTime = 0 then (w.forgetSend k).apply (.expire k) else w
  | _ => w

def isIdle (w : World) (i : Nat) : Bool :=
  match w.confirmer? with
  | none => false
  | some c =>
    match c.workers[i]? with
    | some worker => worker.activity = .idle
    | none => false

/-- An idle worker stands in the line for jobs. -/
def joinLine (w : World) (i : Nat) : World :=
  if w.isIdle i ∧ !w.line.contains i then { w with line := w.line ++ [i] } else w

/-- An actor goes on until it has to wait. The ledger's answers that take no time come at once. -/
def drive : Nat → Actor → World → World
  | 0, _, w => w
  | fuel + 1, actor, w =>
    match w.query? actor with
    | some q =>
      let w := { w with ledger := w.ledger.put q }
      let delay := w.ledger.delay q
      if delay = 0 then drive fuel actor (w.answer actor q)
      else w.setAlarm (w.now + delay) (.answer actor q)
    | none =>
      match actor with
      | .send k => w.beginWait k
      | .errand => w
      | .worker i =>
        match w.jury, w.confirmer?.bind fun c => c.inHand? i with
        | some jury, some hash => drive fuel actor (w.apply (.verdict i (jury.verdict hash)))
        | _, _ => w.joinLine i

/-- A send asks at most five questions; a worker two for every hash that it watches. -/
def driveBound (w : World) : Nat :=
  match w.confirmer? with
  | none => 8
  | some c =>
    c.workers.foldl
      (fun n worker => n + 2 * match worker.activity with
        | .checking _ _ rest _ => rest.length + 1
        | _ => worker.watching.length)
      8

def goOn (w : World) (actor : Actor) : World := drive w.driveBound actor w

def turn? (w : World) : Option World :=
  (w.dispatch.sends.find? fun (k, s) =>
    match s.stage with
    | .tipTurn => w.dispatch.tip.hasTurn k
    | .baseTurn _ => w.dispatch.baseFee.hasTurn k
    | _ => false).map fun (k, _) => (w.apply (.turn k w.fees)).goOn (.send k)

def leave? (w : World) : Option World :=
  match w.confirmer?, w.line with
  | some c, i :: line =>
    if c.stopping then some ({ w with line := line }.apply (.leave i)) else none
  | _, _ => none

def take? (w : World) : Option World :=
  match w.confirmer?, w.line with
  | some c, i :: line =>
    if c.queue.isEmpty then none
    else some (({ w with line := line }.apply (.take i)).goOn (.worker i))
  | _, _ => none

/-- Ticks reach idle workers only; a busy one finds its tick when it is done. -/
def isReady (w : World) (a : Alarm) : Bool :=
  match a.cause with
  | .tick i => w.isIdle i
  | _ => true

def fire (w : World) (a : Alarm) : World :=
  match a.cause with
  | .answer actor q => (w.answer actor q).goOn actor
  | .poll k =>
    (w.setAlarm (nextTick a.due w.dispatch.terms.pollInterval w.now) (.poll k)).apply (.poll k)
  | .tick i =>
    let interval := match w.confirmer? with
      | some c => c.interval
      | none => 1
    let w := { w with line := w.line.filter (· ≠ i) }
    ((w.setAlarm (nextTick a.due interval w.now) (.tick i)).apply (.tick i)).goOn (.worker i)

/-- The first alarm in a list that goes off now, and the others. -/
def split? (w : World) : List Alarm → Option (Alarm × List Alarm)
  | [] => none
  | a :: rest =>
    if a.due ≤ w.now && w.isReady a then some (a, rest)
    else (w.split? rest).map fun (b, others) => (b, a :: others)

def alarm? (w : World) : Option World :=
  (w.split? w.alarms).map fun (a, others) => { w with alarms := others }.fire a

def expire? (w : World) : Option World :=
  (w.deadlines.find? fun e => e.2 ≤ w.now).map fun (k, _) => (w.forgetSend k).apply (.expire k)

def errandExpire? (w : World) : Option World :=
  match w.errand, w.errandDeadline with
  | some (.single _ operation), some due =>
    if due ≤ w.now then
      some ({ w with
        errand := none, errandDeadline := none
        reply := some (.error (.timeout operation)) }.forget .errand)
    else none
  | _, _ => none

/-- One thing that can happen at this instant. Whoever can go on does so before time is up. -/
def next? (w : World) : Option World :=
  w.turn? <|> w.leave? <|> w.take? <|> w.alarm? <|> w.expire? <|> w.errandExpire?

def settleWith : Nat → World → World
  | 0, w => w
  | fuel + 1, w =>
    match w.next? with
    | none => w
    | some w => settleWith fuel w

/-- More than can happen at one instant: every send has two turns, five answers, a look and an
end; every worker a tick, and every job is taken once. -/
def settleBound (w : World) : Nat :=
  let jobs := match w.confirmer? with
    | none => 0
    | some c => c.queue.length + 4 * c.workers.length
  16 + 16 * w.dispatch.sends.length + 2 * w.alarms.length + 4 * jobs

/-- Lets happen all that can happen now. -/
def settle (w : World) : World := settleWith w.settleBound w

/-- The next instant at which something is due. -/
def nextDue? (w : World) : Option Nat :=
  let dues := (w.alarms.filter w.isReady).map (·.due) ++ w.deadlines.map (·.2) ++
    w.errandDeadline.toList
  (dues.filter fun t => w.now < t).min?

def elapseWith : Nat → Nat → World → World
  | 0, goal, w => { w with now := goal }
  | fuel + 1, goal, w =>
    match w.nextDue? with
    | some t =>
      if t ≤ goal then elapseWith fuel goal { w with now := t }.settle
      else { w with now := goal }
    | none => { w with now := goal }

/-- Lets `ms` milliseconds pass. Every stop on the way is at least one millisecond long. -/
def elapse (w : World) (ms : Nat) : World := elapseWith ms (w.now + ms) w.settle

/-- Lets time pass until `done`, at most `ms` milliseconds. -/
def awaitWith (done : World → Bool) : Nat → World → World
  | 0, w => w
  | fuel + 1, w =>
    if done w then w
    else
      match w.nextDue? with
      | none => w
      | some t => awaitWith done fuel { w with now := t }.settle

def await (w : World) (done : World → Bool) (ms : Nat) : World := awaitWith done (ms + 1) w.settle

/-- Starts a send in the background. -/
def begin (w : World) (k : SendId) (mode : Send.Mode) (signer : Signer) (request : Request) :
    World :=
  let w := w.apply (.call k mode signer request)
  { w with deadlines := w.deadlines.put k (w.now + w.requestTime) }.goOn (.send k)

def result? (w : World) (k : SendId) : Option (Except Fault Send.Outcome) :=
  (w.ended.find? fun e => e.id = k).map (·.result)

/-- Starts a send and stays with it to its end. -/
def callAndWait (w : World) (k : SendId) (mode : Send.Mode) (signer : Signer)
    (request : Request) : World :=
  (w.begin k mode signer request).await (fun w => (w.result? k).isSome)
    (w.requestTime + w.waitTime + 2)

def isRunning (w : World) (k : SendId) : Bool := w.dispatch.sends.has k

def cancel (w : World) (k : SendId) : World := ((w.apply (.cancel k)).forgetSend k).settle

/-- The longest that the ledger takes for anything, or that it still takes. -/
def slowest (w : World) : Nat :=
  max ((w.ledger.delays.map (·.2)).foldl max 0)
    ((w.alarms.map fun a => a.due - w.now).foldl max 0)

/-- Runs an errand to its end; a single question is bounded by the time for a request. -/
def runErrand (w : World) (e : Errand) : World :=
  let deadline := match e with
    | .single _ _ => some (w.now + w.requestTime)
    | .check _ _ _ => none
  let w := { w with errand := some e, errandDeadline := deadline, reply := none }
  (w.goOn .errand).await (fun w => w.reply.isSome) (w.requestTime + 2 * w.slowest + 2)

/-- Workers that come start with a tick. -/
def start (w : World) : World :=
  let fresh := match w.confirmer? with
    | some c => c.workers.isEmpty
    | none => false
  let w := w.apply .start
  match fresh, w.confirmer? with
  | true, some c =>
    let crew := List.range c.workers.length
    (crew.foldl (fun (w : World) i => (w.joinLine i).setAlarm w.now (.tick i)) { w with line := [] }).settle
  | _, _ => w.settle

def allExited (w : World) : Bool :=
  match w.confirmer? with
  | some c => c.allExited
  | none => true

/-- Stops the confirmer: the workers finish what they have in hand, the rest of the queue is
dropped. -/
def stop (w : World) : World :=
  let hands := match w.confirmer? with
    | some c =>
      c.workers.foldl
        (fun n worker => n + match worker.activity with
          | .checking _ _ rest _ => rest.length + 1
          | _ => 1)
        0
    | none => 0
  let w := (w.apply .stop).await allExited ((2 * hands + 2) * w.slowest + 1)
  ({ w with alarms := w.alarms.filter (!·.isTick), line := [] }.apply .drain).settle

def report (w : World) (r : Report) : World := (w.apply (.report r)).settle

def track (w : World) (hash : Hash) : Except Failure Unit × World :=
  let (outcome, d) := w.dispatch.track hash
  (outcome, { w with dispatch := d }.harvest.settle)

/-- Puts a job into the confirmer's queue without anybody tracking it. -/
def enqueue (w : World) (job : Job) : Except Failure Unit × World :=
  match w.dispatch.push job with
  | .error f => (.error f, w.settle)
  | .ok d => (.ok (), { w with dispatch := d }.settle)

end World
end Outbox.Rehearsal
