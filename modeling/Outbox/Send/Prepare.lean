import Outbox.Send.Dispatch

namespace Outbox.Dispatch

open Ledger Nonce

/-- What a poll interval of zero stops with. -/
def zeroPeriod : String := "`period` must be non-zero."

/-- The transaction is recorded before it is handed over, so that a report cannot come too early. A
refusal gives the number back. -/
def handOver (d : Dispatch) (k : SendId) (s : Send) (tx : Signed) (held : Reservation) :
    Dispatch :=
  let hash := tx.hash
  let tracking := (d.tracking.addWaiter hash).recordEnqueued hash held
  let d := { d with tracking := tracking }
  let d := (d.log (.enqueued hash tx.tx.nonce)).meddle
  match d.push (.submit tx) with
  | .error f =>
    let d := { d with tracking := d.tracking.forgetEnqueued hash }
    let (release, d) := d.giveBack held
    let d := { d with tracking := d.tracking.removeWaiter hash }
    d.fail k (f.withRelease release)
  | .ok d =>
    if d.terms.pollInterval = 0 then
      { d with tracking := d.tracking.removeWaiter hash }.finish k (.error (.aborted zeroPeriod))
    else d.setStage k s (.settle hash)

def deliver (d : Dispatch) (k : SendId) (s : Send) (tx : Signed) (held : Reservation) : Dispatch :=
  match s.mode with
  | .build => d.finish k (.ok (.built tx held))
  | .async => d.setStage k s (.submit tx held)
  | .sync => d.handOver k s tx held

/-- Signs with the number held; if that fails the number goes back. -/
def sign (d : Dispatch) (k : SendId) (s : Send) (price : Price) (gas : Nat) (held : Reservation) :
    Dispatch :=
  let tx : Transaction :=
    { chainId := d.terms.chainId, nonce := held.nonce, gasLimit := gas, price := price
      recipient := s.request.recipient, value := s.request.value, data := s.request.data }
  match s.signer.sign tx with
  | .error f => (d.giveBack held).2.fail k f
  | .ok signed => d.deliver k s signed held

/-- An identity without state needs its number from the ledger. -/
def askNumber [Counter] (d : Dispatch) (k : SendId) (s : Send) (price : Price) (gas : Nat) :
    Dispatch :=
  match d.allocator.take? s.signer.address with
  | none => d.setStage k s (.number price gas)
  | some (held, a) => { d with allocator := a }.sign k s price gas held

def askGas [Counter] (d : Dispatch) (k : SendId) (s : Send) (price : Price) : Dispatch :=
  if s.request.gasLimit = 0 then d.setStage k s (.estimate price)
  else d.askNumber k s price s.request.gasLimit

/-- Tip and base fee are known. -/
def applyFees [Counter] (d : Dispatch) (k : SendId) (s : Send) (tip baseFee : Nat) : Dispatch :=
  match Fee.cap tip baseFee with
  | .error f => d.fail k f
  | .ok maxFee => d.askGas k s (.dynamic maxFee tip)

/-- Has the base fee cache to itself. -/
def baseTurn [Counter] (d : Dispatch) (k : SendId) (s : Send) (tip : Nat) (now : Int) : Dispatch :=
  match d.baseFee.cache.fresh? now with
  | none => d.setStage k s (.baseAnswer tip)
  | some fee => { d with baseFee := d.baseFee.leave k }.applyFees k s tip fee

def askBase [Counter] (d : Dispatch) (k : SendId) (s : Send) (tip : Nat) (now : Int) : Dispatch :=
  let d := { d with baseFee := d.baseFee.join k }
  if d.baseFee.hasTurn k then d.baseTurn k s tip now else d.setStage k s (.baseTurn tip)

/-- Has the tip cache to itself. -/
def tipTurn [Counter] (d : Dispatch) (k : SendId) (s : Send) (now : Int) : Dispatch :=
  match d.tip.cache.fresh? now with
  | none => d.setStage k s .tipAnswer
  | some tip => { d with tip := d.tip.leave k }.askBase k s tip now

def askTip [Counter] (d : Dispatch) (k : SendId) (s : Send) (now : Int) : Dispatch :=
  let d := { d with tip := d.tip.join k }
  if d.tip.hasTurn k then d.tipTurn k s now else d.setStage k s .tipTurn

/-- Dynamic fees are used exactly when the header just read carries a base fee. -/
def probed [Counter] (d : Dispatch) (k : SendId) (s : Send) (h : Header) (now : Int) : Dispatch :=
  if h.supportsDynamicFee then d.askTip k s now
  else d.askGas k s (.legacy d.terms.staticPrice)

def tipAnswered [Counter] (d : Dispatch) (k : SendId) (s : Send) (a : Except Failure Answer)
    (now : Int) : Dispatch :=
  match Fee.Kind.tip.ofAnswer a with
  | .error f => { d with tip := d.tip.leave k }.fail k f
  | .ok tip => { d with tip := d.tip.finish k tip now }.askBase k s tip now

def baseAnswered [Counter] (d : Dispatch) (k : SendId) (s : Send) (tip : Nat)
    (a : Except Failure Answer) (now : Int) : Dispatch :=
  match Fee.Kind.baseFee.ofAnswer a with
  | .error f => { d with baseFee := d.baseFee.leave k }.fail k f
  | .ok fee => { d with baseFee := d.baseFee.finish k fee now }.applyFees k s tip fee

/-- The ledger took the transaction or did not. Only then is the number's fate decided. -/
def submitAnswered (d : Dispatch) (k : SendId) (tx : Signed) (held : Reservation) :
    Except Failure Answer → Dispatch
  | .ok _ => { d with submitted := d.submitted + 1 }.finish k (.ok (.hash tx.hash))
  | .error f =>
    let (release, d) := d.giveBack held
    d.fail k (f.asSubmission.withRelease release)

/-- The ledger answered what send `k` asked. -/
def answer [Counter] (d : Dispatch) (k : SendId) (a : Except Failure Answer) (now : Int) :
    Dispatch :=
  match d.sends.get? k with
  | none => d
  | some s =>
    match s.stage, a with
    | .tipAnswer, a => d.tipAnswered k s a now
    | .baseAnswer tip, a => d.baseAnswered k s tip a now
    | .submit tx held, a => d.submitAnswered k tx held a
    | .probe, .ok (.header h) => d.probed k s h now
    | .estimate price, .ok (.amount gas) => d.askNumber k s price gas
    | .number price gas, .ok (.amount n) =>
      let (held, allocator) := d.allocator.install s.signer.address n
      { d with allocator := allocator }.sign k s price gas held
    | .probe, .error f | .estimate _, .error f | .number _ _, .error f => d.fail k f
    | _, _ => d

/-- Send `k` has come to the head of the line it stands in. -/
def turn [Counter] (d : Dispatch) (k : SendId) (now : Int) : Dispatch :=
  match d.sends.get? k with
  | none => d
  | some s =>
    match s.stage with
    | .tipTurn => if d.tip.hasTurn k then d.tipTurn k s now else d
    | .baseTurn tip => if d.baseFee.hasTurn k then d.baseTurn k s tip now else d
    | _ => d

/-- A look at a handed-over transaction: a rejection is told first, then the end. -/
def poll (d : Dispatch) (k : SendId) : Dispatch :=
  match d.sends.get? k with
  | some ⟨_, _, _, .settle hash⟩ =>
    let (rejection, tracking) := d.tracking.takeRejection hash
    match rejection with
    | some f =>
      { d with tracking := tracking.removeWaiter hash, answered := d.answered + 1 }.fail k f
    | none =>
      if d.tracking.pending.isSettled hash then
        { d with tracking := d.tracking.removeWaiter hash, answered := d.answered + 1 }.finish k
          (.ok (.hash hash))
      else d
  | _ => d

/-- A send that is given up at any point leaves the lines, gives its number back if it still holds
one, and stops waiting. -/
def letGo (d : Dispatch) (k : SendId) (s : Send) : Dispatch :=
  let d := { d with tip := d.tip.leave k, baseFee := d.baseFee.leave k }
  match s.stage with
  | .submit _ held => (d.giveBack held).2
  | .settle hash => { d with tracking := d.tracking.removeWaiter hash }
  | _ => d

/-- The caller goes away. -/
def cancel (d : Dispatch) (k : SendId) : Dispatch :=
  match d.sends.get? k with
  | none => d
  | some s =>
    let d := d.letGo k s
    { d with sends := d.sends.erase k }

/-- Time is up: before the hand-over for the call, after it for the wait, whose outcome is then
unknown. -/
def expire (d : Dispatch) (k : SendId) : Dispatch :=
  match d.sends.get? k with
  | none => d
  | some s =>
    let d := d.letGo k s
    match s.stage with
    | .settle hash =>
      { d with timedOut := d.timedOut + 1 }.fail k (.outcomeUnknown hash d.terms.patience)
    | _ => d.fail k (.timeout s.operation)

end Outbox.Dispatch
