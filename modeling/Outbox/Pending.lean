import Outbox.Address

namespace Outbox

/-- Hashes reported sent and hashes not yet final. Each change is a list of elementary steps on one
of the two sets, so that what a reader sees between two of them is defined as well. -/
structure Pending where
  sent : List Hash := []
  unconfirmed : List Hash := []

namespace Pending

/-- One insertion into, or removal from, one of the sets. -/
inductive Step where
  | addSent (h : Hash)
  | addUnconfirmed (h : Hash)
  | dropSent (h : Hash)
  | dropUnconfirmed (h : Hash)

def apply (p : Pending) : Step → Pending
  | .addSent h => { p with sent := p.sent.insert h }
  | .addUnconfirmed h => { p with unconfirmed := p.unconfirmed.insert h }
  | .dropSent h => { p with sent := p.sent.filter (· ≠ h) }
  | .dropUnconfirmed h => { p with unconfirmed := p.unconfirmed.filter (· ≠ h) }

def run (p : Pending) (steps : List Step) : Pending := steps.foldl apply p

/-- A submitted hash is sent and unconfirmed, in this order. -/
def sentSteps (h : Hash) : List Step := [.addSent h, .addUnconfirmed h]

def markSent (p : Pending) (h : Hash) : Pending := p.run (sentSteps h)

def clearSent (p : Pending) (h : Hash) : Pending := p.apply (.dropSent h)

def clearUnconfirmed (p : Pending) (h : Hash) : Pending := p.apply (.dropUnconfirmed h)

def isSent (p : Pending) (h : Hash) : Bool := p.sent.contains h

def isUnconfirmed (p : Pending) (h : Hash) : Bool := p.unconfirmed.contains h

/-- Sent, and a terminal report has come. -/
def isSettled (p : Pending) (h : Hash) : Bool := p.isSent h && !p.isUnconfirmed h

def sentCount (p : Pending) : Nat := p.sent.length

def unconfirmedCount (p : Pending) : Nat := p.unconfirmed.length

end Pending
end Outbox
