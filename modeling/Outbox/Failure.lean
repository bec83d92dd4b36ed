import Outbox.Address
import Outbox.Span

namespace Outbox

/-- What can go wrong between a caller and the ledger, by cause. -/
inductive Failure where
  | configuration (message : String)
  | remoteQuery (operation message : String)
  | build (message : String)
  /-- The ledger did not take the transaction; the number's return may have failed as well. -/
  | submission (message : String) (releaseError : Option String)
  | enqueue (message : String) (releaseError : Option String)
  /-- A waiting send gave up; the transaction may still land. -/
  | outcomeUnknown (hash : Hash) (waited : Span)
  | notFound (hash : Hash)
  | reverted (hash : Hash)
  | shallow (hash : Hash) (confirmations required : Nat)
  | nonce (identity : Address) (message : String)
  | timeout (operation : String)
  | wallet (message : String)
  | internal (message : String)
deriving DecidableEq

namespace Failure

/-- A failed return of the number is told after the primary cause. -/
def alsoFailed : Option String → String
  | none => ""
  | some e => " (nonce release also failed: " ++ e ++ ")"

def message : Failure → String
  | configuration m => "Configuration error: " ++ m
  | remoteQuery op m => "Remote query `" ++ op ++ "` failed: " ++ m
  | build m => "Failed to build transaction: " ++ m
  | submission m r => "Transaction submission failed: " ++ m ++ alsoFailed r
  | enqueue m r => "Failed to enqueue transaction for confirmation: " ++ m ++ alsoFailed r
  | outcomeUnknown h w =>
    "Timed out after " ++ w.text ++ " waiting for tx " ++ h.text ++ "; outcome unknown"
  | notFound h => "Transaction " ++ h.text ++ " not found"
  | reverted h => "Transaction " ++ h.text ++ " failed on chain"
  | shallow h c r =>
    "Transaction " ++ h.text ++ " has " ++ toString c ++ " / " ++ toString r ++ " confirmations"
  | nonce a m => "Nonce error for " ++ a.text ++ ": " ++ m
  | timeout op => "Timeout waiting for " ++ op
  | wallet m => "Wallet error: " ++ m
  | internal m => "Internal error: " ++ m

/-- The same call may succeed later without any change by the caller. -/
def retryable : Failure → Bool
  | remoteQuery _ _ | timeout _ | shallow _ _ _ | notFound _ => true
  | _ => false

def isOutcomeUnknown : Failure → Bool
  | outcomeUnknown _ _ => true
  | _ => false

/-- Only the two hand-over failures have room for a second error; it replaces an earlier one. -/
def withRelease (f : Failure) (release : Option Failure) : Failure :=
  match f with
  | submission m _ => submission m (release.map message)
  | enqueue m _ => enqueue m (release.map message)
  | other => other

/-- Whatever a rejected submission reports is a submission failure; other causes are quoted. -/
def asSubmission : Failure → Failure
  | submission m r => submission m r
  | other => submission other.message none

end Failure

/-- A call ends without its value either by a failure it reports or by stopping on a violated
precondition, with the text of that condition. -/
inductive Fault where
  | failed (failure : Failure)
  | aborted (text : String)
deriving DecidableEq

end Outbox
