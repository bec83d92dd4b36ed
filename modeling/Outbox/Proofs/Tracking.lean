import Outbox.Proofs.Keyed
import Outbox.Tracking

namespace Outbox

namespace Report

def hash : Report → Hash
  | .sent h => h
  | .confirmed h => h
  | .failed h _ => h

/-- Nothing is reported of a transaction after it, but for another sending. -/
def isTerminal : Report → Bool
  | .sent _ => false
  | _ => true

end Report

namespace Pending

variable (p : Pending) (h j : Hash)

theorem isSent_markSent : (p.markSent h).isSent j = (decide (j = h) || p.isSent j) := by
  simp [markSent, run, sentSteps, apply, isSent]

theorem isUnconfirmed_markSent :
    (p.markSent h).isUnconfirmed j = (decide (j = h) || p.isUnconfirmed j) := by
  simp [markSent, run, sentSteps, apply, isUnconfirmed]

theorem isSent_clearSent : (p.clearSent h).isSent j = (decide (j ≠ h) && p.isSent j) := by
  by_cases hj : j = h <;> simp [clearSent, apply, isSent, hj]

theorem isUnconfirmed_clearSent : (p.clearSent h).isUnconfirmed j = p.isUnconfirmed j := rfl

theorem isSent_clearUnconfirmed : (p.clearUnconfirmed h).isSent j = p.isSent j := rfl

theorem isUnconfirmed_clearUnconfirmed :
    (p.clearUnconfirmed h).isUnconfirmed j = (decide (j ≠ h) && p.isUnconfirmed j) := by
  by_cases hj : j = h <;> simp [clearUnconfirmed, apply, isUnconfirmed, hj]

end Pending

namespace Tracking

open Nonce

variable {t : Tracking} {a : Allocator} {h j : Hash} {f : Failure} {q : Reservation}

/-- What a sender that waits is told of a transaction that never reached the ledger. -/
def releaseError (a : Allocator) (q : Reservation) : Option Failure :=
  match (a.giveBack q).1 with
  | .ok () => none
  | .error e => some (e.asFailure q.identity)

theorem onFailed_unrecorded (hq : t.enqueued.get? h = none) :
    t.onFailed a h f = ({ t with failed := t.failed + 1 }.settle h, a) := by
  simp only [onFailed, hq]

theorem onFailed_recorded (hq : t.enqueued.get? h = some q) :
    t.onFailed a h f =
      ({ t with
          failed := t.failed + 1
          enqueued := t.enqueued.erase h
          rejected :=
            if t.isWaiting h then t.rejected.put h (f.withRelease (releaseError a q))
            else t.rejected }.settle h,
        (a.giveBack q).2) := by
  unfold onFailed releaseError isWaiting
  simp only [hq]
  split <;> rfl

/-- A report gives at most one number back, that of the record it removes. -/
theorem allocator_report (t : Tracking) (a : Allocator) (r : Report) :
    (t.report a r).2 = a ∨ ∃ f q, r = .failed r.hash f ∧ t.enqueued.get? r.hash = some q ∧
      (t.report a r).2 = (a.giveBack q).2 := by
  cases r with
  | sent h => exact .inl rfl
  | confirmed h => exact .inl rfl
  | failed h f =>
    cases hq : t.enqueued.get? h with
    | none => exact .inl (by rw [report, onFailed_unrecorded hq])
    | some q => exact .inr ⟨f, q, rfl, hq, by rw [report, onFailed_recorded hq]⟩

theorem enqueued_report (t : Tracking) (a : Allocator) (r : Report) :
    (t.report a r).1.enqueued =
      match r with
      | .confirmed _ => t.enqueued
      | r => t.enqueued.erase r.hash := by
  cases r with
  | sent h => rfl
  | confirmed h => rfl
  | failed h f =>
    simp only [report]
    cases hq : t.enqueued.get? h with
    | none =>
      simp only [onFailed_unrecorded hq]
      exact (Keyed.erase_of_get?_none hq).symm
    | some q =>
      simp only [onFailed_recorded hq]
      rfl

end Tracking

/-- Everything that is remembered of one hash. -/
structure Memory where
  record : Option Nonce.Reservation
  waited : Bool
  rejection : Option Failure
  sent : Bool
  unconfirmed : Bool

namespace Memory

/-- The transaction came to its end. -/
def settled (m : Memory) : Memory := { m with unconfirmed := false, sent := m.sent && m.waited }

def told (m : Memory) (a : Nonce.Allocator) : Report → Memory
  | .sent _ => { m with record := none, sent := true, unconfirmed := true }
  | .confirmed _ => m.settled
  | .failed _ f =>
    match m.record with
    | none => m.settled
    | some q =>
      { m.settled with
        record := none
        rejection :=
          if m.waited then some (f.withRelease (Tracking.releaseError a q)) else m.rejection }

theorem told_unrecorded {m : Memory} (h : m.record = none) (a : Nonce.Allocator) (j : Hash)
    (f : Failure) : m.told a (.failed j f) = m.settled := by
  simp only [told, h]

theorem told_recorded {m : Memory} {q : Nonce.Reservation} (h : m.record = some q)
    (a : Nonce.Allocator) (j : Hash) (f : Failure) :
    m.told a (.failed j f) =
      { m.settled with
        record := none
        rejection :=
          if m.waited then some (f.withRelease (Tracking.releaseError a q)) else m.rejection } := by
  simp only [told, h]

theorem told_waited (m : Memory) (a : Nonce.Allocator) (r : Report) :
    (m.told a r).waited = m.waited := by
  cases r with
  | sent j => rfl
  | confirmed j => rfl
  | failed j f =>
    cases h : m.record with
    | none =>
      rw [told_unrecorded h]
      rfl
    | some q =>
      rw [told_recorded h]
      rfl

/-- Failures are kept for those only who wait. -/
theorem told_rejection {m : Memory} (hw : m.waited = false) (a : Nonce.Allocator) (r : Report) :
    (m.told a r).rejection = m.rejection := by
  cases r with
  | sent j => rfl
  | confirmed j => rfl
  | failed j f =>
    cases h : m.record with
    | none =>
      rw [told_unrecorded h]
      rfl
    | some q =>
      rw [told_recorded h, hw]
      rfl

/-- Nobody waits for the hash, and it is not marked for anybody who would. -/
structure Cleared (m : Memory) : Prop where
  waited : m.waited = false
  rejection : m.rejection = none
  sent : m.sent = false

end Memory

namespace Tracking

open Nonce

variable {t : Tracking} {a : Allocator} {h j : Hash} {f : Failure} {q : Reservation}

def memory (t : Tracking) (h : Hash) : Memory where
  record := t.enqueued.get? h
  waited := t.isWaiting h
  rejection := t.rejected.get? h
  sent := t.pending.isSent h
  unconfirmed := t.pending.isUnconfirmed h

theorem memory_offered (t : Tracking) (h : Hash) (q : Reservation) (j : Hash) :
    ((t.addWaiter h).recordEnqueued h q).memory j =
      if j = h then { t.memory j with record := some q, waited := true } else t.memory j := by
  simp only [memory, addWaiter, recordEnqueued, isWaiting]
  by_cases hj : j = h <;> simp [hj, Keyed.get?_put]

theorem memory_forgetEnqueued (t : Tracking) (h j : Hash) :
    (t.forgetEnqueued h).memory j = if j = h then { t.memory j with record := none } else t.memory j := by
  simp only [memory, forgetEnqueued, isWaiting]
  by_cases hj : j = h <;> simp [hj, Keyed.get?_erase]

theorem memory_removeWaiter (t : Tracking) (h j : Hash) :
    (t.removeWaiter h).memory j =
      if j = h then { t.memory j with waited := false, rejection := none, sent := false }
      else t.memory j := by
  simp only [memory, removeWaiter, isWaiting]
  simp only [Pending.isSent_clearSent, Pending.isUnconfirmed_clearSent, Keyed.get?_erase]
  by_cases hj : j = h <;> simp [hj]

theorem memory_settle (t : Tracking) (h j : Hash) :
    (t.settle h).memory j = if j = h then (t.memory j).settled else t.memory j := by
  have hsent : (t.settle h).pending.isSent j =
      if j = h then t.pending.isSent j && t.isWaiting j else t.pending.isSent j := by
    simp only [settle]
    by_cases hj : j = h <;> cases hw : t.isWaiting h <;>
      simp [hj, hw, Pending.isSent_clearSent, Pending.isSent_clearUnconfirmed]
  have hopen : (t.settle h).pending.isUnconfirmed j =
      if j = h then false else t.pending.isUnconfirmed j := by
    simp only [settle]
    by_cases hj : j = h <;> cases hw : t.isWaiting h <;>
      simp [hj, Pending.isUnconfirmed_clearSent, Pending.isUnconfirmed_clearUnconfirmed]
  simp only [memory, Memory.settled]
  rw [hsent, hopen]
  by_cases hj : j = h <;> simp [hj, settle, isWaiting]

theorem memory_onFailed (t : Tracking) (a : Allocator) (h : Hash) (f : Failure) (j : Hash) :
    (t.onFailed a h f).1.memory j =
      if j = h then (t.memory j).told a (.failed h f) else t.memory j := by
  have hrec : (t.memory h).record = t.enqueued.get? h := rfl
  cases hq : t.enqueued.get? h with
  | none =>
    rw [onFailed_unrecorded hq, memory_settle]
    by_cases hj : j = h
    · subst hj
      simp only [Memory.told, hrec, hq]
      rfl
    · simp only [if_neg hj]
      rfl
  | some q =>
    rw [onFailed_recorded hq, memory_settle]
    by_cases hj : j = h
    · subst hj
      simp only [Memory.told, hrec, hq, if_true, Memory.settled]
      by_cases hw : j ∈ t.waiters <;>
        simp [memory, isWaiting, hw, Keyed.get?_erase, Keyed.get?_put]
    · simp only [if_neg hj]
      by_cases hw : h ∈ t.waiters <;>
        simp [memory, isWaiting, hw, Keyed.get?_erase, Keyed.get?_put, hj]

/-- A report changes what is remembered of its own hash. -/
theorem memory_report (t : Tracking) (a : Allocator) (r : Report) (j : Hash) :
    (t.report a r).1.memory j = if j = r.hash then (t.memory j).told a r else t.memory j := by
  cases r with
  | sent h =>
    simp only [report, onSent, memory, Memory.told, isWaiting, Report.hash]
    simp only [Keyed.get?_erase, Pending.isSent_markSent, Pending.isUnconfirmed_markSent]
    by_cases hj : j = h <;> simp [hj]
  | confirmed h => exact memory_settle t h j
  | failed h f => exact memory_onFailed t a h f j

theorem cleared_removeWaiter (t : Tracking) (h : Hash) : ((t.removeWaiter h).memory h).Cleared := by
  rw [memory_removeWaiter, if_pos rfl]
  exact ⟨rfl, rfl, rfl⟩

/-- Somebody came to wait for `h`, left a record, which may be gone again, and does not wait. -/
def Withdrawn (t : Tracking) (h : Hash) (t' : Tracking) : Prop :=
  ∃ r, t' = ((t.addWaiter h).recordEnqueued h r).removeWaiter h ∨
    t' = (((t.addWaiter h).recordEnqueued h r).forgetEnqueued h).removeWaiter h

theorem Withdrawn.cleared {t' : Tracking} (hw : t.Withdrawn h t') : (t'.memory h).Cleared := by
  obtain ⟨r, rfl | rfl⟩ := hw
  · exact cleared_removeWaiter _ h
  · exact cleared_removeWaiter _ h

theorem Withdrawn.memory_of_ne {t' : Tracking} (hw : t.Withdrawn h t') (hj : j ≠ h) :
    t'.memory j = t.memory j := by
  obtain ⟨r, rfl | rfl⟩ := hw
  · rw [memory_removeWaiter, if_neg hj, memory_offered, if_neg hj]
  · rw [memory_removeWaiter, if_neg hj, memory_forgetEnqueued, if_neg hj, memory_offered, if_neg hj]

end Tracking

end Outbox
