import Outbox.Proofs.Send.Unheard

namespace Outbox

open Ledger Nonce

namespace Failure

/-- Without what is told of the return of a number. -/
def bare : Failure → Failure
  | submission message _ => submission message none
  | enqueue message _ => enqueue message none
  | f => f

/-- What is told of the return of a number. -/
def releaseText? : Failure → Option String
  | submission _ release => release
  | enqueue _ release => release
  | _ => none

/-- There is a place for what is told of the return of a number. -/
def HasRoom (f : Failure) : Prop :=
  ∃ message release, f = .submission message release ∨ f = .enqueue message release

/-- Whoever is told `g` is told `f`, as it is or quoted in a failed submission. -/
def Carries (g f : Failure) : Prop := g.bare = f.bare ∨ g.bare = .submission f.message none

variable {f : Failure}

theorem withRelease_carries (f : Failure) (release : Option Failure) :
    (f.withRelease release).Carries f := by
  cases f <;> exact .inl rfl

theorem releaseText?_withRelease (hf : f.HasRoom) (release : Option Failure) :
    (f.withRelease release).releaseText? = release.map message := by
  obtain ⟨m, r, rfl | rfl⟩ := hf
  · rfl
  · rfl

theorem withRelease_of_not_hasRoom (hf : ¬f.HasRoom) (release : Option Failure) :
    (f.withRelease release).releaseText? = none := by
  cases f with
  | submission m r => exact absurd ⟨m, r, .inl rfl⟩ hf
  | enqueue m r => exact absurd ⟨m, r, .inr rfl⟩ hf
  | _ => rfl

/-- The error of a return is told, unless there is no place for it. -/
theorem release_told_iff (f : Failure) (release : Option Failure) :
    (f.withRelease release).releaseText? = release.map message ↔ release = none ∨ f.HasRoom := by
  constructor
  · intro h
    by_cases hf : f.HasRoom
    · exact .inr hf
    · rw [withRelease_of_not_hasRoom hf] at h
      exact .inl (Option.map_eq_none_iff.mp h.symm)
  · rintro (rfl | hf)
    · by_cases hf : f.HasRoom
      · exact releaseText?_withRelease hf none
      · exact withRelease_of_not_hasRoom hf none
    · exact releaseText?_withRelease hf release

theorem asSubmission_hasRoom (f : Failure) : f.asSubmission.HasRoom := by
  obtain ⟨m, r, h⟩ := f.asSubmission_submission
  exact ⟨m, r, .inl h⟩

theorem asSubmission_carries (f : Failure) (release : Option Failure) :
    (f.asSubmission.withRelease release).Carries f := by
  cases f with
  | submission m r => exact .inl rfl
  | _ => exact .inr rfl

end Failure

/-- A failure that was kept for a hash without record is kept through all reports. -/
theorem Memory.rejection_after {m : Memory} {f : Failure} (hr : m.record = none)
    (hf : m.rejection = some f) (hash : Hash) (heard : List Moment) :
    (m.after hash heard).rejection = some f := by
  let P (m : Memory) : Prop := m.record = none ∧ m.rejection = some f
  have hkept : ∀ x ∈ heard, x.report.hash = hash → ∀ m, P m → P (m.told x.allocator x.report) := by
    rintro ⟨a, r⟩ - - m ⟨hr, hf⟩
    refine ⟨told_record_none hr a r, ?_⟩
    cases r with
    | sent j => exact hf
    | confirmed j => exact hf
    | failed j g =>
      rw [told_unrecorded hr]
      exact hf
  have hafter : P (m.after hash heard) := after_induction ⟨hr, hf⟩ hkept
  exact hafter.2

namespace Dispatch

variable {d e : Dispatch} {k : SendId} {s : Send} {tx : Signed} {held : Reservation} {f : Failure}
  {hash : Hash} {l : Label}

theorem giveBack_fst (d : Dispatch) (r : Reservation) :
    (d.giveBack r).1 = Tracking.releaseError d.allocator r := by
  unfold giveBack Tracking.releaseError
  generalize d.allocator.giveBack r = p
  obtain ⟨outcome, a⟩ := p
  cases outcome <;> rfl

/-- A number does not go back to a state that did not issue it. -/
theorem releaseError_stale {a : Allocator} {r : Reservation} {s : State}
    (hs : a.entries.get? r.identity = some s) (hg : r.generation ≠ s.generation) :
    Tracking.releaseError a r = some (.nonce r.identity (Refusal.stale r.nonce).message) := by
  have hrefused : (a.giveBack r).1 = .error (.stale r.nonce) := by
    simp [Allocator.giveBack, Allocator.release, hs, hg]
  simp only [Tracking.releaseError, hrefused]
  rfl

/-- A submission that the ledger rejects. -/
theorem submitAnswered_told (hs : d.sends.get? k = some s) (hst : s.stage = .submit tx held)
    (f : Failure) (now : Int) :
    Tells d k (.error (.failed (f.asSubmission.withRelease
      (Tracking.releaseError d.allocator held)))) (d.step (.answer k (.error f) now)) := by
  have hstep : d.step (.answer k (.error f) now) = d.submitAnswered k tx held (.error f) := by
    simp only [step, answer, hs, hst]
  rw [hstep]
  simp only [submitAnswered, giveBack_fst, giveBack_eq]
  exact ⟨rfl, Keyed.get?_erase_self _ _⟩

/-- Whether a job is refused is up to the tracker. -/
theorem push_error {job : Job} (ht : e.tracker = d.tracker) (h : d.push job = .error f) :
    e.push job = .error f := by
  simp only [push, ht] at h ⊢
  split at h
  · exact h
  · split at h
    · simp at h
    · next c _ =>
      cases hp : c.push job with
      | error g =>
        rw [hp] at h
        obtain rfl := Except.error.inj h
        rfl
      | ok c' => simp [hp, Except.map] at h

/-- A hand-over that the tracker refuses. -/
theorem handOver_told (hp : d.push (.submit tx) = .error f) (k : SendId) (s : Send)
    (held : Reservation) :
    Tells d k (.error (.failed (f.withRelease (Tracking.releaseError d.meddled held))))
      (d.handOver k s tx held) := by
  have hrefused : (d.offered tx held).push (.submit tx) = .error f := push_error (d := d) rfl hp
  simp only [handOver, offered_eq, hrefused, giveBack_fst, giveBack_eq]
  exact ⟨rfl, Keyed.get?_erase_self _ _⟩

/-- A step of a send by which something comes before the tracker is a hand-over. -/
theorem step_hands {n : Nat} (hl : l.send? = some k)
    (he : (d.step l).events = .enqueued hash n :: d.events) :
    ∃ (e : Dispatch) (s : Send) (tx : Signed) (held : Reservation),
      d.step l = e.handOver k s tx held ∧ e.tracker = d.tracker ∧ tx.hash = hash ∧
        held.nonce = n := by
  have hstep := step_sendStep d hl
  generalize d.step l = d' at hstep he
  cases hstep with
  | apart _ ht hsame =>
    rw [hsame] at he
    exact absurd (congrArg List.length he) (by simp)
  | hands e a s tx held hlike hk hn hid =>
    rw [handOver_events, hlike.events] at he
    obtain ⟨hev, -⟩ := List.cons.inj he
    obtain ⟨hhash, hnonce⟩ := Event.enqueued.inj hev
    exact ⟨e, s, tx, held, rfl, hlike.tracker, hhash, hn.symm.trans hnonce⟩

/-- A report that finds a record and somebody waiting, and what those who wait do next. -/
theorem report_told {r : Reservation} (hw : d.tracking.isWaiting hash = true)
    (hq : d.tracking.enqueued.get? hash = some r) (f : Failure) (labels : List Label)
    (hl : ∀ l ∈ labels, ∀ j, d.Waits j hash → l.send? ≠ some j)
    (hn : Unoffered hash (d.report (.failed hash f)).events
      ((d.report (.failed hash f)).run labels).events) (hk : d.Waits k hash) :
    Tells ((d.report (.failed hash f)).run labels) k
      (.error (.failed (f.withRelease (Tracking.releaseError d.allocator r))))
      (((d.report (.failed hash f)).run labels).step (.poll k)) := by
  let e := d.report (.failed hash f)
  have hmemory : e.tracking.memory hash =
      (d.tracking.memory hash).told d.allocator (.failed hash f) := by
    rw [memory_report]
    exact if_pos rfl
  have hrecord : (d.tracking.memory hash).record = some r := hq
  have hwaited : (d.tracking.memory hash).waited = true := hw
  rw [Memory.told_recorded hrecord, hwaited] at hmemory
  obtain ⟨hwaits, hafter⟩ := awaited_run (d := e) hl hn
  have hkept : ((e.run labels).tracking.memory hash).rejection =
      some (f.withRelease (Tracking.releaseError d.allocator r)) := by
    rw [hafter]
    apply Memory.rejection_after
    · rw [hmemory]
    · rw [hmemory]
      rfl
  apply tells_of_answer? ((hwaits k).mpr hk)
  simp only [Memory.answer?, hkept]

/-- The caller of send `k` is told the failure `f`. -/
def ToldFailure (d : Dispatch) (k : SendId) (f : Failure) (d' : Dispatch) : Prop :=
  ∃ g, Tells d k (.error (.failed g)) d' ∧ g.Carries f

/-- The caller of send `k` is told the failure `f`, and the error of the return with it, if there was
one. -/
def ToldBoth (d : Dispatch) (k : SendId) (f : Failure) (release : Option Failure) (d' : Dispatch) :
    Prop :=
  ∃ g, Tells d k (.error (.failed g)) d' ∧ g.Carries f ∧ g.releaseText? = release.map Failure.message

theorem toldBoth_iff {d' : Dispatch} {release : Option Failure}
    (h : Tells d k (.error (.failed (f.withRelease release))) d') :
    d.ToldFailure k f d' ∧ (d.ToldBoth k f release d' ↔ release = none ∨ f.HasRoom) := by
  refine ⟨⟨_, h, f.withRelease_carries release⟩, ?_⟩
  rw [← f.release_told_iff release]
  constructor
  · rintro ⟨g, hg, -, htext⟩
    have hsame : f.withRelease release = g := by
      have hresults := h.results.symm.trans hg.results
      simpa using hresults
    rw [hsame]
    exact htext
  · intro htext
    exact ⟨_, h, f.withRelease_carries release, htext⟩

/-- Whatever the numbers are like when a failure brings one back, the failure is told to the caller:
of a submission that the ledger rejects, of a hand-over that the tracker refuses, and of a transaction
that is reported failed before it was reported sent, to whoever waits for it and looks first. The
error of the return is told with it for a rejected submission, always; in the other two cases exactly
if the return succeeded or the failure has room for it. -/
theorem release_error_told_iff (d : Dispatch) (k : SendId) :
    (∀ s tx held f now, d.sends.get? k = some s → s.stage = .submit tx held →
      d.ToldBoth k f (Tracking.releaseError d.allocator held) (d.step (.answer k (.error f) now))) ∧
    (∀ l hash n f, l.send? = some k → (d.step l).events = .enqueued hash n :: d.events →
      (∀ tx, d.push (.submit tx) = .error f) →
        ∃ (e : Dispatch) (s : Send) (tx : Signed) (held : Reservation),
          let release := Tracking.releaseError e.meddled held
          d.step l = e.handOver k s tx held ∧ tx.hash = hash ∧ held.nonce = n ∧
            e.ToldFailure k f (d.step l) ∧
            (e.ToldBoth k f release (d.step l) ↔ release = none ∨ f.HasRoom)) ∧
    ∀ hash r f labels, d.tracking.isWaiting hash = true → d.tracking.enqueued.get? hash = some r →
      let release := Tracking.releaseError d.allocator r
      let failed := d.step (.report (.failed hash f))
      let e := failed.run labels
      (∀ l ∈ labels, ∀ j, d.Waits j hash → l.send? ≠ some j) →
        Unoffered hash failed.events e.events → d.Waits k hash →
          e.ToldFailure k f (e.step (.poll k)) ∧
            (e.ToldBoth k f release (e.step (.poll k)) ↔ release = none ∨ f.HasRoom) := by
  refine ⟨?_, ?_, ?_⟩
  · intro s tx held f now hs hst
    exact ⟨_, submitAnswered_told hs hst f now, f.asSubmission_carries _,
      Failure.releaseText?_withRelease f.asSubmission_hasRoom _⟩
  · intro l hash n f hl he hp
    obtain ⟨e, s, tx, held, hstep, ht, hhash, hnonce⟩ := step_hands hl he
    refine ⟨e, s, tx, held, hstep, hhash, hnonce, ?_⟩
    rw [hstep]
    exact toldBoth_iff (handOver_told (push_error ht (hp tx)) k s held)
  · intro hash r f labels hw hq release failed e hl hn hk
    exact toldBoth_iff (report_told hw hq f labels hl hn hk)

section Runs

/-- The first number of the signer, whose next number has been set since. -/
def stale : Failure := .nonce Sample.signer.address (Refusal.stale 0).message

/-- A transaction has been put to the ledger when its signer's next number is set. -/
def resetInFlight : Dispatch :=
  ((fresh Sample.terms Sample.fees Sample.fees 4 {}).run (Sample.first 1 .async 0)).step
    (.reset Sample.signer.address 0)

/-- A send is about to hand its transaction over to a tracker that sets its signer's next number and
then refuses. -/
def refusing (f : Failure) : Dispatch :=
  (fresh Sample.terms Sample.fees Sample.fees 4
    { reject := some f, reset := some (Sample.signer.address, 0) }).run (Sample.begin 1 .sync)

/-- A transaction has been handed over when its signer's next number is set. -/
def resetAfterHandOver : Dispatch :=
  ((fresh Sample.terms Sample.fees Sample.fees 4 {}).run (Sample.first 1 .sync 0)).step
    (.reset Sample.signer.address 0)

theorem waits_resetAfterHandOver : resetAfterHandOver.Waits 1 (Sample.signed 0).hash := ⟨_, rfl, rfl⟩

theorem waiting_resetAfterHandOver :
    resetAfterHandOver.tracking.isWaiting (Sample.signed 0).hash = true := by
  show (List.insert (Sample.signed 0).hash []).contains (Sample.signed 0).hash = true
  simp

theorem recorded_resetAfterHandOver :
    resetAfterHandOver.tracking.enqueued.get? (Sample.signed 0).hash = some firstHeld :=
  Keyed.get?_put_self [] _ _

theorem releaseError_resetAfterHandOver :
    Tracking.releaseError resetAfterHandOver.allocator firstHeld = some stale := by
  have hstate : resetAfterHandOver.allocator.entries.get? Sample.signer.address =
      some ⟨0, [], 2⟩ := rfl
  exact releaseError_stale (r := firstHeld) hstate (by decide)

theorem release_error_told_of_stale :
    resetInFlight.ToldBoth 1 (.internal "boom") (some stale)
        (resetInFlight.step (.answer 1 (.error (.internal "boom")) 0)) ∧
      (∃ (e : Dispatch) (held : Reservation), e.ToldBoth 1 (.enqueue "queue full" none)
        (Tracking.releaseError e.meddled held)
        ((refusing (.enqueue "queue full" none)).step (.answer 1 (.ok (.amount 0)) 0))) ∧
      let failed := resetAfterHandOver.step
        (.report (.failed (Sample.signed 0).hash (.submission "underpriced" none)))
      let e := failed.run [.report (.sent (Sample.signed 0).hash)]
      e.ToldBoth 1 (.submission "underpriced" none) (some stale) (e.step (.poll 1)) := by
  refine ⟨?_, ?_, ?_⟩
  · have hs : resetInFlight.sends.get? 1 = some ⟨.async, Sample.signer, Sample.request,
        .submit (Sample.signed 0) firstHeld⟩ := rfl
    have hstate : resetInFlight.allocator.entries.get? Sample.signer.address = some ⟨0, [], 2⟩ := rfl
    have hrelease : Tracking.releaseError resetInFlight.allocator firstHeld = some stale :=
      releaseError_stale (r := firstHeld) hstate (by decide)
    rw [← hrelease]
    exact (release_error_told_iff resetInFlight 1).1 _ (Sample.signed 0) firstHeld
      (.internal "boom") 0 hs rfl
  · obtain ⟨e, s, tx, held, -, -, -, -, hiff⟩ :=
      (release_error_told_iff (refusing (.enqueue "queue full" none)) 1).2.1
        (.answer 1 (.ok (.amount 0)) 0) (Sample.signed 0).hash 0 (.enqueue "queue full" none) rfl rfl
        (fun _ => rfl)
    exact ⟨e, held, hiff.mpr (.inr ⟨_, _, .inr rfl⟩)⟩
  · intro failed e
    obtain ⟨-, hiff⟩ := (release_error_told_iff resetAfterHandOver 1).2.2 (Sample.signed 0).hash
      firstHeld (.submission "underpriced" none) [.report (.sent (Sample.signed 0).hash)]
      waiting_resetAfterHandOver recorded_resetAfterHandOver (by simp [Label.send?])
      (unoffered_run _ _ (by simp [Label.isPassive])) waits_resetAfterHandOver
    rw [← releaseError_resetAfterHandOver]
    exact hiff.mpr (.inr ⟨_, _, .inl rfl⟩)

/-- A transaction is reported failed with a failure that has no room for a second one: that its number
could not be given back is told to nobody. -/
theorem release_error_lost :
    let f : Failure := .internal "boom"
    let e := resetAfterHandOver.step (.report (.failed (Sample.signed 0).hash f))
    resetAfterHandOver.tracking.enqueued.get? (Sample.signed 0).hash = some firstHeld ∧
      Tracking.releaseError resetAfterHandOver.allocator firstHeld = some stale ∧
      Tells e 1 (.error (.failed f)) (e.step (.poll 1)) ∧
      ¬e.ToldBoth 1 f (some stale) (e.step (.poll 1)) := by
  intro f e
  have hstill : ∀ d : Dispatch, d.run [] = d := fun _ => rfl
  have htold : Tells e 1 (.error (.failed (f.withRelease (some stale)))) (e.step (.poll 1)) := by
    have h := report_told waiting_resetAfterHandOver recorded_resetAfterHandOver f [] (by simp)
      (unoffered_run _ _ (by simp [Label.isPassive])) waits_resetAfterHandOver
    rw [hstill, releaseError_resetAfterHandOver] at h
    exact h
  refine ⟨recorded_resetAfterHandOver, releaseError_resetAfterHandOver, htold, fun hboth => ?_⟩
  rcases (toldBoth_iff htold).2.mp hboth with hnone | ⟨m, r, hroom | hroom⟩
  · simp at hnone
  · simp [f] at hroom
  · simp [f] at hroom

end Runs

end Dispatch

end Outbox
