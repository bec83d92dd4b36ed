import Outbox.Proofs.Nonce.FreeSet
import Outbox.Proofs.Send.Holdings
import Outbox.Proofs.Send.Unheard

namespace Outbox

open Ledger Nonce

namespace Nonce

/-- A number given back to its state is free, also if the state had it back before. -/
theorem Allocator.giveBack_free {a : Allocator} {r : Reservation} {s : State}
    (hs : a.entries.get? r.identity = some s) (hg : s.generation = r.generation) :
    (a.giveBack r).2.Free r.identity r.nonce := by
  cases hr : s.release r.nonce with
  | ok s' =>
    rw [giveBack_of_resident hs hg hr]
    have hfree : r.nonce ∈ s'.free := by
      rw [State.free_release hr]
      exact Set.mem_insert _ _
    exact ⟨s', Keyed.get?_put_self _ _ _, hfree⟩
  | error e =>
    have hfree : r.nonce ∈ s.free := by
      by_contra hn
      obtain ⟨s', hok⟩ := (s.release_isOk r.nonce).mpr hn
      rw [hok] at hr
      simp at hr
    refine ⟨s, ?_, hfree⟩
    simp only [giveBack, release, hs, hr, hg]
    simp [Keyed.get?_put_self]

end Nonce

namespace Memory

variable {m : Memory} {hash : Hash}

/-- Whoever waits has a failure kept for it, and what is marked as sent for nobody is still open. -/
structure Hushed (m : Memory) : Prop where
  waited : m.waited = true → m.rejection.isSome
  unwaited : m.waited = false → m.sent = true → m.unconfirmed = true

theorem Hushed.settled (h : m.Hushed) : m.settled.Hushed := by
  refine ⟨h.waited, fun hw hs => ?_⟩
  have hw' : m.waited = false := hw
  simp [Memory.settled, hw'] at hs

/-- A failure that finds a record is kept for whoever waits. -/
theorem hushed_of_recorded {q : Reservation} (hq : m.record = some q) (a : Allocator) (j : Hash)
    (f : Failure) : (m.told a (.failed j f)).Hushed := by
  rw [told_recorded hq]
  refine ⟨fun hw => ?_, fun hw hs => ?_⟩
  · have hw' : m.waited = true := hw
    simp [hw']
  · have hw' : m.waited = false := hw
    simp [Memory.settled, hw'] at hs

theorem Hushed.told (h : m.Hushed) (a : Allocator) (r : Report) : (m.told a r).Hushed := by
  cases r with
  | sent j => exact ⟨h.waited, fun _ _ => rfl⟩
  | confirmed j => exact h.settled
  | failed j f =>
    cases hq : m.record with
    | none =>
      rw [told_unrecorded hq]
      exact h.settled
    | some q => exact hushed_of_recorded hq a j f

theorem Hushed.answer?_ne (h : m.Hushed) : m.answer? hash ≠ some (.ok (.hash hash)) := by
  simp only [answer?]
  cases hr : m.rejection with
  | some f => simp
  | none =>
    have hw : m.waited = false := Bool.eq_false_iff.mpr fun hw => by
      have hsome := h.waited hw
      simp [hr] at hsome
    have hopen := h.unwaited hw
    cases hs : m.sent with
    | false => simp
    | true => simp [hopen hs]

end Memory

namespace Dispatch

variable {d : Dispatch} {k : SendId} {i : Nat} {tx : Signed} {hash : Hash} {r : Reservation}

/-- Worker `i` has offered `tx` to the ledger and waits for the answer. -/
def Submits (d : Dispatch) (i : Nat) (tx : Signed) : Prop :=
  ∃ c, d.tracker.confirmer = some c ∧ c.submitting? i = some tx

/-- No send that waits for `hash` is told at a look that it was sent and has come to its end. -/
def Unassured (d : Dispatch) (hash : Hash) : Prop :=
  ∀ j, d.Waits j hash → ¬Tells d j (.ok (.hash hash)) (d.step (.poll j))

/-- The number of a refused transaction is given back, and whoever waits is told the refusal. -/
structure Undone (d d' : Dispatch) (hash : Hash) (r : Reservation) (f : Failure) : Prop where
  returned : d'.allocator = (d.allocator.giveBack r).2
  free : ∀ s, d.allocator.entries.get? r.identity = some s → s.generation = r.generation →
    d'.allocator.Free r.identity r.nonce
  told : ∀ j, d'.Waits j hash → Tells d' j
    (.error (.failed (f.withRelease (Tracking.releaseError d.allocator r)))) (d'.step (.poll j))
  unassured : ∀ labels, Unoffered hash d'.events (d'.run labels).events →
    (d'.run labels).Unassured hash

theorem unassured_of_answer? (h : (d.tracking.memory hash).answer? hash ≠ some (.ok (.hash hash))) :
    d.Unassured hash := by
  intro j hj htells
  have hresults : (d.poll j).results = (j, .ok (.hash hash)) :: d.results := htells.results
  cases ha : (d.tracking.memory hash).answer? hash with
  | none =>
    rw [(poll_answer? hj).2 ha] at hresults
    simp at hresults
  | some R =>
    rw [(poll_answer? hj).1 R ha] at hresults
    obtain ⟨heq, -⟩ := List.cons.inj hresults
    obtain ⟨-, rfl⟩ := Prod.mk.inj heq
    exact h ha

theorem Unheard.unassured (h : Unheard d k hash r) : d.Unassured hash := by
  refine unassured_of_answer? ?_
  simp only [Memory.answer?]
  cases (d.tracking.memory hash).rejection with
  | some f => simp
  | none =>
    cases hs : (d.tracking.memory hash).sent with
    | false => simp
    | true => simp [h.unsettled hs]

theorem unassured_run (h : (d.tracking.memory hash).Hushed) {labels : List Label}
    (hn : Unoffered hash d.events (d.run labels).events) : (d.run labels).Unassured hash := by
  induction labels generalizing d with
  | nil => exact unassured_of_answer? h.answer?_ne
  | cons l labels ih =>
    have hgrown := (run_moves (d.step l) labels).2
    have hstep : ((d.step l).tracking.memory hash).Hushed :=
      memory_step h (hn.within List.suffix_rfl hgrown)
        (fun m _ => ⟨fun hw => by simp at hw, fun _ hs => by simp at hs⟩)
        fun x _ _ m hm => hm.told x.allocator x.report
    exact ih hstep (hn.within (step_moves d l).events List.suffix_rfl)

/-- The refusal of a submission is reported as it is. -/
theorem Submits.refused (h : d.Submits i tx) (f : Failure) :
    ∃ t, d.step (.workerAnswer i (.error f)) =
      { d with tracker := t }.report (.failed tx.hash f.asSubmission) := by
  obtain ⟨c, hc, hs⟩ := h
  obtain ⟨ws, hw⟩ := Confirmer.submitting?_eq_some.mp hs
  have hworks := withConfirmer_some hc fun c => c.answer i (.error f)
  have hreports : (c.answer i (.error f)).2 = [.failed tx.hash f.asSubmission] := by
    simp only [Confirmer.answer, hw]
  rw [hreports] at hworks
  exact ⟨_, hworks⟩

/-- The refusal of a submission makes no send leave. -/
theorem Submits.waits (h : d.Submits i tx) (f : Failure) (j : SendId) :
    (d.step (.workerAnswer i (.error f))).Waits j hash ↔ d.Waits j hash := by
  obtain ⟨t, hstep⟩ := h.refused f
  rw [hstep, report_eq]
  exact Iff.rfl

theorem Unheard.refused (h : Unheard d k hash r) (hs : d.Submits i tx) (ht : tx.hash = hash)
    (f : Failure) : Undone d (d.step (.workerAnswer i (.error f))) hash r f.asSubmission := by
  subst ht
  obtain ⟨t, hstep⟩ := hs.refused f
  have hrec : d.tracking.enqueued.get? tx.hash = some r := h.record
  have hmemory : (({ d with tracker := t } : Dispatch).report
      (.failed tx.hash f.asSubmission)).tracking.memory tx.hash =
        (d.tracking.memory tx.hash).told d.allocator (.failed tx.hash f.asSubmission) := by
    simp only [memory_report, Report.hash, if_true]
  have hreturned : (({ d with tracker := t } : Dispatch).report
      (.failed tx.hash f.asSubmission)).allocator = (d.allocator.giveBack r).2 := by
    simp only [report_eq, Tracking.report, Tracking.onFailed_recorded hrec]
  rw [hstep]
  refine ⟨hreturned, fun s hres hg => ?_, fun j hj => ?_, fun labels hn => ?_⟩
  · rw [hreturned]
    exact Allocator.giveBack_free hres hg
  · have hwaits : d.Waits j tx.hash := hj
    obtain rfl := h.alone.only j hwaits
    have hwaited := (h.alone.agrees hwaits).1
    refine tells_of_answer? hj ?_
    rw [hmemory, Memory.told_recorded h.record]
    simp only [Memory.answer?, hwaited, if_true]
  · refine unassured_run ?_ hn
    rw [hmemory]
    exact Memory.hushed_of_recorded h.record _ _ _

/-- The refusal of a transaction that was overheard gives nothing back, and its send is told that it
was sent. -/
theorem Misheard.refused (h : Misheard d k hash) (hs : d.Submits i tx) (ht : tx.hash = hash)
    (f : Failure) :
    (d.step (.workerAnswer i (.error f))).allocator = d.allocator ∧
      ((d.step (.workerAnswer i (.error f))).Waits k hash →
        Tells (d.step (.workerAnswer i (.error f))) k (.ok (.hash hash))
          ((d.step (.workerAnswer i (.error f))).step (.poll k))) := by
  subst ht
  obtain ⟨t, hstep⟩ := hs.refused f
  have hrec : d.tracking.enqueued.get? tx.hash = none := h.record
  rw [hstep]
  refine ⟨?_, fun hk => tells_of_answer? hk ?_⟩
  · simp only [report_eq, Tracking.report, Tracking.onFailed_unrecorded hrec]
  · have hwaits : d.Waits k tx.hash := hk
    obtain ⟨hwaited, -, hrej, hsent⟩ := h.alone.agrees hwaits
    simp only [memory_report, Report.hash, if_true]
    rw [Memory.told_unrecorded h.record]
    simp [Memory.answer?, Memory.settled, hrej, hsent, hwaited]

theorem Lacks.not_submits (h : d.Lacks hash) (ht : tx.hash = hash) : ¬d.Submits i tx := by
  rintro ⟨c, hc, hs⟩
  obtain ⟨c', hc', hl⟩ := h
  obtain rfl : c = c' := Option.some.inj (hc.symm.trans hc')
  exact hl tx (Confirmer.mem_unsubmitted_of_submitting? hs) ht

/-- A send hands over a hash of which nothing is known, and the ledger refuses the transaction when
the crew submits it. Whatever has happened in between, jobs to track the same hash included: if no
worker overheard the submission, the number the send held is given back, and no send that waits for
the hash is told that it was sent, neither before nor after; if one did, nothing is given back, and
the send that waits is told that it was sent. A crew of one worker overhears nothing. The counter
is endless: the last number of 64 bits could not be given back (`State.release_last`). -/
theorem refusal_undone_iff_not_overheard (terms : Terms) (tip baseFee : Fee.Shared SendId)
    (capacity : Nat) (tracker : Tracker) (before : List Label) (l : Label) (k : SendId)
    (hash : Hash) (n : Nat) (labels : List Label) (i : Nat) (tx : Signed) (f : Failure)
    (hk : l.send? = some k)
    (hu : ((fresh terms tip baseFee capacity tracker).run before).Unknown hash)
    (he : (((fresh terms tip baseFee capacity tracker).run before).step l).events =
      .enqueued hash n :: ((fresh terms tip baseFee capacity tracker).run before).events)
    (hr : ∀ q, .report q ∉ labels)
    (hn : Unoffered hash (((fresh terms tip baseFee capacity tracker).run before).step l).events
      ((((fresh terms tip baseFee capacity tracker).run before).step l).run labels).events)
    (hs : ((((fresh terms tip baseFee capacity tracker).run before).step l).run labels).Submits i tx)
    (ht : tx.hash = hash) :
    let d := (fresh terms tip baseFee capacity tracker).run before
    let e := (d.step l).run labels
    let e' := e.step (.workerAnswer i (.error f))
    (¬(d.step l).Overheard hash labels →
      (∃ s r, d.sends.get? k = some s ∧ (d.step l).tracking.enqueued.get? hash = some r ∧
        r.identity = s.signer.address ∧ r.nonce = n ∧ Undone e e' hash r f.asSubmission) ∧
      ∀ earlier, earlier <+: labels → ((d.step l).run earlier).Unassured hash) ∧
    ((d.step l).Overheard hash labels →
      e'.allocator = e.allocator ∧
      (e'.Waits k hash → Tells e' k (.ok (.hash hash)) (e'.step (.poll k)))) ∧
    ∀ c, tracker.confirmer = some c → c.Within 1 → ¬(d.step l).Overheard hash labels := by
  intro d e e'
  have hm := tidy_run terms tip baseFee capacity tracker before hash
  have hgone : ¬e.Lacks hash := fun hl => hl.not_submits ht hs
  rcases hu.handOver hm hk he with ⟨s, r, hsend, hid, hnum, hunheard⟩ | hlacks
  · refine ⟨fun hquiet => ?_, fun hover => ?_, fun c hc hone => ?_⟩
    · rcases hunheard.run hr hn with hsilent | ⟨hover, -⟩ | hlacks
      · have hlast := hsilent.unheard labels (List.prefix_refl labels)
        exact ⟨⟨s, r, hsend, hunheard.record, hid, hnum, hlast.refused hs ht f⟩,
          fun earlier hp => (hsilent.unheard earlier hp).unassured⟩
      · exact absurd hover hquiet
      · exact absurd hlacks hgone
    · rcases hunheard.run hr hn with hsilent | ⟨-, hmis⟩ | hlacks
      · exact absurd hover hsilent.quiet
      · exact hmis.refused hs ht f
      · exact absurd hlacks hgone
    · obtain ⟨c', hc', hone'⟩ := within_run
        (d := fresh terms tip baseFee capacity tracker) hc hone (before ++ [l])
      rw [run_append] at hc'
      exact not_overheard_of_within hc' hone' labels
  · exact absurd (hlacks.run hn) hgone

section Runs

/-- A crew of two workers. -/
def pair : Tracker where
  confirmer := some { size := 4, crew := 2, interval := 1000, depth := 0 }

/-- The crew has been started, and a send is about to hand over its transaction. -/
def manned : Dispatch :=
  (fresh Sample.terms Sample.fees Sample.fees 4 pair).run (.start :: Sample.begin 1 .sync)

def handed : Dispatch := manned.step (.answer 1 (.ok (.amount 0)) 0)

theorem unknown_manned : manned.Unknown (Sample.signed 0).hash := by
  refine ⟨?_, ⟨_, rfl, fun tx hm => ?_, fun hm => ?_, fun hm => ?_⟩⟩
  · rintro j ⟨s, hs, hst⟩
    have hs' : (if 1 = j then some (⟨.sync, Sample.signer, Sample.request,
      .number (.legacy 5) 21000⟩ : Send) else none) = some s := hs
    split at hs'
    · obtain rfl := Option.some.inj hs'
      simp at hst
    · simp at hs'
  · exact absurd hm List.not_mem_nil
  · exact absurd hm List.not_mem_nil
  · exact absurd hm List.not_mem_nil

/-- The first worker submits the transaction; its hash is to be tracked, but no worker gets to it. -/
def tracked : List Label := [.take 0, .track (Sample.signed 0).hash]

theorem unoffered_tracked (more : List Label) (new : List Event)
    (h : (handed.run (tracked ++ more)).events = new ++ handed.events)
    (hnew : ∀ n, .enqueued (Sample.signed 0).hash n ∉ new) :
    Unoffered (Sample.signed 0).hash handed.events (handed.run (tracked ++ more)).events := by
  intro later n he
  rw [← List.append_cancel_right (h.symm.trans he)]
  exact hnew n

theorem refusal_undone_while_tracked :
    let hash := (Sample.signed 0).hash
    let e := handed.run tracked
    let e' := e.step (.workerAnswer 0 (.error refusal))
    manned.Unknown hash ∧ handed.events = .enqueued hash 0 :: manned.events ∧
      Unoffered hash handed.events e.events ∧ e.Submits 0 (Sample.signed 0) ∧
      ¬handed.Overheard hash tracked ∧ e'.allocator.Free Sample.signer.address 0 ∧
      Tells e' 1 (.error (.failed refusal)) (e'.step (.poll 1)) := by
  intro hash e e'
  have hquiet : Unoffered hash handed.events e.events :=
    unoffered_tracked [] [.tracked hash] rfl (by simp)
  have hsubmits : e.Submits 0 (Sample.signed 0) := ⟨_, rfl, rfl⟩
  have hnot : ¬handed.Overheard hash tracked := by
    intro hover
    rcases overheard_cons.mp hover with ⟨c, i, hc, -, ho⟩ | hover
    · obtain rfl := Option.some.inj hc
      have hhead : some (Job.submit (Sample.signed 0)) = some (.track hash) := ho.takes.2
      simp at hhead
    · rcases overheard_cons.mp hover with ⟨c, i, -, hl, -⟩ | hover
      · simp at hl
      · exact not_overheard_nil hover
  have hreports : ∀ q, .report q ∉ tracked := by simp [tracked]
  obtain ⟨hundone, -, -⟩ := refusal_undone_iff_not_overheard Sample.terms Sample.fees Sample.fees 4 pair
    (.start :: Sample.begin 1 .sync) (.answer 1 (.ok (.amount 0)) 0) 1 hash 0 tracked 0
    (Sample.signed 0) refusal rfl unknown_manned rfl hreports hquiet hsubmits rfl
  obtain ⟨⟨s, r, hs, hr, -, -, hu⟩, -⟩ := hundone hnot
  have hrec : handed.tracking.enqueued.get? hash = some firstHeld := Keyed.get?_put_self [] _ _
  obtain rfl : firstHeld = r := Option.some.inj (hrec.symm.trans hr)
  -- named by `e` and `e'`, which are not to be evaluated: that would compare hashes
  have hundo : Undone e e' hash firstHeld refusal := hu
  refine ⟨unknown_manned, rfl, hquiet, hsubmits, hnot, ?_, ?_⟩
  · exact hundo.free ⟨1, [], 1⟩ rfl rfl
  · exact hundo.told 1 ((hsubmits.waits refusal 1).mpr ⟨_, rfl, rfl⟩)

/-- The second worker takes the hash to track while the first one is still submitting: the refused
transaction counts as sent, its number is not free again, and its send is told that it was sent. -/
theorem refused_but_told_sent :
    let hash := (Sample.signed 0).hash
    let e := handed.run (tracked ++ [.take 1])
    let e' := e.step (.workerAnswer 0 (.error refusal))
    e'.events = [.reported (.failed hash refusal), .reported (.sent hash), .tracked hash,
        .enqueued hash 0] ∧
      e.Submits 0 (Sample.signed 0) ∧ ¬e'.allocator.Free Sample.signer.address 0 ∧
      e'.Waits 1 hash ∧ Tells e' 1 (.ok (.hash hash)) (e'.step (.poll 1)) := by
  intro hash e e'
  have hquiet : Unoffered hash handed.events e.events :=
    unoffered_tracked [.take 1] [.reported (.sent hash), .tracked hash] rfl (by simp)
  have hsubmits : e.Submits 0 (Sample.signed 0) := ⟨_, rfl, rfl⟩
  have hflight : (handed.run tracked).Overhears hash (.take 1) :=
    ⟨_, 1, rfl, rfl, ⟨⟨⟨[], rfl⟩, rfl⟩, 0, Sample.signed 0, by decide, rfl, rfl⟩⟩
  have hover : handed.Overheard hash (tracked ++ [.take 1]) := ⟨tracked, .take 1, [], rfl, hflight⟩
  have hgone : ∀ {d : Dispatch}, d.Submits 0 (Sample.signed 0) → ¬d.Lacks hash :=
    fun hs hl => hl.not_submits rfl hs
  have hm := tidy_run Sample.terms Sample.fees Sample.fees 4 pair (.start :: Sample.begin 1 .sync) hash
  have hmis : Misheard e 1 hash := by
    rcases unknown_manned.handOver hm (l := .answer 1 (.ok (.amount 0)) 0) rfl rfl with
      ⟨s, r, -, -, -, hu⟩ | hl
    · rcases hu.run (by simp [tracked]) hquiet with hs | ⟨-, hmis⟩ | hl
      · exact absurd hover hs.quiet
      · exact hmis
      · exact absurd hl (hgone hsubmits)
    · exact absurd (hl.run hquiet) (hgone hsubmits)
  obtain ⟨hkept, htold⟩ := hmis.refused hsubmits rfl refusal
  have hwaits : e'.Waits 1 hash := (hsubmits.waits refusal 1).mpr ⟨_, rfl, rfl⟩
  have hevents : e'.events = .reported (.failed hash refusal) :: e.events := by
    obtain ⟨t, hstep⟩ := hsubmits.refused refusal
    show (e.step (.workerAnswer 0 (.error refusal))).events = _
    rw [hstep, report_eq]
    rfl
  refine ⟨hevents, hsubmits, ?_, hwaits, htold hwaits⟩
  rintro ⟨s, hs, hfree⟩
  have hres : e.allocator.entries.get? Sample.signer.address = some ⟨1, [], 1⟩ := rfl
  rw [hkept, hres] at hs
  obtain rfl := Option.some.inj hs
  simp at hfree

end Runs

end Dispatch

end Outbox
