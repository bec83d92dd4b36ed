import Outbox.Proofs.Crew.Shift
import Outbox.Proofs.Send.Looks

namespace Outbox

open Ledger Nonce

/-- A verdict does not concern a worker that checks nothing. -/
theorem Confirmer.verdict_of_inHand?_eq_none {c : Confirmer} {i : Nat} (h : c.inHand? i = none)
    (v : Except Failure Unit) : c.verdict i v = (c, []) := by
  simp only [inHand?] at h
  simp only [verdict]
  split
  · next hw =>
    rw [hw] at h
    simp at h
  · rfl

namespace Dispatch

variable {d d' e : Dispatch} {k : SendId} {s : Send}

/-- A step of send `k` hands a transaction over, with a number just issued to its signer, or has
nothing to do with the tracker. -/
inductive SendStep (d : Dispatch) (k : SendId) : Dispatch → Prop where
  | apart (d' : Dispatch) (ht : d'.tracker = d.tracker) (he : d'.events = d.events) :
      SendStep d k d'
  | hands (e : Dispatch) (a : Allocator) (s : Send) (tx : Signed) (held : Reservation)
      (hl : Like { d with allocator := a } e) (hk : d.sends.get? k = some s)
      (hn : tx.tx.nonce = held.nonce) (hid : held.identity = s.signer.address) :
      SendStep d k (e.handOver k s tx held)

theorem SendStep.of_like {a : Allocator} (hl : Like { d with allocator := a } e)
    (h : SendStep e k d') : SendStep d k d' := by
  cases h with
  | apart _ ht he => exact .apart _ (ht.trans hl.tracker) (he.trans hl.events)
  | hands e' b s tx held hl' hk hn hid =>
    have hlike : Like { d with allocator := b } e' :=
      ⟨hl'.terms.trans hl.terms, hl'.allocator, hl'.tracker.trans hl.tracker,
        hl'.tracking.trans hl.tracking, hl'.sends.trans hl.sends, hl'.events.trans hl.events⟩
    have hsends : e.sends = d.sends := hl.sends
    exact .hands e' b s tx held hlike (by rw [← hsends]; exact hk) hn hid

theorem Without.sendStep (h : Without (d.leftBy s) k d') : SendStep d k d' := by
  refine .apart d' (h.tracker.trans (tracker_leftBy d s)) (h.events.trans ?_)
  simp only [leftBy]
  split <;> rfl

theorem sign_sendStep {held : Reservation} (hk : d.sends.get? k = some s)
    (hid : held.identity = s.signer.address) (price : Price) (gas : Nat) :
    SendStep d k (d.sign k s price gas held) := by
  rcases sign_cases d k s price gas held with ⟨f, hf⟩ | ⟨tx, -, hn, ht⟩
  · rw [hf]
    exact .apart _ rfl rfl
  · rw [ht]
    simp only [deliver]
    split
    · exact .apart _ rfl rfl
    · exact .apart _ rfl rfl
    · exact .hands d d.allocator s tx held (.refl d) hk hn hid

theorem Advance.sendStep (h : Advance d k s d') (hk : d.sends.get? k = some s) : SendStep d k d' := by
  cases h with
  | waits e stage hl _ => exact .apart _ hl.tracker hl.events
  | fails e f hl => exact .apart _ hl.tracker hl.events
  | signs e price gas held a hl ht =>
    obtain ⟨t, hi⟩ := Allocator.take?_issued ht
    have hid : held.identity = s.signer.address := by rw [hi.reservation]
    have hk' : ({ e with allocator := a } : Dispatch).sends.get? k = some s := by
      rw [show ({ e with allocator := a } : Dispatch).sends = d.sends from hl.sends]
      exact hk
    have hlike : Like { d with allocator := a } { e with allocator := a } :=
      ⟨hl.terms, rfl, hl.tracker, hl.tracking, hl.sends, hl.events⟩
    exact (sign_sendStep hk' hid price gas).of_like hlike

theorem answer_sendStep (d : Dispatch) (k : SendId) (a : Except Failure Answer) (now : Int) :
    SendStep d k (d.answer k a now) := by
  rcases answer_cases d k a now with ⟨_, h⟩ | ⟨s, hk, ⟨_, h⟩ | ⟨tx, held, hst, h⟩ | ⟨p, g, n, _, _, h⟩⟩
  · rw [h]
    exact .apart d rfl rfl
  · exact h.sendStep hk
  · rw [h]
    cases a with
    | ok x => exact .apart _ rfl rfl
    | error f => exact (submitAnswered_error hst k f).sendStep
  · rw [h]
    have hk' : ({ d with allocator := (d.allocator.install s.signer.address n).2 } :
      Dispatch).sends.get? k = some s := hk
    exact (sign_sendStep hk' (Allocator.install_identity _ _ _) p g).of_like (.refl _)

theorem step_sendStep (d : Dispatch) {l : Label} (hl : l.send? = some k) :
    SendStep d k (d.step l) := by
  cases l with
  | call j mode signer request =>
    simp only [step, call]
    split <;> exact .apart _ rfl rfl
  | answer j a now =>
    obtain rfl := Option.some.inj hl
    exact answer_sendStep d j a now
  | turn j now =>
    obtain rfl := Option.some.inj hl
    rcases turn_cases d j now with h | ⟨s, hk, _, h⟩
    · rw [step, h]
      exact .apart d rfl rfl
    · exact h.sendStep hk
  | poll j =>
    rcases poll_cases d j with h | ⟨s, g, _, _, hw⟩
    · rw [step, h]
      exact .apart d rfl rfl
    · exact .apart _ hw.tracker hw.events
  | expire j =>
    obtain rfl := Option.some.inj hl
    rcases expire_cases d j with ⟨_, h⟩ | ⟨s, _, hw⟩
    · rw [step, h]
      exact .apart d rfl rfl
    · exact hw.sendStep
  | cancel j =>
    obtain rfl := Option.some.inj hl
    rcases cancel_cases d j with ⟨_, h⟩ | ⟨s, _, hw⟩
    · rw [step, h]
      exact .apart d rfl rfl
    · exact hw.sendStep
  | _ => simp [Label.send?] at hl

/-- What a label lets the crew do. -/
def Label.act? : Label → Option Confirmer.Act
  | .take i => some (.take i)
  | .workerAnswer i a => some (.answer i a)
  | .verdict i v => some (.verdict i v)
  | .tick i => some (.tick i)
  | .leave i => some (.leave i)
  | .stop => some .stop
  | .drain => some .drain
  | _ => none

theorem Label.act?_ne_enqueue {l : Label} {x : Confirmer.Act} (h : l.act? = some x) (job : Job) :
    x ≠ .enqueue job := by
  rintro rfl
  cases l <;> simp [Label.act?] at h

/-- What a step makes of the crew, and what it reports. -/
inductive CrewStep (d : Dispatch) (l : Label) (c : Confirmer) : Confirmer → List Report → Prop where
  | rests : CrewStep d l c c []
  | told (r : Report) (hl : l = .report r) : CrewStep d l c c [r]
  | starts : CrewStep d l c c.start []
  | acts (x : Confirmer.Act) (hl : l.act? = some x) : CrewStep d l c (c.act x).1 (c.act x).2
  | tracks (g : Hash) : CrewStep d l c { c with queue := c.queue ++ [.track g] } []
  | submits (tx : Signed) (n : Nat) (he : (d.step l).events = .enqueued tx.hash n :: d.events) :
      CrewStep d l c { c with queue := c.queue ++ [.submit tx] } []

theorem moments_reports (t : Tracking) (a : Allocator) (rs : List Report) :
    (t.moments a rs).map Moment.report = rs.reverse := by
  induction rs generalizing t a with
  | nil => rfl
  | cons r rs ih =>
    rw [Tracking.moments, List.map_append, ih, List.reverse_cons]
    rfl

theorem crewMoments_reports {c : Confirmer} (hc : d.tracker.confirmer = some c)
    (f : Confirmer → Confirmer × List Report) :
    (d.crewMoments f).map Moment.report = (f c).2.reverse := by
  simp only [crewMoments, hc]
  exact moments_reports _ _ _

theorem tracker_reportAll (d : Dispatch) (rs : List Report) :
    (d.reportAll rs).tracker = d.tracker := by
  induction rs generalizing d with
  | nil => rfl
  | cons r rs ih => exact ih (d.report r)

/-- A hand-over that is refused leaves the crew as it was; otherwise the transaction is in its queue
and the number recorded. -/
theorem handOver_crew {c : Confirmer} (hc : d.tracker.confirmer = some c) (k : SendId) (s : Send)
    (tx : Signed) (held : Reservation) :
    (d.handOver k s tx held).tracker.confirmer = some c ∨
      (d.handOver k s tx held).tracker.confirmer =
          some { c with queue := c.queue ++ [.submit tx] } ∧
        (d.handOver k s tx held).tracking.enqueued.get? tx.hash = some held := by
  rcases handOver_cases d k s tx held with ⟨f, hf⟩ | ⟨o', hp, hw⟩
  · rw [hf]
    exact .inl hc
  · obtain ⟨c', rfl, hpush⟩ := push_ok hp
    obtain ⟨-, rfl⟩ := hpush c hc
    right
    rcases hw with hw | hw
    · rw [hw]
      exact ⟨rfl, Keyed.get?_put_self _ _ _⟩
    · rw [hw]
      exact ⟨rfl, Keyed.get?_put_self _ _ _⟩

theorem withConfirmer_crew {c : Confirmer} (hc : d.tracker.confirmer = some c)
    (f : Confirmer → Confirmer × List Report) :
    (d.withConfirmer f).tracker.confirmer = some (f c).1 := by
  rw [withConfirmer_some hc, tracker_reportAll]

theorem step_crew {c : Confirmer} (hc : d.tracker.confirmer = some c) (l : Label) :
    ∃ c' rs, (d.step l).tracker.confirmer = some c' ∧ CrewStep d l c c' rs ∧
      (d.momentsOf l).map Moment.report = rs.reverse := by
  have works : ∀ f : Confirmer → Confirmer × List Report,
      (d.withConfirmer f).tracker.confirmer = some (f c).1 ∧
        (d.crewMoments f).map Moment.report = (f c).2.reverse :=
    fun f => ⟨withConfirmer_crew hc f, crewMoments_reports hc f⟩
  cases hs : l.send? with
  | some k =>
    rw [momentsOf_send hs]
    have hstep := step_sendStep d hs
    generalize hd' : d.step l = d' at hstep
    cases hstep with
    | apart _ ht _ =>
      rw [ht]
      exact ⟨c, [], hc, .rests, rfl⟩
    | hands e a s tx held hl _ _ _ =>
      have hce : e.tracker.confirmer = some c := by
        rw [hl.tracker]
        exact hc
      rcases handOver_crew hce k s tx held with hcrew | ⟨hcrew, -⟩
      · exact ⟨c, [], hcrew, .rests, rfl⟩
      · refine ⟨_, [], hcrew, .submits tx tx.tx.nonce ?_, rfl⟩
        rw [hd', handOver_events, hl.events]
  | none =>
    cases l with
    | take i => exact ⟨_, _, (works _).1, .acts (.take i) rfl, (works _).2⟩
    | workerAnswer i a => exact ⟨_, _, (works _).1, .acts (.answer i a) rfl, (works _).2⟩
    | drain => exact ⟨_, _, (works _).1, .acts .drain rfl, (works _).2⟩
    | tick i => exact ⟨_, _, (works _).1, .acts (.tick i) rfl, rfl⟩
    | leave i => exact ⟨_, _, (works _).1, .acts (.leave i) rfl, rfl⟩
    | stop => exact ⟨_, _, (works _).1, .acts .stop rfl, rfl⟩
    | start =>
      have hstart : ({ d with started := true } : Dispatch).tracker.confirmer = some c := hc
      exact ⟨_, [], withConfirmer_crew hstart _, .starts, rfl⟩
    | verdict i v =>
      refine ⟨_, _, ?_, .acts (.verdict i v) rfl, (works fun c => c.verdict i v).2⟩
      simp only [step, verdict, hc]
      cases hi : c.inHand? i with
      | none =>
        simp only [Confirmer.act, Confirmer.verdict_of_inHand?_eq_none hi]
        exact hc
      | some g => exact withConfirmer_crew (d := d.log (.checked g c.depth)) hc _
    | report r => exact ⟨c, [r], hc, .told r rfl, rfl⟩
    | track g =>
      simp only [step, track]
      rw [meddle_eq]
      split
      · exact ⟨c, [], hc, .rests, rfl⟩
      · next e hp =>
        obtain ⟨c', rfl, hpush⟩ := push_ok hp
        obtain ⟨-, rfl⟩ := hpush c hc
        exact ⟨_, [], rfl, .tracks g, rfl⟩
    | reset who n => exact ⟨c, [], hc, .rests, rfl⟩
    | release who n => exact ⟨c, [], hc, .rests, rfl⟩
    | _ => simp [Label.send?] at hs

end Dispatch

end Outbox
