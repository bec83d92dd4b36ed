import Outbox.Proofs.Send.Frame
import Outbox.Proofs.Send.Holdings

namespace Outbox.Dispatch

open Ledger Nonce

/-- The sends submit by themselves, and nobody but they touch the state of `who`. -/
def Label.Direct (who : Address) : Label → Prop
  | .call _ mode _ _ => mode = .async
  | .reset other _ => other ≠ who
  | .release other _ => other ≠ who
  | _ => True

/-- What a label tells a send that was taken. -/
def toldTaken (d : Dispatch) : Label → List (SendId × Signed)
  | .answer k (.ok _) _ => ((d.inFlight? k).map (k, ·)).toList
  | _ => []

/-- Only sends that submit by themselves, nothing handed over, and `who`'s numbers accounted for. -/
structure Quiet (who : Address) (start? : Option Nat) (spent : List Nat)
    (others : List Reservation) (d : Dispatch) : Prop where
  holdings : Holdings who start? spent others d.allocator d.sends
  modes : ∀ k s, d.sends.get? k = some s → s.mode = .async
  unrecorded : d.tracking.enqueued = []
  unmeddled : d.tracker.reset = none

namespace Quiet

variable {who : Address} {start? : Option Nat} {spent : List Nat} {others : List Reservation}
  {d d' e : Dispatch} {k : SendId} {s : Send}

theorem of_like (h : Quiet who start? spent others d) (hl : Like d e) :
    Quiet who start? spent others e :=
  ⟨by rw [hl.allocator, hl.sends]; exact h.holdings, by rw [hl.sends]; exact h.modes,
    by rw [hl.tracking]; exact h.unrecorded, by rw [hl.tracker]; exact h.unmeddled⟩

theorem without (h : Quiet who start? spent others d) (hk : d.sends.get? k = some s)
    (hw : Without d k d') : Quiet who start? spent (s.carries who ++ others) d' := by
  refine ⟨?_, ?_, by rw [hw.tracking]; exact h.unrecorded, by rw [hw.tracker]; exact h.unmeddled⟩
  · rw [hw.allocator, hw.sends]
    exact h.holdings.unload hk
  · rw [hw.sends]
    exact Keyed.forall_get?_erase h.modes k

theorem setStage {stage : Send.Stage}
    (h : Quiet who start? spent (Send.carries who { s with stage := stage } ++ others) d)
    (hk : d.sends.get? k = some s) (hs : s.stage.Plain)
    (hp : Send.Proper { s with stage := stage }) :
    Quiet who start? spent others (d.setStage k s stage) := by
  have hu := h.holdings.unload hk
  rw [Send.carries_plain hs] at hu
  exact ⟨hu.load hp, Keyed.forall_get?_put h.modes (h.modes k s hk), h.unrecorded, h.unmeddled⟩

theorem sign {held : Reservation} (h : Quiet who start? spent (held.mine who ++ others) d)
    (hk : d.sends.get? k = some s) (hs : s.stage.Plain)
    (hi : held.identity = s.signer.address) (price : Price) (gas : Nat) :
    Quiet who start? spent others (d.sign k s price gas held) := by
  rcases sign_cases d k s price gas held with ⟨f, hf⟩ | ⟨tx, hsender, hnonce, ht⟩
  · rw [hf]
    have hg : Quiet who start? spent others
        { d with allocator := (d.allocator.giveBack held).2 } :=
      ⟨h.holdings.giveBack, h.modes, h.unrecorded, h.unmeddled⟩
    have hw := hg.without hk (without_finish _ k (.error (.failed f)))
    rw [Send.carries_plain hs] at hw
    exact hw
  · rw [ht]
    simp only [deliver]
    rw [h.modes k s hk]
    refine h.setStage hk hs fun tx' held' hst => ?_
    obtain ⟨rfl, rfl⟩ := Send.Stage.submit.inj hst
    exact ⟨hsender, hnonce, hi⟩

theorem advance (h : Quiet who start? spent others d) (hk : d.sends.get? k = some s)
    (hs : s.stage.Plain) (ha : Advance d k s d') (he : ¬d'.allocator.Evicted who) :
    Quiet who start? spent others d' := by
  cases ha with
  | waits e stage hl hp =>
    have hq : Quiet who start? spent (Send.carries who { s with stage := stage } ++ others) e := by
      rw [Send.carries_plain (s := { s with stage := stage }) hp]
      exact h.of_like hl
    refine hq.setStage (by rw [hl.sends]; exact hk) hs fun tx held hst => ?_
    have hst' : stage = .submit tx held := hst
    rw [hst'] at hp
    exact absurd hp id
  | fails e f hl =>
    have hw := (h.of_like hl).without (by rw [hl.sends]; exact hk)
      (without_finish e k (.error (.failed f)))
    rw [Send.carries_plain hs] at hw
    exact hw
  | signs e price gas held a hl ht =>
    have hev : ¬a.Evicted who :=
      (sign_moves { e with allocator := a } k s price gas held).not_evicted he
    obtain ⟨t, hi⟩ := Allocator.take?_issued ht
    have hq : Quiet who start? spent (held.mine who ++ others) { e with allocator := a } :=
      ⟨by rw [hl.sends]; exact h.holdings.take? ht hev, by rw [hl.sends]; exact h.modes,
        by rw [hl.tracking]; exact h.unrecorded, by rw [hl.tracker]; exact h.unmeddled⟩
    exact hq.sign (by rw [hl.sends]; exact hk) hs (by rw [hi.reservation]) price gas

theorem report (h : Quiet who start? spent others d) (r : Report) :
    Quiet who start? spent others (d.report r) := by
  rw [report_eq]
  have ha : (d.tracking.report d.allocator r).2 = d.allocator := by
    rcases Tracking.allocator_report d.tracking d.allocator r with ha | ⟨_, q, _, hq, _⟩
    · exact ha
    · rw [h.unrecorded] at hq
      simp [Keyed.get?] at hq
  refine ⟨by rw [ha]; exact h.holdings, h.modes, ?_, h.unmeddled⟩
  simp only [Tracking.enqueued_report]
  split <;> simp [h.unrecorded, Keyed.erase]

theorem reportAll (h : Quiet who start? spent others d) (rs : List Report) :
    Quiet who start? spent others (d.reportAll rs) := by
  induction rs generalizing d with
  | nil => exact h
  | cons r rs ih => exact ih (h.report r)

theorem withConfirmer (h : Quiet who start? spent others d)
    (f : Confirmer → Confirmer × List Report) :
    Quiet who start? spent others (d.withConfirmer f) := by
  cases hc : d.tracker.confirmer with
  | none =>
    rw [withConfirmer_none hc]
    exact h
  | some c =>
    rw [withConfirmer_some hc]
    refine reportAll ?_ _
    exact ⟨h.holdings, h.modes, h.unrecorded, h.unmeddled⟩

/-- A send that goes away gives back what it carries. -/
theorem gone (h : Quiet who start? spent others d) (hk : d.sends.get? k = some s)
    (hw : Without (d.leftBy s) k d') : Quiet who start? spent others d' := by
  refine ⟨?_, ?_, by rw [hw.tracking, enqueued_leftBy]; exact h.unrecorded,
    by rw [hw.tracker, tracker_leftBy]; exact h.unmeddled⟩
  · rw [hw.allocator, hw.sends, sends_leftBy]
    exact (h.holdings.unload hk).leftBy
  · rw [hw.sends, sends_leftBy]
    exact Keyed.forall_get?_erase h.modes k

theorem call (h : Quiet who start? spent others d) (k : SendId) (signer : Signer)
    (request : Request) : Quiet who start? spent others (d.call k .async signer request) := by
  simp only [Dispatch.call]
  split
  · exact h
  · next hk =>
    have hnone : d.sends.get? k = none := by simpa [Keyed.has] using hk
    refine ⟨?_, Keyed.forall_get?_put h.modes rfl, h.unrecorded, h.unmeddled⟩
    refine Holdings.load (s := ⟨.async, signer, request, .probe⟩) ?_ (fun _ _ hst => by simp at hst)
    rw [Keyed.erase_of_get?_none hnone]
    exact h.holdings

theorem turn (h : Quiet who start? spent others d) (now : Int)
    (he : ¬(d.turn k now).allocator.Evicted who) :
    Quiet who start? spent others (d.turn k now) := by
  rcases turn_cases d k now with heq | ⟨s, hk, hs, ha⟩
  · rw [heq]
    exact h
  · exact h.advance hk hs ha he

theorem poll (h : Quiet who start? spent others d) :
    Quiet who start? spent others (d.poll k) := by
  rcases poll_cases d k with heq | ⟨s, hash, hk, hst, hw⟩
  · rw [heq]
    exact h
  · have hd : Quiet who start? spent others
        { d with tracking := d.tracking.removeWaiter hash } :=
      ⟨h.holdings, h.modes, h.unrecorded, h.unmeddled⟩
    have hq := hd.without hk hw
    rw [show s.carries who = [] by simp [Send.carries, hst]] at hq
    exact hq

theorem cancel (h : Quiet who start? spent others d) :
    Quiet who start? spent others (d.cancel k) := by
  rcases cancel_cases d k with ⟨_, heq⟩ | ⟨s, hk, hw⟩
  · rw [heq]
    exact h
  · exact h.gone hk hw

theorem expire (h : Quiet who start? spent others d) :
    Quiet who start? spent others (d.expire k) := by
  rcases expire_cases d k with ⟨_, heq⟩ | ⟨s, hk, hw⟩
  · rw [heq]
    exact h
  · exact h.gone hk hw

theorem track (h : Quiet who start? spent others d) (hash : Hash) :
    Quiet who start? spent others (d.track hash).2 := by
  have hm : (d.log (.tracked hash)).meddle = d.log (.tracked hash) := meddle_of_unmeddled h.unmeddled
  unfold Dispatch.track
  rw [hm]
  simp only
  split
  · exact ⟨h.holdings, h.modes, h.unrecorded, h.unmeddled⟩
  · next e hp =>
    obtain ⟨c, rfl, _⟩ := push_ok hp
    exact ⟨h.holdings, h.modes, h.unrecorded, h.unmeddled⟩

/-- An answer to a send that submits is either the end of its number or gives the number back. -/
theorem answer (h : Quiet who start? spent others d) (a : Except Failure Answer) (now : Int)
    (he : ¬(d.answer k a now).allocator.Evicted who) :
    ∃ start?', Quiet who start?'
      (numbersFrom who ((toldTaken d (.answer k a now)).map Prod.snd) ++ spent) others
      (d.answer k a now) := by
  have hnone : d.inFlight? k = none → toldTaken d (.answer k a now) = [] := by
    intro hf
    cases a <;> simp [toldTaken, hf]
  rcases answer_cases d k a now with ⟨hf, heq⟩ | ⟨s, hk, hcases⟩
  · rw [hnone hf, heq]
    exact ⟨start?, h⟩
  · rcases hcases with ⟨hs, ha⟩ | ⟨tx, held, hst, heq⟩ | ⟨price, gas, n, hst, _, heq⟩
    · rw [hnone (inFlight?_of_plain hk hs)]
      exact ⟨start?, h.advance hk hs ha he⟩
    · rw [heq]
      cases a with
      | error f => exact ⟨start?, h.gone hk (submitAnswered_error hst k f)⟩
      | ok x =>
        have hf : d.inFlight? k = some tx := inFlight?_eq_some.mpr ⟨s, held, hk, hst⟩
        obtain ⟨hsender, hnum, hid⟩ := h.holdings.proper k s hk tx held hst
        have hq := h.without hk (submitAnswered_ok d k tx held x)
        rw [show s.carries who = held.mine who by simp [Send.carries, hst]] at hq
        have htold : numbersFrom who ((toldTaken d (.answer k (.ok x) now)).map Prod.snd) =
            (held.mine who).map (·.nonce) := by
          simp only [numbersFrom, Reservation.mine]
          rw [hid, ← hsender]
          by_cases hw : tx.sender = who <;> simp [toldTaken, hf, hw, hnum]
        rw [htold]
        exact ⟨start?, hq.holdings.spend, hq.modes, hq.unrecorded, hq.unmeddled⟩
    · have hs : s.stage.Plain := hst ▸ trivial
      rw [hnone (inFlight?_of_plain hk hs), heq]
      rw [heq] at he
      have hev : ¬(d.allocator.install s.signer.address n).2.Evicted who :=
        (sign_moves { d with allocator := (d.allocator.install s.signer.address n).2 }
          k s price gas _).not_evicted he
      have hq : Quiet who (start?.or (if s.signer.address = who then some n else none)) spent
          ((d.allocator.install s.signer.address n).1.mine who ++ others)
          { d with allocator := (d.allocator.install s.signer.address n).2 } :=
        ⟨h.holdings.install n hev, h.modes, h.unrecorded, h.unmeddled⟩
      exact ⟨_, hq.sign hk hs (Allocator.install_identity _ _ _) price gas⟩

theorem step (h : Quiet who start? spent others d) (l : Label) (hl : l.Direct who)
    (he : ¬(d.step l).allocator.Evicted who) :
    ∃ start?', Quiet who start?' (numbersFrom who ((toldTaken d l).map Prod.snd) ++ spent) others
      (d.step l) := by
  cases l with
  | call k mode signer request =>
    obtain rfl : mode = .async := hl
    exact ⟨start?, h.call k signer request⟩
  | answer k a now => exact h.answer a now he
  | turn k now => exact ⟨start?, h.turn now he⟩
  | poll k => exact ⟨start?, h.poll⟩
  | expire k => exact ⟨start?, h.expire⟩
  | cancel k => exact ⟨start?, h.cancel⟩
  | start =>
    have hd : Quiet who start? spent others { d with started := true } :=
      ⟨h.holdings, h.modes, h.unrecorded, h.unmeddled⟩
    exact ⟨start?, hd.withConfirmer fun c => (c.start, [])⟩
  | take i => exact ⟨start?, h.withConfirmer _⟩
  | workerAnswer i a => exact ⟨start?, h.withConfirmer _⟩
  | verdict i v =>
    refine ⟨start?, ?_⟩
    simp only [Dispatch.step, verdict]
    split
    · exact h
    · split
      · exact h
      · refine withConfirmer ?_ _
        exact ⟨h.holdings, h.modes, h.unrecorded, h.unmeddled⟩
  | tick i => exact ⟨start?, h.withConfirmer fun c => (c.tick i, [])⟩
  | leave i => exact ⟨start?, h.withConfirmer fun c => (c.leave i, [])⟩
  | stop => exact ⟨start?, h.withConfirmer fun c => (c.stop, [])⟩
  | drain => exact ⟨start?, h.withConfirmer _⟩
  | report r => exact ⟨start?, h.report r⟩
  | track hash => exact ⟨start?, h.track hash⟩
  | reset other n =>
    have hq := h.holdings.of_leaves (Allocator.reset_leaves d.allocator n (Ne.symm hl)) he
    exact ⟨start?, hq, h.modes, h.unrecorded, h.unmeddled⟩
  | release other n =>
    have hkept := Allocator.get?_release_of_ne d.allocator n none (Ne.symm hl)
    have hq := h.holdings.of_leaves (.inl hkept) he
    exact ⟨start?, hq, h.modes, h.unrecorded, h.unmeddled⟩

end Quiet

end Outbox.Dispatch
