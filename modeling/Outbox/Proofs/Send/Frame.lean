import Outbox.Proofs.Nonce.Residents
import Outbox.Proofs.Send.Steps
import Outbox.Proofs.Tracking

namespace Outbox.Dispatch

open Ledger Nonce

theorem suffix_of_eq {α : Type} {xs ys : List α} (h : ys = xs) : xs <:+ ys := by
  subst h
  exact List.suffix_rfl

/-- The send that a label is about. -/
def Label.send? : Label → Option SendId
  | .call k _ _ _ => some k
  | .answer k _ _ => some k
  | .turn k _ => some k
  | .poll k => some k
  | .expire k => some k
  | .cancel k => some k
  | _ => none

/-- From `d` to `d'` no send but `k` changes, the terms stay, and no event or eviction is
forgotten. -/
structure Moves (k : Option SendId) (d d' : Dispatch) : Prop where
  terms : d'.terms = d.terms
  sends : ∀ j, k ≠ some j → d'.sends.get? j = d.sends.get? j
  evictions : d.allocator.evictions <:+ d'.allocator.evictions
  events : d.events <:+ d'.events

namespace Moves

variable {k : Option SendId} {d e f : Dispatch}

theorem refl (k : Option SendId) (d : Dispatch) : Moves k d d :=
  ⟨rfl, fun _ _ => rfl, List.suffix_rfl, List.suffix_rfl⟩

theorem trans (h : Moves k d e) (g : Moves k e f) : Moves k d f :=
  ⟨g.terms.trans h.terms, fun j hj => (g.sends j hj).trans (h.sends j hj), h.evictions.trans g.evictions,
    h.events.trans g.events⟩

theorem of_like (h : Like d e) : Moves k d e :=
  ⟨h.terms, fun _ _ => by rw [h.sends], suffix_of_eq (by rw [h.allocator]), suffix_of_eq h.events⟩

theorem of_without {i : SendId} (h : Without d i e) : Moves (some i) d e := by
  refine ⟨h.terms, fun j hj => ?_, suffix_of_eq (by rw [h.allocator]), suffix_of_eq h.events⟩
  rw [h.sends, Keyed.get?_erase, if_neg (fun hji => hj (by rw [hji]))]

/-- A state that is still there was there before. -/
theorem not_evicted (h : Moves k d e) {who : Address} (he : ¬e.allocator.Evicted who) :
    ¬d.allocator.Evicted who :=
  fun hd => he (hd.mono h.evictions)

theorem setStage (d : Dispatch) (i : SendId) (s : Send) (stage : Send.Stage) :
    Moves (some i) d (d.setStage i s stage) := by
  refine ⟨rfl, fun j hj => ?_, List.suffix_rfl, List.suffix_rfl⟩
  show (d.sends.put i _).get? j = d.sends.get? j
  rw [Keyed.get?_put, if_neg (fun hji => hj (by rw [hji]))]

theorem allocator (k : Option SendId) (d : Dispatch) {a : Allocator}
    (h : d.allocator.evictions <:+ a.evictions) : Moves k d { d with allocator := a } :=
  ⟨rfl, fun _ _ => rfl, h, List.suffix_rfl⟩

theorem giveBack (k : Option SendId) (d : Dispatch) (r : Reservation) :
    Moves k d { d with allocator := (d.allocator.giveBack r).2 } :=
  allocator k d (suffix_of_eq (Allocator.evictions_release _ _ _ _))

end Moves

theorem meddled_moves (k : Option SendId) (d : Dispatch) :
    Moves k d { d with allocator := d.meddled } := by
  apply Moves.allocator
  simp only [meddled]
  split
  · exact List.suffix_rfl
  · exact Allocator.evictions_reset _ _ _

theorem offered_moves (k : Option SendId) (d : Dispatch) (tx : Signed) (held : Reservation) :
    Moves k d (d.offered tx held) :=
  ⟨rfl, fun _ _ => rfl, (meddled_moves k d).evictions, List.suffix_cons _ _⟩

theorem handOver_moves (d : Dispatch) (k : SendId) (s : Send) (tx : Signed) (held : Reservation) :
    Moves (some k) d (d.handOver k s tx held) := by
  have ho := offered_moves (some k) d tx held
  rcases handOver_cases d k s tx held with ⟨f, hf⟩ | ⟨o', hp, hw | hw⟩
  · rw [hf]
    refine (ho.trans ?_).trans (.of_without (without_finish _ _ _))
    exact ⟨rfl, fun _ _ => rfl, suffix_of_eq (Allocator.evictions_release _ _ _ _), List.suffix_rfl⟩
  · obtain ⟨c, rfl, _⟩ := push_ok hp
    rw [hw]
    refine (ho.trans ?_).trans (.of_without (without_finish _ _ _))
    exact ⟨rfl, fun _ _ => rfl, List.suffix_rfl, List.suffix_rfl⟩
  · obtain ⟨c, rfl, _⟩ := push_ok hp
    rw [hw]
    refine (ho.trans ?_).trans (.setStage _ _ _ _)
    exact ⟨rfl, fun _ _ => rfl, List.suffix_rfl, List.suffix_rfl⟩

theorem handOver_events (d : Dispatch) (k : SendId) (s : Send) (tx : Signed) (held : Reservation) :
    (d.handOver k s tx held).events = .enqueued tx.hash tx.tx.nonce :: d.events := by
  rcases handOver_cases d k s tx held with ⟨f, hf⟩ | ⟨o', hp, hw | hw⟩
  · rw [hf]
    rfl
  · obtain ⟨c, rfl, _⟩ := push_ok hp
    rw [hw]
    rfl
  · obtain ⟨c, rfl, _⟩ := push_ok hp
    rw [hw]
    rfl

theorem sign_moves (d : Dispatch) (k : SendId) (s : Send) (price : Price) (gas : Nat)
    (held : Reservation) : Moves (some k) d (d.sign k s price gas held) := by
  rcases sign_cases d k s price gas held with ⟨f, hf⟩ | ⟨tx, _, _, ht⟩
  · rw [hf]
    exact (Moves.giveBack _ d held).trans (.of_without (without_finish _ _ _))
  · rw [ht]
    simp only [deliver]
    split
    · exact .of_without (without_finish _ _ _)
    · exact .setStage _ _ _ _
    · exact handOver_moves d k s tx held

theorem Advance.moves {d d' : Dispatch} {k : SendId} {s : Send} (h : Advance d k s d') :
    Moves (some k) d d' := by
  cases h with
  | waits e stage he _ => exact (Moves.of_like he).trans (.setStage _ _ _ _)
  | fails e f he => exact (Moves.of_like he).trans (.of_without (without_finish _ _ _))
  | signs e price gas held a he ht =>
    obtain ⟨t, hi⟩ := Allocator.take?_issued ht
    refine ((Moves.of_like he).trans (.allocator _ e ?_)).trans (sign_moves _ _ _ _ _ _)
    rw [he.allocator]
    exact hi.evictions

theorem leftBy_moves (k : Option SendId) (d : Dispatch) (s : Send) : Moves k d (d.leftBy s) := by
  simp only [leftBy]
  split
  · exact .giveBack k d _
  · exact ⟨rfl, fun _ _ => rfl, List.suffix_rfl, List.suffix_rfl⟩
  · exact .refl k d

theorem answer_moves (d : Dispatch) (k : SendId) (a : Except Failure Answer) (now : Int) :
    Moves (some k) d (d.answer k a now) := by
  rcases answer_cases d k a now with ⟨_, h⟩ | ⟨s, _, ⟨_, h⟩ | ⟨tx, held, hst, h⟩ | ⟨p, g, n, _, _, h⟩⟩
  · rw [h]
    exact .refl _ d
  · exact h.moves
  · rw [h]
    cases a with
    | ok x => exact .of_without (submitAnswered_ok d k tx held x)
    | error f =>
      exact (leftBy_moves _ d s).trans (.of_without (submitAnswered_error hst k f))
  · rw [h]
    refine (Moves.allocator _ d ?_).trans (sign_moves _ _ _ _ _ _)
    exact Allocator.evictions_install _ _ _

theorem report_eq (d : Dispatch) (r : Report) :
    d.report r =
      { d with
        events := .reported r :: d.events
        tracking := (d.tracking.report d.allocator r).1
        allocator := (d.tracking.report d.allocator r).2 } := rfl

theorem report_moves (d : Dispatch) (r : Report) : Moves none d (d.report r) := by
  rw [report_eq]
  refine ⟨rfl, fun _ _ => rfl, ?_, List.suffix_cons _ _⟩
  show d.allocator.evictions <:+ (d.tracking.report d.allocator r).2.evictions
  rcases Tracking.allocator_report d.tracking d.allocator r with h | ⟨_, q, _, _, h⟩
  · exact suffix_of_eq (by rw [h])
  · exact suffix_of_eq (by rw [h]; exact Allocator.evictions_release _ _ _ _)

theorem reportAll_moves (d : Dispatch) (rs : List Report) : Moves none d (d.reportAll rs) := by
  induction rs generalizing d with
  | nil => exact .refl none d
  | cons r rs ih => exact (report_moves d r).trans (ih (d.report r))

theorem withConfirmer_moves (d : Dispatch) (f : Confirmer → Confirmer × List Report) :
    Moves none d (d.withConfirmer f) := by
  cases hc : d.tracker.confirmer with
  | none =>
    rw [withConfirmer_none hc]
    exact .refl none d
  | some c =>
    rw [withConfirmer_some hc]
    refine Moves.trans ?_ (reportAll_moves _ _)
    exact ⟨rfl, fun _ _ => rfl, List.suffix_rfl, List.suffix_rfl⟩

theorem track_moves (d : Dispatch) (hash : Hash) : Moves none d (d.track hash).2 := by
  unfold track
  rw [meddle_eq]
  have hm : Moves none d { d.log (.tracked hash) with allocator := (d.log (.tracked hash)).meddled } :=
    ⟨rfl, fun _ _ => rfl, (meddled_moves none d).evictions, List.suffix_cons _ _⟩
  simp only
  split
  · exact hm
  · next e hp =>
    obtain ⟨c, rfl, _⟩ := push_ok hp
    exact hm.trans ⟨rfl, fun _ _ => rfl, List.suffix_rfl, List.suffix_rfl⟩

theorem step_moves (d : Dispatch) (l : Label) : Moves l.send? d (d.step l) := by
  cases l with
  | call k mode signer request =>
    simp only [step, call]
    split
    · exact .refl _ d
    · refine ⟨rfl, fun j hj => ?_, List.suffix_rfl, List.suffix_rfl⟩
      show (d.sends.put k _).get? j = d.sends.get? j
      rw [Keyed.get?_put, if_neg (fun hji => hj (by rw [hji]; rfl))]
  | answer k a now => exact answer_moves d k a now
  | turn k now =>
    rcases turn_cases d k now with h | ⟨s, _, _, h⟩
    · rw [step, h]
      exact .refl _ d
    · exact h.moves
  | poll k =>
    rcases poll_cases d k with h | ⟨s, h, _, _, hw⟩
    · rw [step, h]
      exact .refl _ d
    · refine Moves.trans ?_ (.of_without hw)
      exact ⟨rfl, fun _ _ => rfl, List.suffix_rfl, List.suffix_rfl⟩
  | expire k =>
    rcases expire_cases d k with ⟨_, h⟩ | ⟨s, _, hw⟩
    · rw [step, h]
      exact .refl _ d
    · exact (leftBy_moves _ d s).trans (.of_without hw)
  | cancel k =>
    rcases cancel_cases d k with ⟨_, h⟩ | ⟨s, _, hw⟩
    · rw [step, h]
      exact .refl _ d
    · exact (leftBy_moves _ d s).trans (.of_without hw)
  | start =>
    refine Moves.trans ?_ (withConfirmer_moves { d with started := true } fun c => (c.start, []))
    exact ⟨rfl, fun _ _ => rfl, List.suffix_rfl, List.suffix_rfl⟩
  | take i => exact withConfirmer_moves d _
  | workerAnswer i a => exact withConfirmer_moves d _
  | verdict i v =>
    simp only [step, verdict]
    split
    · exact .refl _ d
    · split
      · exact .refl _ d
      · refine Moves.trans ?_ (withConfirmer_moves _ _)
        exact ⟨rfl, fun _ _ => rfl, List.suffix_rfl, List.suffix_cons _ _⟩
  | tick i => exact withConfirmer_moves d fun c => (c.tick i, [])
  | leave i => exact withConfirmer_moves d fun c => (c.leave i, [])
  | stop => exact withConfirmer_moves d fun c => (c.stop, [])
  | drain => exact withConfirmer_moves d _
  | report r => exact report_moves d r
  | track hash => exact track_moves d hash
  | reset who n => exact .allocator _ d (Allocator.evictions_reset _ _ _)
  | release who n => exact .allocator _ d (suffix_of_eq (Allocator.evictions_release _ who n none))

theorem run_moves (d : Dispatch) (ls : List Label) :
    d.allocator.evictions <:+ (d.run ls).allocator.evictions ∧ d.events <:+ (d.run ls).events := by
  induction ls generalizing d with
  | nil => exact ⟨List.suffix_rfl, List.suffix_rfl⟩
  | cons l ls ih =>
    have hm := step_moves d l
    obtain ⟨he, hv⟩ := ih (d.step l)
    exact ⟨hm.evictions.trans he, hm.events.trans hv⟩

theorem terms_run (d : Dispatch) (ls : List Label) : (d.run ls).terms = d.terms := by
  induction ls generalizing d with
  | nil => rfl
  | cons l ls ih => exact (ih (d.step l)).trans (step_moves d l).terms

end Outbox.Dispatch
