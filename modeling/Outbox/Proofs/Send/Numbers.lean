import Outbox.Proofs.Nonce.Floor
import Outbox.Proofs.Send.Frame

namespace Outbox.Dispatch

open Ledger Nonce

/-- From `d` to `d'` the allocator is only dealt with. -/
def Deals (d d' : Dispatch) : Prop := ∃ marks, Dealings d.allocator marks d'.allocator

variable {d d' e : Dispatch} {k : SendId} {s : Send}

namespace Deals

theorem of_allocator (h : d'.allocator = d.allocator) : Deals d d' := by
  refine ⟨[], ?_⟩
  rw [h]
  exact .none _

theorem trans (h : Deals d e) (g : Deals e d') : Deals d d' := by
  obtain ⟨older, h⟩ := h
  obtain ⟨newer, g⟩ := g
  exact ⟨newer ++ older, h.trans g⟩

theorem of_without (h : Without d k e) : Deals d e := of_allocator h.allocator

theorem giveBack (d : Dispatch) (r : Reservation) :
    Deals d { d with allocator := (d.allocator.giveBack r).2 } := ⟨_, .giveBack d.allocator r⟩

end Deals

theorem meddled_deals (d : Dispatch) : Deals d { d with allocator := d.meddled } := by
  simp only [meddled]
  split
  · exact .of_allocator rfl
  · exact ⟨_, .one (.creates _ _ _)⟩

theorem handOver_deals (d : Dispatch) (k : SendId) (s : Send) (tx : Signed) (held : Reservation) :
    Deals d (d.handOver k s tx held) := by
  have ho : Deals d (d.offered tx held) := meddled_deals d
  rcases handOver_cases d k s tx held with ⟨f, hf⟩ | ⟨o', hp, hw | hw⟩
  · rw [hf]
    exact ho.trans (.giveBack _ held)
  · obtain ⟨c, rfl, _⟩ := push_ok hp
    rw [hw]
    exact ho.trans (.of_allocator rfl)
  · obtain ⟨c, rfl, _⟩ := push_ok hp
    rw [hw]
    exact ho.trans (.of_allocator rfl)

theorem sign_deals (d : Dispatch) (k : SendId) (s : Send) (price : Price) (gas : Nat)
    (held : Reservation) : Deals d (d.sign k s price gas held) := by
  rcases sign_cases d k s price gas held with ⟨f, hf⟩ | ⟨tx, _, _, ht⟩
  · rw [hf]
    exact .giveBack d held
  · rw [ht]
    simp only [deliver]
    split
    · exact .of_allocator rfl
    · exact .of_allocator rfl
    · exact handOver_deals d k s tx held

theorem Advance.deals (h : Advance d k s d') : Deals d d' := by
  cases h with
  | waits e stage he _ => exact .of_allocator he.allocator
  | fails e f he => exact .of_allocator he.allocator
  | signs e price gas held a he ht =>
    have htaken : Deals d { e with allocator := a } := ⟨_, .one (.issues ht)⟩
    exact htaken.trans (sign_deals _ _ _ _ _ _)

theorem leftBy_deals (d : Dispatch) (s : Send) : Deals d (d.leftBy s) := by
  simp only [leftBy]
  split
  · exact .giveBack d _
  · exact .of_allocator rfl
  · exact .of_allocator rfl

theorem answer_deals (d : Dispatch) (k : SendId) (a : Except Failure Answer) (now : Int) :
    Deals d (d.answer k a now) := by
  rcases answer_cases d k a now with ⟨_, h⟩ | ⟨s, _, ⟨_, h⟩ | ⟨tx, held, hst, h⟩ | ⟨p, g, n, _, _, h⟩⟩
  · rw [h]
    exact .of_allocator rfl
  · exact h.deals
  · rw [h]
    cases a with
    | ok x => exact .of_without (submitAnswered_ok d k tx held x)
    | error f => exact (leftBy_deals d s).trans (.of_without (submitAnswered_error hst k f))
  · rw [h]
    have hgot : Deals d { d with allocator := (d.allocator.install s.signer.address n).2 } :=
      ⟨_, .install d.allocator s.signer.address n⟩
    exact hgot.trans (sign_deals _ _ _ _ _ _)

theorem report_deals (d : Dispatch) (r : Report) : Deals d (d.report r) := by
  rw [report_eq]
  rcases Tracking.allocator_report d.tracking d.allocator r with h | ⟨_, q, _, _, h⟩
  · exact .of_allocator h
  · refine Deals.trans (.giveBack d q) (.of_allocator h)

theorem reportAll_deals (d : Dispatch) (rs : List Report) : Deals d (d.reportAll rs) := by
  induction rs generalizing d with
  | nil => exact .of_allocator rfl
  | cons r rs ih => exact (report_deals d r).trans (ih (d.report r))

theorem withConfirmer_deals (d : Dispatch) (f : Confirmer → Confirmer × List Report) :
    Deals d (d.withConfirmer f) := by
  cases hc : d.tracker.confirmer with
  | none =>
    rw [withConfirmer_none hc]
    exact .of_allocator rfl
  | some c =>
    rw [withConfirmer_some hc]
    have hset : Deals d { d with tracker := { d.tracker with confirmer := some (f c).1 } } :=
      .of_allocator rfl
    exact hset.trans (reportAll_deals _ _)

theorem track_deals (d : Dispatch) (hash : Hash) : Deals d (d.track hash).2 := by
  unfold track
  rw [meddle_eq]
  have hm : Deals d { d.log (.tracked hash) with allocator := (d.log (.tracked hash)).meddled } :=
    meddled_deals (d.log (.tracked hash))
  simp only
  split
  · exact hm
  · next e hp =>
    obtain ⟨c, rfl, _⟩ := push_ok hp
    exact hm.trans (.of_allocator rfl)

theorem step_deals (d : Dispatch) (l : Label) : Deals d (d.step l) := by
  cases l with
  | call k mode signer request =>
    simp only [step, call]
    split <;> exact .of_allocator rfl
  | answer k a now => exact answer_deals d k a now
  | turn k now =>
    rcases turn_cases d k now with h | ⟨s, _, _, h⟩
    · rw [step, h]
      exact .of_allocator rfl
    · exact h.deals
  | poll k =>
    rcases poll_cases d k with h | ⟨s, h, _, _, hw⟩
    · rw [step, h]
      exact .of_allocator rfl
    · exact .of_allocator hw.allocator
  | expire k =>
    rcases expire_cases d k with ⟨_, h⟩ | ⟨s, _, hw⟩
    · rw [step, h]
      exact .of_allocator rfl
    · exact (leftBy_deals d s).trans (.of_without hw)
  | cancel k =>
    rcases cancel_cases d k with ⟨_, h⟩ | ⟨s, _, hw⟩
    · rw [step, h]
      exact .of_allocator rfl
    · exact (leftBy_deals d s).trans (.of_without hw)
  | start => exact withConfirmer_deals { d with started := true } fun c => (c.start, [])
  | take i => exact withConfirmer_deals d _
  | workerAnswer i a => exact withConfirmer_deals d _
  | verdict i v =>
    simp only [step, verdict]
    split
    · exact .of_allocator rfl
    · next c _ =>
      split
      · exact .of_allocator rfl
      · next hash _ =>
        exact withConfirmer_deals (d.log (.checked hash c.depth)) _
  | tick i => exact withConfirmer_deals d fun c => (c.tick i, [])
  | leave i => exact withConfirmer_deals d fun c => (c.leave i, [])
  | stop => exact withConfirmer_deals d fun c => (c.stop, [])
  | drain => exact withConfirmer_deals d _
  | report r => exact report_deals d r
  | track hash => exact track_deals d hash
  | reset who n => exact ⟨_, .one (.creates _ who n)⟩
  | release who n => exact ⟨_, .one (.returns _ who n none)⟩

theorem run_deals (d : Dispatch) (labels : List Label) : Deals d (d.run labels) := by
  induction labels generalizing d with
  | nil => exact .of_allocator rfl
  | cons l labels ih => exact (step_deals d l).trans (ih (d.step l))

/-- Whatever sends, workers and reports do, every resident state came about by issuing and giving
back. -/
theorem canonical_run (terms : Terms) (tip baseFee : Fee.Shared SendId) (capacity : Nat)
    (tracker : Tracker) (labels : List Label) {who : Address} {t : State}
    (ht : ((fresh terms tip baseFee capacity tracker).run labels).allocator.entries.get? who =
      some t) : t.Canonical := by
  obtain ⟨marks, h⟩ := run_deals (fresh terms tip baseFee capacity tracker) labels
  have hlogged := h.keep (P := Logged) Logged.dealing (Logged.opened capacity)
  obtain ⟨start, htraced⟩ := hlogged.traced who t ht
  exact htraced.canonical

end Outbox.Dispatch
