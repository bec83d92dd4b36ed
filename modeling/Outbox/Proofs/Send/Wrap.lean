import Mathlib.Data.List.Induction
import Outbox.Send.Step
import Outbox.Proofs.Nonce.Wrap

namespace Outbox

namespace Nonce.Allocator

variable [Counter] {a : Allocator}

/-- No state is at the last number. -/
def Roomy (a : Allocator) : Prop :=
  ∀ who s, a.entries.get? who = some s → Counter.after s.peek = s.peek + 1

theorem Roomy.take? (h : a.Roomy) (who : Address) :
    a.take? who = @Allocator.take? .endless a who := by
  apply take?_endless
  intro r a' ht
  obtain ⟨s, hi⟩ := take?_issued ht
  rw [hi.reservation, s.assign_fst]
  exact h who s hi.source

theorem Roomy.install (h : a.Roomy) (who : Address) {n : Nat} (hn : Counter.after n = n + 1) :
    a.install who n = @Allocator.install .endless a who n := by
  apply install_endless
  cases hs : a.entries.get? who with
  | some s =>
    rw [(install_issued hs n).reservation, s.assign_fst]
    exact h who s hs
  | none =>
    rw [(install_started hs n).1]
    exact hn

end Nonce.Allocator

namespace Dispatch

open Ledger Nonce

variable [Counter] {d : Dispatch} {k : SendId} {s : Send} {price : Price} {gas tip baseFee : Nat}
  {now : Int} {a : Except Failure Answer} {l : Label}

theorem askNumber_endless (h : d.allocator.Roomy) :
    d.askNumber k s price gas = @askNumber .endless d k s price gas := by
  unfold askNumber
  rw [h.take?]

theorem askGas_endless (h : d.allocator.Roomy) :
    d.askGas k s price = @askGas .endless d k s price := by
  unfold askGas
  rw [askNumber_endless h]

theorem applyFees_endless (h : d.allocator.Roomy) :
    d.applyFees k s tip baseFee = @applyFees .endless d k s tip baseFee := by
  unfold applyFees
  cases Fee.cap tip baseFee with
  | error f => rfl
  | ok maxFee => exact askGas_endless h

theorem baseTurn_endless (h : d.allocator.Roomy) :
    d.baseTurn k s tip now = @baseTurn .endless d k s tip now := by
  unfold baseTurn
  cases d.baseFee.cache.fresh? now with
  | none => rfl
  | some fee => exact applyFees_endless h

theorem askBase_endless (h : d.allocator.Roomy) :
    d.askBase k s tip now = @askBase .endless d k s tip now := by
  unfold askBase
  exact ite_congr rfl (fun _ => baseTurn_endless h) (fun _ => rfl)

theorem tipTurn_endless (h : d.allocator.Roomy) :
    d.tipTurn k s now = @tipTurn .endless d k s now := by
  unfold tipTurn
  cases d.tip.cache.fresh? now with
  | none => rfl
  | some tip => exact askBase_endless h

theorem askTip_endless (h : d.allocator.Roomy) :
    d.askTip k s now = @askTip .endless d k s now := by
  unfold askTip
  exact ite_congr rfl (fun _ => tipTurn_endless h) (fun _ => rfl)

theorem probed_endless (h : d.allocator.Roomy) (header : Header) :
    d.probed k s header now = @probed .endless d k s header now := by
  unfold probed
  rw [askTip_endless h, askGas_endless h]

theorem tipAnswered_endless (h : d.allocator.Roomy) :
    d.tipAnswered k s a now = @tipAnswered .endless d k s a now := by
  unfold tipAnswered
  cases Fee.Kind.tip.ofAnswer a with
  | error f => rfl
  | ok tip => exact askBase_endless h

theorem baseAnswered_endless (h : d.allocator.Roomy) :
    d.baseAnswered k s tip a now = @baseAnswered .endless d k s tip a now := by
  unfold baseAnswered
  cases Fee.Kind.baseFee.ofAnswer a with
  | error f => rfl
  | ok fee => exact applyFees_endless h

theorem answer_endless (h : d.allocator.Roomy)
    (hn : ∀ n, a = .ok (.amount n) → Counter.after n = n + 1) :
    d.answer k a now = @answer .endless d k a now := by
  unfold answer
  cases d.sends.get? k with
  | none => rfl
  | some s =>
    simp only
    split
    · exact tipAnswered_endless h
    · exact baseAnswered_endless h
    · rfl
    · exact probed_endless h _
    · exact askNumber_endless h
    · next n _ => rw [h.install s.signer.address (hn n rfl)]
    · rfl
    · rfl
    · rfl
    · rfl

theorem turn_endless (h : d.allocator.Roomy) : d.turn k now = @turn .endless d k now := by
  unfold turn
  cases d.sends.get? k with
  | none => rfl
  | some s =>
    simp only
    split
    · rw [tipTurn_endless h]
    · rw [baseTurn_endless h]
    · rfl

/-- Neither a state nor an answer is at the last number. -/
structure Roomy (d : Dispatch) (l : Label) : Prop where
  allocator : d.allocator.Roomy
  answered : ∀ k n now, l = .answer k (.ok (.amount n)) now → Counter.after n = n + 1

theorem Roomy.step (h : d.Roomy l) : d.step l = @Dispatch.step .endless d l := by
  cases l with
  | answer k a now =>
    apply answer_endless h.allocator
    intro n hn
    exact h.answered k n now (by rw [hn])
  | turn k now => exact turn_endless h.allocator
  | _ => rfl

/-- As long as there is room, a dispatch cannot tell that the counter ends. -/
theorem run_endless {labels : List Label}
    (h : ∀ before l, before ++ [l] <+: labels → (@run .endless d before).Roomy l) :
    d.run labels = @run .endless d labels := by
  induction labels using List.reverseRec with
  | nil => rfl
  | append_singleton labels l ih =>
    have hbefore : d.run labels = @run .endless d labels := by
      apply ih
      intro before m hm
      exact h before m (hm.trans (List.prefix_append _ _))
    have hlast := h labels l List.prefix_rfl
    have happend : ∀ c : Counter,
        @run c d (labels ++ [l]) = @Dispatch.step c (@run c d labels) l := by
      intro c
      simp [run]
    rw [happend, happend, hbefore]
    exact hlast.step

end Dispatch

end Outbox
