import Outbox.Proofs.Nonce.Sole
import Outbox.Proofs.Send.Custody
import Outbox.Proofs.Send.Frame

namespace Outbox

open Ledger Nonce

namespace Nonce.Sole

variable {r q : Reservation} {a : Allocator} {held : List Reservation}

theorem mine (h : Sole r a (q :: held)) : Sole r a (q.mine r.identity ++ held) := by
  apply h.of_subperm
  simp only [Reservation.mine]
  split
  · exact List.Subperm.refl _
  · exact (List.sublist_cons_self q held).subperm

theorem giveBack_mine (h : Sole r a (q.mine r.identity ++ held)) :
    Sole r (a.giveBack q).2 held := by
  simp only [Reservation.mine] at h
  split at h
  · exact h.giveBack
  · next hother => exact h.release fun _ _ hw => absurd hw hother

theorem returned {records : Keyed Hash Reservation} {hash : Hash}
    (h : Sole r a (recordOf records r.identity hash ++ held)) :
    Sole r (Outbox.returned a records hash) held := by
  simp only [recordOf] at h
  simp only [Outbox.returned]
  cases hq : records.get? hash with
  | none =>
    rw [hq] at h
    exact h
  | some q =>
    rw [hq] at h
    exact h.giveBack_mine

end Nonce.Sole

namespace Dispatch

variable {d d' e : Dispatch} {k : SendId} {s : Send} {r : Reservation} {hand : List Reservation}

/-- Among the sends, the records and `hand`, at most one holds `r`, and then its number is out. -/
structure Entrusted (r : Reservation) (hand : List Reservation) (d : Dispatch) : Prop where
  sole : Sole r d.allocator
    (hand ++ (deposited d.tracking.enqueued r.identity ++ carried d.sends r.identity))
  records : d.tracking.enqueued.Distinct
  sends : d.sends.Distinct

/-- Nobody releases the number of `r` by hand while the state that issued it is there. -/
def Untouched (d : Dispatch) (r : Reservation) (labels : List Label) : Prop :=
  ∀ before after, labels = before ++ .release r.identity r.nonce :: after →
    ¬(d.run before).allocator.Current r

namespace Untouched

variable {l : Label} {labels more : List Label}

theorem head (h : d.Untouched r (l :: labels)) :
    l = .release r.identity r.nonce → ¬d.allocator.Current r := by
  rintro rfl
  exact h [] labels rfl

theorem tail (h : d.Untouched r (l :: labels)) : (d.step l).Untouched r labels := by
  rintro before after rfl
  exact h (l :: before) after rfl

theorem left (h : d.Untouched r (labels ++ more)) : d.Untouched r labels := by
  rintro before after rfl
  exact h before (after ++ more) (by rw [List.append_assoc, List.cons_append])

theorem right (h : d.Untouched r (labels ++ more)) : (d.run labels).Untouched r more := by
  rintro before after rfl
  have happ : (d.run labels).run before = d.run (labels ++ before) := List.foldl_append.symm
  rw [happ]
  exact h (labels ++ before) after (List.append_assoc _ _ _).symm

/-- It is enough that nobody releases it by hand at all. -/
theorem of_not_mem (h : .release r.identity r.nonce ∉ labels) : d.Untouched r labels := by
  rintro before after rfl
  exact absurd (List.mem_append_right _ List.mem_cons_self) h

end Untouched

namespace Entrusted

theorem congr (h : Entrusted r hand d) (ha : e.allocator = d.allocator)
    (hr : e.tracking.enqueued = d.tracking.enqueued) (hs : e.sends = d.sends) :
    Entrusted r hand e := by
  refine ⟨?_, hr ▸ h.records, hs ▸ h.sends⟩
  rw [ha, hr, hs]
  exact h.sole

theorem of_like (h : Entrusted r hand d) (hl : Like d e) : Entrusted r hand e :=
  h.congr hl.allocator (by rw [hl.tracking]) hl.sends

theorem fresh (r : Reservation) (terms : Terms) (tip baseFee : Fee.Shared SendId) (capacity : Nat)
    (tracker : Tracker) : Entrusted r [] (Dispatch.fresh terms tip baseFee capacity tracker) :=
  ⟨Sole.opened r capacity, List.nodup_nil, List.nodup_nil⟩

/-- What a send carries comes to hand when the send ends. -/
theorem unload (h : Entrusted r hand d) (hk : d.sends.get? k = some s) :
    Sole r d.allocator (s.carries r.identity ++
      (hand ++ (deposited d.tracking.enqueued r.identity ++
        carried (d.sends.erase k) r.identity))) := by
  have hp : (carried d.sends r.identity).Perm
      (s.carries r.identity ++ carried (d.sends.erase k) r.identity) :=
    (Keyed.perm_of_get? h.sends hk).flatMap_right _
  apply h.sole.of_subperm
  apply List.Perm.subperm
  rw [List.perm_iff_count]
  intro q
  have hcount := hp.count_eq q
  simp only [List.count_append] at hcount ⊢
  omega

theorem ends (h : Entrusted r hand d) (hk : d.sends.get? k = some s) (hw : Without d k d') :
    Entrusted r hand d' := by
  refine ⟨?_, by rw [hw.tracking]; exact h.records, ?_⟩
  · rw [hw.allocator, hw.tracking, hw.sends]
    exact (h.unload hk).of_subperm (List.sublist_append_right _ _).subperm
  · rw [hw.sends]
    exact Keyed.distinct_erase h.sends k

theorem setStage {stage : Send.Stage}
    (h : Entrusted r (Send.carries r.identity { s with stage := stage } ++ hand) d)
    (hk : d.sends.get? k = some s) : Entrusted r hand (d.setStage k s stage) := by
  refine ⟨?_, h.records, Keyed.distinct_put h.sends k _⟩
  have hu := (h.unload hk).of_subperm (List.sublist_append_right _ _).subperm
  apply hu.of_subperm
  apply List.Perm.subperm
  rw [List.perm_iff_count]
  intro q
  simp only [Dispatch.setStage, carried, Keyed.put, List.flatMap_cons, List.count_append]
  omega

/-- A send that goes away gives back what it carries. -/
theorem gone (h : Entrusted r hand d) (hk : d.sends.get? k = some s)
    (hw : Without (d.leftBy s) k d') : Entrusted r hand d' := by
  have hsends : d'.sends = d.sends.erase k := by rw [hw.sends, sends_leftBy]
  have hrecords : d'.tracking.enqueued = d.tracking.enqueued := by
    rw [hw.tracking, enqueued_leftBy]
  have hu := h.unload hk
  refine ⟨?_, hrecords ▸ h.records, hsends ▸ Keyed.distinct_erase h.sends k⟩
  rw [hw.allocator, hrecords, hsends]
  simp only [Send.carries] at hu
  simp only [leftBy]
  cases hst : s.stage with
  | submit tx held =>
    rw [hst] at hu
    exact hu.giveBack_mine
  | _ =>
    rw [hst] at hu
    exact hu

/-- Without the record of `hash`, what it held is in hand. -/
theorem unrecord (h : Entrusted r hand d) (hash : Hash) :
    Sole r d.allocator (recordOf d.tracking.enqueued r.identity hash ++
      (hand ++ (deposited (d.tracking.enqueued.erase hash) r.identity ++
        carried d.sends r.identity))) := by
  have hp := deposited_perm h.records r.identity hash
  apply h.sole.of_subperm
  apply List.Perm.subperm
  rw [List.perm_iff_count]
  intro q
  have hcount := hp.count_eq q
  simp only [List.count_append] at hcount ⊢
  omega

theorem forget (h : Entrusted r hand d) (hash : Hash)
    (ha : e.allocator = d.allocator) (hr : e.tracking.enqueued = d.tracking.enqueued.erase hash)
    (hs : e.sends = d.sends) : Entrusted r hand e := by
  refine ⟨?_, hr ▸ Keyed.distinct_erase h.records hash, hs ▸ h.sends⟩
  rw [ha, hr, hs]
  exact (h.unrecord hash).of_subperm (List.sublist_append_right _ _).subperm

/-- What is in hand goes into the record of `hash`, whatever was there. -/
theorem record {held : Reservation} (h : Entrusted r (held.mine r.identity ++ hand) d) (hash : Hash)
    (ha : e.allocator = d.allocator)
    (hr : e.tracking.enqueued = d.tracking.enqueued.put hash held) (hs : e.sends = d.sends) :
    Entrusted r hand e := by
  have hu := (h.unrecord hash).of_subperm (List.sublist_append_right _ _).subperm
  refine ⟨?_, hr ▸ Keyed.distinct_put h.records hash held, hs ▸ h.sends⟩
  rw [ha, hr, hs]
  apply hu.of_subperm
  apply List.Perm.subperm
  rw [List.perm_iff_count]
  intro q
  simp only [deposited, Keyed.put, List.flatMap_cons, List.count_append]
  omega

theorem meddled (h : Entrusted r hand d) :
    Entrusted r hand { d with allocator := d.meddled } := by
  refine ⟨?_, h.records, h.sends⟩
  simp only [Dispatch.meddled]
  split
  · exact h.sole
  · exact h.sole.created _ _

theorem giveBack {held : Reservation} (h : Entrusted r (held.mine r.identity ++ hand) d) :
    Entrusted r hand { d with allocator := (d.allocator.giveBack held).2 } := by
  have hs := h.sole
  rw [List.append_assoc] at hs
  exact ⟨hs.giveBack_mine, h.records, h.sends⟩

theorem handOver {tx : Signed} {held : Reservation}
    (h : Entrusted r (held.mine r.identity ++ hand) d) (hk : d.sends.get? k = some s) :
    Entrusted r hand (d.handOver k s tx held) := by
  have hm := h.meddled
  rcases handOver_cases d k s tx held with ⟨f, hf⟩ | ⟨o', hp, hcases⟩
  · have herase : (d.tracking.enqueued.put tx.hash held).erase tx.hash =
        d.tracking.enqueued.erase tx.hash := by simp [Keyed.put, Keyed.erase]
    have hforgot : Entrusted r (held.mine r.identity ++ hand)
        { d.offered tx held with
          tracking := ((d.offered tx held).tracking.forgetEnqueued tx.hash).removeWaiter tx.hash } :=
      hm.forget tx.hash rfl herase rfl
    rw [hf]
    exact hforgot.giveBack.ends hk (without_finish _ k _)
  · obtain ⟨c, rfl, _⟩ := push_ok hp
    have hrecorded : Entrusted r hand
        { d.offered tx held with tracker := { (d.offered tx held).tracker with confirmer := c } } :=
      hm.record tx.hash rfl rfl rfl
    rcases hcases with heq | heq
    · have hleft : Entrusted r hand
          { d.offered tx held with
            tracker := { (d.offered tx held).tracker with confirmer := c }
            tracking := (d.offered tx held).tracking.removeWaiter tx.hash } :=
        hrecorded.congr rfl rfl rfl
      rw [heq]
      exact hleft.ends hk (without_finish _ k _)
    · rw [heq]
      exact hrecorded.setStage (s := s) hk

theorem sign {held : Reservation} (h : Entrusted r (held.mine r.identity ++ hand) d)
    (hk : d.sends.get? k = some s) (price : Price) (gas : Nat) :
    Entrusted r hand (d.sign k s price gas held) := by
  rcases sign_cases d k s price gas held with ⟨f, hf⟩ | ⟨tx, _, _, ht⟩
  · rw [hf]
    exact h.giveBack.ends hk (without_finish _ k _)
  · rw [ht]
    simp only [deliver]
    cases s.mode with
    | build =>
      -- what is built is handed to the caller, and nothing returns it from there
      have hbuilt := h.ends hk (without_finish d k (.ok (.built tx held)))
      exact ⟨hbuilt.sole.of_subperm
        ((List.sublist_append_right _ hand).append_right _).subperm, hbuilt.records, hbuilt.sends⟩
    | async => exact h.setStage hk
    | sync => exact h.handOver hk

theorem advance (h : Entrusted r hand d) (hk : d.sends.get? k = some s) (ha : Advance d k s d') :
    Entrusted r hand d' := by
  cases ha with
  | waits e stage hl hp =>
    have hplain : Send.carries r.identity { s with stage := stage } = [] :=
      Send.carries_plain (s := { s with stage := stage }) hp r.identity
    have he : Entrusted r (Send.carries r.identity { s with stage := stage } ++ hand) e := by
      rw [hplain]
      exact h.of_like hl
    exact he.setStage (hl.sends ▸ hk)
  | fails e f hl => exact (h.of_like hl).ends (hl.sends ▸ hk) (without_finish e k _)
  | signs e price gas held a hl ht =>
    obtain ⟨t, hi⟩ := Allocator.take?_issued ht
    have hgot : Entrusted r (held.mine r.identity ++ hand) { e with allocator := a } := by
      refine ⟨?_, by rw [hl.tracking]; exact h.records, by rw [hl.sends]; exact h.sends⟩
      rw [List.append_assoc, hl.tracking, hl.sends]
      exact (h.sole.issued hi).mine
    exact hgot.sign (hl.sends ▸ hk) price gas

theorem answer (h : Entrusted r hand d) (k : SendId) (a : Except Failure Answer) (now : Int) :
    Entrusted r hand (d.answer k a now) := by
  rcases answer_cases d k a now with ⟨_, heq⟩ | ⟨s, hk, hcases⟩
  · rw [heq]
    exact h
  · rcases hcases with ⟨_, ha⟩ | ⟨tx, held, hst, heq⟩ | ⟨price, gas, n, _, _, heq⟩
    · exact h.advance hk ha
    · rw [heq]
      cases a with
      | error f => exact h.gone hk (submitAnswered_error hst k f)
      | ok x => exact h.ends hk (submitAnswered_ok d k tx held x)
    · have hgot : Entrusted r ((d.allocator.install s.signer.address n).1.mine r.identity ++ hand)
          { d with allocator := (d.allocator.install s.signer.address n).2 } := by
        refine ⟨?_, h.records, h.sends⟩
        rw [List.append_assoc]
        exact (h.sole.install s.signer.address n).mine
      rw [heq]
      exact hgot.sign hk price gas

theorem call (h : Entrusted r hand d) (k : SendId) (mode : Send.Mode) (signer : Signer)
    (request : Request) : Entrusted r hand (d.call k mode signer request) := by
  simp only [Dispatch.call]
  split
  · exact h
  · next hk =>
    have hnone : d.sends.get? k = none := by simpa [Keyed.has] using hk
    refine ⟨?_, h.records, Keyed.distinct_put h.sends k _⟩
    simp only [carried, Keyed.put, Keyed.erase_of_get?_none hnone, List.flatMap_cons]
    exact h.sole

/-- A failure gives back what the record of its hash held, and to nobody else. -/
theorem report (h : Entrusted r hand d) (q : Report) : Entrusted r hand (d.report q) := by
  rw [report_eq]
  cases q with
  | sent hash =>
    exact h.forget hash rfl (Tracking.enqueued_report d.tracking d.allocator (.sent hash)) rfl
  | confirmed hash =>
    exact h.congr rfl (Tracking.enqueued_report d.tracking d.allocator (.confirmed hash)) rfl
  | failed hash f =>
    have hallocator := Tracking.allocator_onFailed d.tracking d.allocator hash f
    have hrecords := Tracking.enqueued_report d.tracking d.allocator (.failed hash f)
    refine ⟨?_, hrecords ▸ Keyed.distinct_erase h.records hash, h.sends⟩
    show Sole r (d.tracking.onFailed d.allocator hash f).2 (hand ++
      (deposited (d.tracking.report d.allocator (.failed hash f)).1.enqueued r.identity ++
        carried d.sends r.identity))
    rw [hallocator, hrecords]
    exact (h.unrecord hash).returned

theorem reportAll (h : Entrusted r hand d) (rs : List Report) :
    Entrusted r hand (d.reportAll rs) := by
  induction rs generalizing d with
  | nil => exact h
  | cons q rs ih => exact ih (h.report q)

theorem withConfirmer (h : Entrusted r hand d) (f : Confirmer → Confirmer × List Report) :
    Entrusted r hand (d.withConfirmer f) := by
  cases hc : d.tracker.confirmer with
  | none =>
    rw [withConfirmer_none hc]
    exact h
  | some c =>
    rw [withConfirmer_some hc]
    have hset : Entrusted r hand
        { d with tracker := { d.tracker with confirmer := some (f c).1 } } := h.congr rfl rfl rfl
    exact hset.reportAll _

theorem track (h : Entrusted r hand d) (hash : Hash) : Entrusted r hand (d.track hash).2 := by
  unfold Dispatch.track
  rw [meddle_eq]
  have hlogged : Entrusted r hand (d.log (.tracked hash)) := h.congr rfl rfl rfl
  simp only
  split
  · exact hlogged.meddled
  · next e hp =>
    obtain ⟨c, rfl, _⟩ := push_ok hp
    exact hlogged.meddled.congr rfl rfl rfl

/-- No step brings `r` to a second holder, but for somebody who releases its number by hand. -/
theorem step (h : Entrusted r hand d) {l : Label}
    (hl : l = .release r.identity r.nonce → ¬d.allocator.Current r) :
    Entrusted r hand (d.step l) := by
  cases l with
  | call k mode signer request => exact h.call k mode signer request
  | answer k a now => exact h.answer k a now
  | turn k now =>
    rcases turn_cases d k now with heq | ⟨s, hk, _, ha⟩
    · rw [Dispatch.step, heq]
      exact h
    · exact h.advance hk ha
  | poll k =>
    rcases poll_cases d k with heq | ⟨s, hash, hk, _, hw⟩
    · rw [Dispatch.step, heq]
      exact h
    · have hleft : Entrusted r hand { d with tracking := d.tracking.removeWaiter hash } :=
        h.congr rfl rfl rfl
      exact hleft.ends hk hw
  | expire k =>
    rcases expire_cases d k with ⟨_, heq⟩ | ⟨s, hk, hw⟩
    · rw [Dispatch.step, heq]
      exact h
    · exact h.gone hk hw
  | cancel k =>
    rcases cancel_cases d k with ⟨_, heq⟩ | ⟨s, hk, hw⟩
    · rw [Dispatch.step, heq]
      exact h
    · exact h.gone hk hw
  | start =>
    have hstarted : Entrusted r hand { d with started := true } := h.congr rfl rfl rfl
    exact hstarted.withConfirmer fun c => (c.start, [])
  | take i => exact h.withConfirmer _
  | workerAnswer i a => exact h.withConfirmer _
  | verdict i v =>
    simp only [Dispatch.step, verdict]
    split
    · exact h
    · next c _ =>
      split
      · exact h
      · next hash _ =>
        have hlogged : Entrusted r hand (d.log (.checked hash c.depth)) := h.congr rfl rfl rfl
        exact hlogged.withConfirmer _
  | tick i => exact h.withConfirmer fun c => (c.tick i, [])
  | leave i => exact h.withConfirmer fun c => (c.leave i, [])
  | stop => exact h.withConfirmer fun c => (c.stop, [])
  | drain => exact h.withConfirmer _
  | report q => exact h.report q
  | track hash => exact h.track hash
  | reset who n => exact ⟨h.sole.created who n, h.records, h.sends⟩
  | release who n =>
    refine ⟨h.sole.release fun _ hc hw hn => ?_, h.records, h.sends⟩
    exact absurd hc (hl (by rw [hw, hn]))

theorem run (h : Entrusted r hand d) {labels : List Label} (hl : d.Untouched r labels) :
    Entrusted r hand (d.run labels) := by
  induction labels generalizing d with
  | nil => exact h
  | cons l labels ih => exact ih (h.step hl.head) hl.tail

end Entrusted

end Dispatch

end Outbox
