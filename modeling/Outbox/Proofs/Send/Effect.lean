import Outbox.Proofs.Send.Frame

namespace Outbox

open Ledger Nonce

/-- Neither a hand-over nor a report. -/
def Event.Aside : Event → Prop
  | .tracked _ => True
  | .checked _ _ => True
  | _ => False

namespace Dispatch

/-- Send `k` waits for the end of the transaction with this hash. -/
def Waits (d : Dispatch) (k : SendId) (hash : Hash) : Prop :=
  ∃ s, d.sends.get? k = some s ∧ s.stage = .settle hash

variable {d d' e : Dispatch} {i j k : SendId} {s : Send} {hash g : Hash}

theorem waits_congr (h : d'.sends = d.sends) : d'.Waits j hash ↔ d.Waits j hash := by
  simp only [Waits]
  rw [h]

theorem waits_erase (h : d'.sends = d.sends.erase k) :
    d'.Waits j hash ↔ d.Waits j hash ∧ j ≠ k := by
  simp only [Waits]
  rw [h, Keyed.get?_erase]
  by_cases hj : j = k <;> simp [hj]

theorem waits_put {t : Send} (h : d'.sends = d.sends.put k t) :
    d'.Waits j hash ↔ if j = k then t.stage = .settle hash else d.Waits j hash := by
  simp only [Waits]
  rw [h, Keyed.get?_put]
  by_cases hj : j = k <;> simp [hj]

theorem not_waits (hk : d.sends.get? k = some s) (hs : ∀ h, s.stage ≠ .settle h) :
    ¬d.Waits k hash := by
  rintro ⟨t, ht, hst⟩
  obtain rfl : s = t := Option.some.inj (hk.symm.trans ht)
  exact hs hash hst

theorem waits_erase_idle (h : d'.sends = d.sends.erase k) (hk : ∀ g, ¬d.Waits k g) :
    d'.Waits j hash ↔ d.Waits j hash := by
  rw [waits_erase h]
  refine ⟨fun hw => hw.1, fun hw => ⟨hw, ?_⟩⟩
  rintro rfl
  exact hk hash hw

theorem waits_put_idle {t : Send} (h : d'.sends = d.sends.put k t) (hk : ∀ g, ¬d.Waits k g)
    (ht : ∀ g, t.stage ≠ .settle g) : d'.Waits j hash ↔ d.Waits j hash := by
  rw [waits_put h]
  split
  · next hj =>
    rw [hj]
    exact iff_of_false (ht hash) (hk hash)
  · rfl

/-- What a step about send `i` does to sends that wait and to what they wait for. -/
inductive Effect (i : Option SendId) (d : Dispatch) : Dispatch → Prop where
  /-- Nobody comes or goes; there may be reports, but not by a send. -/
  | hears (e : Dispatch) (asides : List Event) (rs : List Report) (ha : ∀ x ∈ asides, x.Aside)
      (ht : e.tracking = d.tracking) (hw : ∀ j g, e.Waits j g ↔ d.Waits j g)
      (he : e.events = asides ++ d.events) (hr : i = none ∨ rs = []) : Effect i d (e.reportAll rs)
  /-- A send hands its transaction over and waits for its end. -/
  | offers (k : SendId) (hash : Hash) (r : Reservation) (n : Nat) (d' : Dispatch)
      (hi : i = some k) (hk : ∀ g, ¬d.Waits k g)
      (ht : d'.tracking = (d.tracking.addWaiter hash).recordEnqueued hash r)
      (hw : ∀ j g, d'.Waits j g ↔ d.Waits j g ∨ j = k ∧ g = hash)
      (he : d'.events = .enqueued hash n :: d.events) : Effect i d d'
  /-- A send hands its transaction over and then does not wait. -/
  | withdraws (k : SendId) (hash : Hash) (n : Nat) (d' : Dispatch)
      (hi : i = some k) (hk : ∀ g, ¬d.Waits k g)
      (ht : d.tracking.Withdrawn hash d'.tracking)
      (hw : ∀ j g, d'.Waits j g ↔ d.Waits j g)
      (he : d'.events = .enqueued hash n :: d.events) : Effect i d d'
  /-- A send stops waiting. -/
  | leaves (k : SendId) (hash : Hash) (d' : Dispatch) (hk : d.Waits k hash)
      (ht : d'.tracking = d.tracking.removeWaiter hash)
      (hw : ∀ j g, d'.Waits j g ↔ d.Waits j g ∧ j ≠ k)
      (he : d'.events = d.events) : Effect i d d'

namespace Effect

variable {o : Option SendId}

theorem still (ht : d'.tracking = d.tracking) (hw : ∀ j g, d'.Waits j g ↔ d.Waits j g)
    (he : d'.events = d.events) : Effect o d d' :=
  .hears d' [] [] (by simp) ht hw he (.inr rfl)

theorem refl (o : Option SendId) (d : Dispatch) : Effect o d d :=
  .still rfl (fun _ _ => Iff.rfl) rfl

/-- What sends wait for does not depend on the rest of a dispatch. -/
theorem of_same (ht : e.tracking = d.tracking) (hs : e.sends = d.sends) (he : e.events = d.events)
    (h : Effect o e d') : Effect o d d' := by
  cases h with
  | hears e' asides rs ha ht' hw' he' hr =>
    exact .hears e' asides rs ha (ht'.trans ht) (fun j g => (hw' j g).trans (waits_congr hs))
      (he'.trans (by rw [he])) hr
  | offers k hash r n d' hi hk ht' hw' he' =>
    refine .offers k hash r n d' hi (fun g hg => hk g ((waits_congr hs).mpr hg)) (by rw [ht', ht])
      (fun j g => (hw' j g).trans ?_) (he'.trans (by rw [he]))
    rw [waits_congr hs]
  | withdraws k hash n d' hi hk ht' hw' he' =>
    exact .withdraws k hash n d' hi (fun g hg => hk g ((waits_congr hs).mpr hg)) (ht ▸ ht')
      (fun j g => (hw' j g).trans (waits_congr hs)) (he'.trans (by rw [he]))
  | leaves k hash d' hk ht' hw' he' =>
    refine .leaves k hash d' ((waits_congr hs).mp hk) (by rw [ht', ht])
      (fun j g => (hw' j g).trans ?_) (he'.trans he)
    rw [waits_congr hs]

end Effect

theorem plain_ne {stage : Send.Stage} (hs : stage.Plain) (g : Hash) : stage ≠ .settle g := by
  rintro rfl
  exact hs

theorem Without.effect (hk : d.sends.get? k = some s) (hs : ∀ g, s.stage ≠ .settle g)
    (hw : Without d k d') (o : Option SendId) : Effect o d d' :=
  .still hw.tracking (fun _ _ => waits_erase_idle hw.sends fun _ => not_waits hk hs) hw.events

theorem setStage_effect (hk : d.sends.get? k = some s) (hs : ∀ g, s.stage ≠ .settle g)
    {stage : Send.Stage} (ht : ∀ g, stage ≠ .settle g) (o : Option SendId) :
    Effect o d (d.setStage k s stage) :=
  .still rfl (fun _ _ => waits_put_idle rfl (fun _ => not_waits hk hs) ht) rfl

theorem handOver_effect (hk : d.sends.get? k = some s) (hs : s.stage.Plain) (tx : Signed)
    (held : Reservation) : Effect (some k) d (d.handOver k s tx held) := by
  have hidle : ∀ g, ¬d.Waits k g := fun _ => not_waits hk (plain_ne hs)
  rcases handOver_cases d k s tx held with ⟨f, hf⟩ | ⟨o', hp, hw | hw⟩
  · rw [hf]
    exact .withdraws k tx.hash tx.tx.nonce _ rfl hidle ⟨held, .inr rfl⟩
      (fun j g => waits_erase_idle rfl hidle) rfl
  · obtain ⟨c, rfl, _⟩ := push_ok hp
    rw [hw]
    exact .withdraws k tx.hash tx.tx.nonce _ rfl hidle ⟨held, .inl rfl⟩
      (fun j g => waits_erase_idle rfl hidle) rfl
  · obtain ⟨c, rfl, _⟩ := push_ok hp
    rw [hw]
    refine .offers k tx.hash held tx.tx.nonce _ rfl hidle rfl (fun j g => ?_) rfl
    rw [waits_put (d := d) (t := { s with stage := .settle tx.hash }) rfl]
    by_cases hj : j = k
    · subst hj
      simp [hidle g, eq_comm]
    · simp [hj]

theorem sign_effect (hk : d.sends.get? k = some s) (hs : s.stage.Plain) (price : Price) (gas : Nat)
    (held : Reservation) : Effect (some k) d (d.sign k s price gas held) := by
  rcases sign_cases d k s price gas held with ⟨f, hf⟩ | ⟨tx, _, _, ht⟩
  · rw [hf]
    have hk' : ({ d with allocator := (d.allocator.giveBack held).2 } : Dispatch).sends.get? k =
      some s := hk
    exact .of_same (e := { d with allocator := (d.allocator.giveBack held).2 }) rfl rfl rfl
      ((without_finish _ k (.error (.failed f))).effect hk' (plain_ne hs) _)
  · rw [ht]
    simp only [deliver]
    split
    · exact (without_finish d k _).effect hk (plain_ne hs) _
    · exact setStage_effect hk (plain_ne hs) (fun g => by simp) _
    · exact handOver_effect hk hs tx held

theorem Advance.effect (h : Advance d k s d') (hk : d.sends.get? k = some s) (hs : s.stage.Plain) :
    Effect (some k) d d' := by
  cases h with
  | waits e stage hl hp =>
    refine .of_same hl.tracking hl.sends hl.events ?_
    exact setStage_effect (hl.sends ▸ hk) (plain_ne hs) (plain_ne hp) _
  | fails e f hl =>
    refine .of_same hl.tracking hl.sends hl.events ?_
    exact (without_finish e k _).effect (hl.sends ▸ hk) (plain_ne hs) _
  | signs e price gas held a hl _ =>
    refine .of_same (e := { e with allocator := a }) hl.tracking hl.sends hl.events ?_
    exact sign_effect (hl.sends ▸ hk) hs price gas held

/-- A send that goes away stops waiting if it waited. -/
theorem gone_effect (hk : d.sends.get? k = some s) (hw : Without (d.leftBy s) k d')
    (o : Option SendId) : Effect o d d' := by
  have hsends : d'.sends = d.sends.erase k := by rw [hw.sends, sends_leftBy]
  cases hst : s.stage with
  | settle g =>
    have hleft : d.leftBy s = { d with tracking := d.tracking.removeWaiter g } := by
      simp only [leftBy]
      rw [hst]
    rw [hleft] at hw
    exact .leaves k g d' ⟨s, hk, hst⟩ hw.tracking (fun _ _ => waits_erase hsends) hw.events
  | _ =>
    have hleft : (d.leftBy s).tracking = d.tracking ∧ (d.leftBy s).events = d.events := by
      simp only [leftBy]
      rw [hst]
      exact ⟨rfl, rfl⟩
    refine .still (hw.tracking.trans hleft.1) (fun j g => ?_) (hw.events.trans hleft.2)
    exact waits_erase_idle hsends fun g => not_waits hk fun h => by simp [hst]

theorem answer_effect (d : Dispatch) (k : SendId) (a : Except Failure Answer) (now : Int) :
    Effect (some k) d (d.answer k a now) := by
  rcases answer_cases d k a now with ⟨_, h⟩ | ⟨s, hk, ⟨hs, h⟩ | ⟨tx, held, hst, h⟩ | ⟨p, g, n, hst, _, h⟩⟩
  · rw [h]
    exact .refl _ d
  · exact h.effect hk hs
  · rw [h]
    cases a with
    | ok x => exact (submitAnswered_ok d k tx held x).effect hk (fun g => by simp [hst]) _
    | error f => exact gone_effect hk (submitAnswered_error hst k f) _
  · rw [h]
    have hk' : ({ d with allocator := (d.allocator.install s.signer.address n).2 } :
      Dispatch).sends.get? k = some s := hk
    exact .of_same (e := { d with allocator := (d.allocator.install s.signer.address n).2 })
      rfl rfl rfl (sign_effect hk' (hst ▸ trivial) p g _)

theorem withConfirmer_effect (d : Dispatch) (f : Confirmer → Confirmer × List Report) :
    Effect none d (d.withConfirmer f) := by
  cases hc : d.tracker.confirmer with
  | none =>
    rw [withConfirmer_none hc]
    exact .refl none d
  | some c =>
    rw [withConfirmer_some hc]
    exact .hears _ [] (f c).2 (by simp) rfl (fun _ _ => Iff.rfl) rfl (.inl rfl)

theorem track_effect (d : Dispatch) (g : Hash) (o : Option SendId) : Effect o d (d.track g).2 := by
  have haside : ∀ x ∈ [Event.tracked g], x.Aside := by simp [Event.Aside]
  unfold track
  rw [meddle_eq]
  simp only
  split
  · exact .hears _ [.tracked g] [] haside rfl (fun _ _ => Iff.rfl) rfl (.inr rfl)
  · next e hp =>
    obtain ⟨c, rfl, _⟩ := push_ok hp
    exact .hears _ [.tracked g] [] haside rfl (fun _ _ => Iff.rfl) rfl (.inr rfl)

theorem step_effect (d : Dispatch) (l : Label) : Effect l.send? d (d.step l) := by
  cases l with
  | call k mode signer request =>
    simp only [step, call]
    split
    · exact .refl _ d
    · next hk =>
      have hnone : d.sends.get? k = none := by
        simpa [Keyed.has] using hk
      refine .still rfl (fun _ _ => waits_put_idle rfl (fun g hw => ?_) (fun g => by simp)) rfl
      obtain ⟨s, hs, _⟩ := hw
      rw [hnone] at hs
      simp at hs
  | answer k a now => exact answer_effect d k a now
  | turn k now =>
    rcases turn_cases d k now with h | ⟨s, hk, hs, h⟩
    · rw [step, h]
      exact .refl _ d
    · exact h.effect hk hs
  | poll k =>
    rcases poll_cases d k with h | ⟨s, g, hk, hst, hw⟩
    · rw [step, h]
      exact .refl _ d
    · exact .leaves k g _ ⟨s, hk, hst⟩ hw.tracking (fun _ _ => waits_erase hw.sends) hw.events
  | expire k =>
    rcases expire_cases d k with ⟨_, h⟩ | ⟨s, hk, hw⟩
    · rw [step, h]
      exact .refl _ d
    · exact gone_effect hk hw _
  | cancel k =>
    rcases cancel_cases d k with ⟨_, h⟩ | ⟨s, hk, hw⟩
    · rw [step, h]
      exact .refl _ d
    · exact gone_effect hk hw _
  | start =>
    have hs := withConfirmer_effect { d with started := true } (fun c => (c.start, []))
    exact .of_same (e := { d with started := true }) rfl rfl rfl hs
  | take i => exact withConfirmer_effect d _
  | workerAnswer i a => exact withConfirmer_effect d _
  | verdict i v =>
    simp only [step, verdict]
    split
    · exact .refl _ d
    · next c hc =>
      split
      · exact .refl _ d
      · next g _ =>
        rw [withConfirmer_some (d := d.log (.checked g c.depth)) hc]
        exact .hears _ [.checked g c.depth] _ (by simp [Event.Aside]) rfl (fun _ _ => Iff.rfl) rfl
          (.inl rfl)
  | tick i => exact withConfirmer_effect d fun c => (c.tick i, [])
  | leave i => exact withConfirmer_effect d fun c => (c.leave i, [])
  | stop => exact withConfirmer_effect d fun c => (c.stop, [])
  | drain => exact withConfirmer_effect d _
  | report r => exact .hears d [] [r] (by simp) rfl (fun _ _ => Iff.rfl) rfl (.inl rfl)
  | track g => exact track_effect d g _
  | reset who n => exact .still rfl (fun _ _ => Iff.rfl) rfl
  | release who n => exact .still rfl (fun _ _ => Iff.rfl) rfl

theorem run_cons (d : Dispatch) (l : Label) (ls : List Label) :
    d.run (l :: ls) = (d.step l).run ls := rfl

theorem events_reportAll (d : Dispatch) (rs : List Report) :
    (d.reportAll rs).events = (rs.map .reported).reverse ++ d.events := by
  induction rs generalizing d with
  | nil => rfl
  | cons r rs ih =>
    show ((d.report r).reportAll rs).events = _
    rw [ih (d.report r), List.map_cons, List.reverse_cons, List.append_assoc]
    rfl

theorem enqueued_ne_reports {asides : List Event} {rs : List Report} {n : Nat}
    (ha : ∀ x ∈ asides, x.Aside) (he : e.events = asides ++ d.events) :
    (e.reportAll rs).events ≠ .enqueued hash n :: d.events := by
  intro heq
  rw [events_reportAll, he, ← List.append_assoc] at heq
  have hnew : (rs.map Event.reported).reverse ++ asides = [.enqueued hash n] :=
    List.append_cancel_right (heq.trans List.singleton_append.symm)
  have hm : Event.enqueued hash n ∈ (rs.map Event.reported).reverse ++ asides := by
    rw [hnew]
    exact List.mem_cons_self
  rcases List.mem_append.mp hm with hm | hm
  · simp at hm
  · exact ha _ hm

theorem memory_report (d : Dispatch) (r : Report) (g : Hash) :
    (d.report r).tracking.memory g =
      if g = r.hash then (d.tracking.memory g).told d.allocator r else d.tracking.memory g :=
  Tracking.memory_report d.tracking d.allocator r g

/-- Failures are kept for hashes that are waited for, and these are the hashes that sends wait for. -/
structure Kept (d : Dispatch) : Prop where
  rejection : ∀ g, (d.tracking.memory g).waited = false → (d.tracking.memory g).rejection = none
  waiter : ∀ g, (d.tracking.memory g).waited = true → ∃ k, d.Waits k g

namespace Kept

theorem report (h : Kept d) (r : Report) : Kept (d.report r) := by
  refine ⟨fun g => ?_, fun g => ?_⟩
  · rw [memory_report]
    split
    · rw [Memory.told_waited]
      intro hw
      rw [Memory.told_rejection hw]
      exact h.rejection g hw
    · exact h.rejection g
  · rw [memory_report]
    split
    · rw [Memory.told_waited]
      exact h.waiter g
    · exact h.waiter g

theorem reportAll (h : Kept d) (rs : List Report) : Kept (d.reportAll rs) := by
  induction rs generalizing d with
  | nil => exact h
  | cons r rs ih => exact ih (h.report r)

/-- Where only one hash changes, only that one needs a look. -/
theorem of_change (h : Kept d) (ht : ∀ g, g ≠ hash → d'.tracking.memory g = d.tracking.memory g)
    (hw : ∀ j g, g ≠ hash → d.Waits j g → d'.Waits j g)
    (hr : (d'.tracking.memory hash).waited = false → (d'.tracking.memory hash).rejection = none)
    (hk : (d'.tracking.memory hash).waited = true → ∃ k, d'.Waits k hash) : Kept d' := by
  refine ⟨fun g => ?_, fun g => ?_⟩
  · by_cases hg : g = hash
    · rw [hg]
      exact hr
    · rw [ht g hg]
      exact h.rejection g
  · by_cases hg : g = hash
    · rw [hg]
      exact hk
    · rw [ht g hg]
      intro hwaited
      obtain ⟨k, hkw⟩ := h.waiter g hwaited
      exact ⟨k, hw k g hg hkw⟩

theorem effect (h : Kept d) {o : Option SendId} (he : Effect o d d') : Kept d' := by
  cases he with
  | hears e asides rs _ ht hw _ =>
    refine reportAll ⟨fun g => ?_, fun g => ?_⟩ rs
    · rw [ht]
      exact h.rejection g
    · rw [ht]
      intro hwaited
      obtain ⟨k, hk⟩ := h.waiter g hwaited
      exact ⟨k, (hw k g).mpr hk⟩
  | offers k hash r n d' _ _ ht hw _ =>
    have hm : ∀ g, g ≠ hash → d'.tracking.memory g = d.tracking.memory g :=
      fun g hg => by rw [ht, Tracking.memory_offered, if_neg hg]
    refine h.of_change hm (fun j g _ hj => (hw j g).mpr (.inl hj)) (fun hn => ?_)
      fun _ => ⟨k, (hw k hash).mpr (.inr ⟨rfl, rfl⟩)⟩
    rw [ht, Tracking.memory_offered, if_pos rfl] at hn
    simp at hn
  | withdraws _ hash n d' _ _ ht hw _ =>
    have hc := ht.cleared
    refine h.of_change (fun g hg => ht.memory_of_ne hg) (fun j g _ hj => (hw j g).mpr hj)
      (fun _ => hc.rejection) fun hn => ?_
    rw [hc.waited] at hn
    simp at hn
  | leaves k hash d' hk ht hw _ =>
    have hc := Tracking.cleared_removeWaiter d.tracking hash
    rw [← ht] at hc
    have hm : ∀ g, g ≠ hash → d'.tracking.memory g = d.tracking.memory g :=
      fun g hg => by rw [ht, Tracking.memory_removeWaiter, if_neg hg]
    refine h.of_change hm (fun j g hg hj => (hw j g).mpr ⟨hj, ?_⟩) (fun _ => hc.rejection) fun hn => ?_
    · rintro rfl
      obtain ⟨s, hs, hst⟩ := hj
      obtain ⟨t, hu, hut⟩ := hk
      obtain rfl : s = t := Option.some.inj (hs.symm.trans hu)
      exact hg (Send.Stage.settle.inj (hst.symm.trans hut))
    · rw [hc.waited] at hn
      simp at hn

theorem run (h : Kept d) (labels : List Label) : Kept (d.run labels) := by
  induction labels generalizing d with
  | nil => exact h
  | cons l labels ih => exact ih (h.effect (step_effect d l))

theorem fresh (terms : Terms) (tip baseFee : Fee.Shared SendId) (capacity : Nat) (tracker : Tracker) :
    Kept (.fresh terms tip baseFee capacity tracker) := by
  refine ⟨fun _ _ => rfl, fun g hw => ?_⟩
  have hn : (false : Bool) = true := hw
  simp at hn

end Kept

end Dispatch

end Outbox
