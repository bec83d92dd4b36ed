import Outbox.Proofs.Send.Custody
import Outbox.Proofs.Send.Frame

namespace Outbox.Dispatch

open Ledger Nonce

/-- Nothing is built only, nobody reports but the crew, and nobody but the sends touches the state
of `who`. -/
def Label.Usual (who : Address) : Label → Prop
  | .call _ mode _ _ => mode ≠ .build
  | .report _ => False
  | .reset other _ => other ≠ who
  | .release other _ => other ≠ who
  | _ => True

/-- The ledger's answer with which a send of `who` asks for a number. -/
def opening (d : Dispatch) (who : Address) : Label → Option Nat
  | .answer k (.ok (.amount n)) _ =>
    match d.sends.get? k with
    | some ⟨_, signer, _, .number _ _⟩ => if signer.address = who then some n else none
    | _ => none
  | _ => none

/-- What the ledger takes with a label: a transaction whose submission it answers without error. -/
def takenBy (d : Dispatch) : Label → List Signed
  | .answer k (.ok _) _ => (d.inFlight? k).toList
  | .workerAnswer i a =>
    match d.tracker.confirmer with
    | some c => c.takenBy i a
    | none => []
  | _ => []

/-- What the send that a label is about hands over, read off the new events. -/
def handedBy (d : Dispatch) (l : Label) : List HandOver :=
  match l.send?.bind d.sends.get? with
  | none => []
  | some s =>
    ((d.step l).events.take ((d.step l).events.length - d.events.length)).filterMap fun
      | .enqueued hash n => some ⟨hash, s.signer.address, n⟩
      | _ => none

/-- Whether a label brings a stop to its end. -/
def stops (d : Dispatch) : Label → Bool
  | .drain =>
    match d.tracker.confirmer with
    | some c => c.stopping && c.allExited
    | none => false
  | _ => false

/-- The custody of `who`'s numbers in a dispatch with a crew that reports; `late` are jobs that the
crew has dropped and not yet reported. -/
structure InCustody (who : Address) (all : List HandOver) (start? : Option Nat)
    (accepted : List Signed) (hand : List Reservation) (late : List Signed) (c : Confirmer)
    (d : Dispatch) : Prop where
  crew : d.tracker.confirmer = some c
  started : c.started = true
  unmeddled : d.tracker.reset = none
  modes : ∀ k s, d.sends.get? k = some s → s.mode ≠ .build
  custody : Custody who all start? accepted hand d.allocator d.sends d.tracking.enqueued
    (late ++ c.unsubmitted) c.watched c.tracks

namespace InCustody

variable {who : Address} {all : List HandOver} {start? : Option Nat} {accepted : List Signed}
  {hand : List Reservation} {late : List Signed} {c : Confirmer} {d d' e : Dispatch} {k : SendId}
  {s : Send}

theorem of_like (h : InCustody who all start? accepted hand late c d) (hl : Like d e) :
    InCustody who all start? accepted hand late c e :=
  ⟨by rw [hl.tracker]; exact h.crew, h.started, by rw [hl.tracker]; exact h.unmeddled,
    by rw [hl.sends]; exact h.modes,
    by rw [hl.allocator, hl.sends, hl.tracking]; exact h.custody⟩

theorem without (h : InCustody who all start? accepted hand late c d)
    (hk : d.sends.get? k = some s) (hw : Without d k d') :
    InCustody who all start? accepted (s.carries who ++ hand) late c d' := by
  refine ⟨by rw [hw.tracker]; exact h.crew, h.started, by rw [hw.tracker]; exact h.unmeddled, ?_, ?_⟩
  · rw [hw.sends]
    exact Keyed.forall_get?_erase h.modes k
  · rw [hw.allocator, hw.sends, hw.tracking]
    have hu := h.custody.holdings.unload hk
    rw [← List.append_assoc] at hu
    exact { h.custody with holdings := hu }

theorem setStage {stage : Send.Stage}
    (h : InCustody who all start? accepted (Send.carries who { s with stage := stage } ++ hand) late c d)
    (hk : d.sends.get? k = some s) (hs : s.stage.Plain)
    (hp : Send.Proper { s with stage := stage }) :
    InCustody who all start? accepted hand late c (d.setStage k s stage) := by
  have hu := h.custody.holdings.unload hk
  rw [Send.carries_plain hs, List.nil_append, List.append_assoc] at hu
  exact ⟨h.crew, h.started, h.unmeddled, Keyed.forall_get?_put h.modes (h.modes k s hk),
    { h.custody with holdings := hu.load hp }⟩

/-- A send in a stage in which it carries nothing ends. -/
theorem ends (h : InCustody who all start? accepted hand late c d) (hk : d.sends.get? k = some s)
    (hs : s.carries who = []) (hw : Without d k d') :
    InCustody who all start? accepted hand late c d' := by
  have hd := h.without hk hw
  rw [hs] at hd
  exact hd

/-- A send that goes away gives back what it carries. -/
theorem gone (h : InCustody who all start? accepted hand late c d) (hk : d.sends.get? k = some s)
    (hw : Without (d.leftBy s) k d') : InCustody who all start? accepted hand late c d' := by
  refine ⟨by rw [hw.tracker, tracker_leftBy]; exact h.crew, h.started,
    by rw [hw.tracker, tracker_leftBy]; exact h.unmeddled, ?_, ?_⟩
  · rw [hw.sends, sends_leftBy]
    exact Keyed.forall_get?_erase h.modes k
  · rw [hw.allocator, hw.sends, sends_leftBy, hw.tracking, enqueued_leftBy]
    exact { h.custody with holdings := (h.custody.holdings.unload hk).leftBy }

/-- The hand-over moves the number from the hand to the record, or back to the allocator. -/
theorem handOver {tx : Signed} {held : Reservation}
    (h : InCustody who all start? accepted (held.mine who ++ hand) late c d)
    (hinj : ∀ x ∈ all, ∀ y ∈ all, x.hash = y.hash → x = y) (hk : d.sends.get? k = some s)
    (hs : s.stage.Plain) (htx : tx.handOver ∈ all) (hid : held.identity = tx.sender)
    (hn : held.nonce = tx.tx.nonce) :
    ∃ c', InCustody who all start? accepted hand late c' (d.handOver k s tx held) ∧
      (c.Closed → c'.Closed) := by
  have hm : d.meddled = d.allocator := by
    simp only [meddled]
    rw [h.unmeddled]
  have hr : (⟨tx.hash, held.identity, held.nonce⟩ : HandOver) ∈ all := by
    rw [hid, hn]
    exact htx
  rcases handOver_cases d k s tx held with ⟨f, hf⟩ | ⟨o', hp, hcases⟩
  · have hc := h.custody.refuse hinj hr
    have hg := hc.holdings
    rw [List.append_assoc, ← hm] at hg
    have hin : InCustody who all start? accepted hand late c
        { d.offered tx held with
          tracking := ((d.offered tx held).tracking.forgetEnqueued tx.hash).removeWaiter tx.hash
          allocator := ((d.offered tx held).allocator.giveBack held).2 } :=
      ⟨h.crew, h.started, h.unmeddled, h.modes, { hc with holdings := hg.giveBack }⟩
    rw [hf]
    exact ⟨c, hin.ends hk (Send.carries_plain hs who) (without_finish _ k _), id⟩
  · obtain ⟨c₁, rfl, hpush⟩ := push_ok hp
    obtain ⟨hopen, rfl⟩ := hpush c h.crew
    have hcust := h.custody.record hinj htx hid hn
      (((c.unsubmitted_push tx).append_left late).trans List.perm_middle)
    rw [← c.tracks_push tx, ← hm] at hcust
    have hin : InCustody who all start? accepted hand late
        { c with queue := c.queue ++ [.submit tx] }
        { d.offered tx held with
          tracker := { d.tracker with
            confirmer := some { c with queue := c.queue ++ [.submit tx] } } } :=
      ⟨rfl, h.started, h.unmeddled, h.modes, hcust⟩
    refine ⟨{ c with queue := c.queue ++ [.submit tx] }, ?_, fun hcl => ?_⟩
    · rcases hcases with heq | heq
      · have hgone : InCustody who all start? accepted hand late
            { c with queue := c.queue ++ [.submit tx] }
            { d.offered tx held with
              tracker := { d.tracker with
                confirmer := some { c with queue := c.queue ++ [.submit tx] } }
              tracking := (d.offered tx held).tracking.removeWaiter tx.hash } :=
          ⟨hin.crew, hin.started, hin.unmeddled, hin.modes, hin.custody⟩
        rw [heq]
        exact hgone.ends hk (Send.carries_plain hs who) (without_finish _ k _)
      · rw [heq]
        exact hin.setStage hk hs fun _ _ hst => by simp at hst
    · rw [hcl.1] at hopen
      simp at hopen

theorem sign {held : Reservation}
    (h : InCustody who all start? accepted (held.mine who ++ hand) late c d)
    (hinj : ∀ x ∈ all, ∀ y ∈ all, x.hash = y.hash → x = y) (hk : d.sends.get? k = some s)
    (hs : s.stage.Plain) (hid : held.identity = s.signer.address) (price : Price) (gas : Nat)
    (hall : ∀ hash n, (d.sign k s price gas held).events = .enqueued hash n :: d.events →
      ⟨hash, s.signer.address, n⟩ ∈ all) :
    ∃ c', InCustody who all start? accepted hand late c' (d.sign k s price gas held) ∧
      (c.Closed → c'.Closed) := by
  rcases sign_cases d k s price gas held with ⟨f, hf⟩ | ⟨tx, hsender, hnum, ht⟩
  · have hg := h.custody.holdings
    rw [List.append_assoc] at hg
    have hin : InCustody who all start? accepted hand late c
        { d with allocator := (d.allocator.giveBack held).2 } :=
      ⟨h.crew, h.started, h.unmeddled, h.modes, { h.custody with holdings := hg.giveBack }⟩
    rw [hf]
    exact ⟨c, hin.ends hk (Send.carries_plain hs who) (without_finish _ k _), id⟩
  · rw [ht] at hall ⊢
    cases hmode : s.mode with
    | build => exact absurd hmode (h.modes k s hk)
    | async =>
      simp only [deliver, hmode]
      refine ⟨c, h.setStage hk hs fun tx' held' hst => ?_, id⟩
      obtain ⟨rfl, rfl⟩ := Send.Stage.submit.inj hst
      exact ⟨hsender, hnum, hid⟩
    | sync =>
      simp only [deliver, hmode] at hall ⊢
      have htx : tx.handOver ∈ all := by
        simp only [Signed.handOver]
        rw [hsender]
        exact hall _ _ (handOver_events d k s tx held)
      exact h.handOver hinj hk hs htx (hid.trans hsender.symm) hnum.symm

theorem advance (h : InCustody who all start? accepted hand late c d)
    (hinj : ∀ x ∈ all, ∀ y ∈ all, x.hash = y.hash → x = y) (hk : d.sends.get? k = some s)
    (hs : s.stage.Plain) (ha : Advance d k s d') (he : ¬d'.allocator.Evicted who)
    (hall : ∀ hash n, d'.events = .enqueued hash n :: d.events → ⟨hash, s.signer.address, n⟩ ∈ all) :
    ∃ c', InCustody who all start? accepted hand late c' d' ∧ (c.Closed → c'.Closed) := by
  cases ha with
  | waits e stage hl hp =>
    have hin : InCustody who all start? accepted
        (Send.carries who { s with stage := stage } ++ hand) late c e := by
      rw [Send.carries_plain (s := { s with stage := stage }) hp]
      exact h.of_like hl
    refine ⟨c, hin.setStage (by rw [hl.sends]; exact hk) hs fun tx held hst => ?_, id⟩
    have hst' : stage = .submit tx held := hst
    rw [hst'] at hp
    exact absurd hp id
  | fails e f hl =>
    have hk' : e.sends.get? k = some s := by
      rw [hl.sends]
      exact hk
    exact ⟨c, (h.of_like hl).ends hk' (Send.carries_plain hs who) (without_finish e k _), id⟩
  | signs e price gas held a hl ht =>
    have hev : ¬a.Evicted who :=
      (sign_moves { e with allocator := a } k s price gas held).not_evicted he
    obtain ⟨t, hi⟩ := Allocator.take?_issued ht
    have hin : InCustody who all start? accepted (held.mine who ++ hand) late c
        { e with allocator := a } := by
      refine ⟨by rw [hl.tracker]; exact h.crew, h.started, by rw [hl.tracker]; exact h.unmeddled,
        by rw [hl.sends]; exact h.modes, ?_⟩
      have hh := h.custody.holdings.take? ht hev
      rw [← List.append_assoc] at hh
      rw [hl.sends, hl.tracking]
      exact { h.custody with holdings := hh }
    refine hin.sign hinj (by rw [hl.sends]; exact hk) hs (by rw [hi.reservation]) price gas ?_
    intro hash n hev'
    exact hall hash n (by rw [← hl.events]; exact hev')

theorem opening_number {price : Price} {gas : Nat} (hk : d.sends.get? k = some s)
    (hst : s.stage = .number price gas) (n : Nat) (now : Int) :
    d.opening who (.answer k (.ok (.amount n)) now) =
      if s.signer.address = who then some n else none := by
  obtain ⟨mode, signer, request, stage⟩ := s
  obtain rfl : stage = .number price gas := hst
  simp [opening, hk]

theorem opening_none {a : Except Failure Answer} {now : Int}
    (h : ∀ s price gas n, d.sends.get? k = some s → s.stage = .number price gas →
      a ≠ .ok (.amount n)) : d.opening who (.answer k a now) = none := by
  simp only [opening]
  split
  · next k' n now' heq =>
    obtain ⟨rfl, rfl, rfl⟩ := Label.answer.inj heq
    split
    · next mode signer request price gas hk => exact absurd rfl (h _ price gas n hk rfl)
    · rfl
  · rfl

/-- An answer opens the state of `who`, ends a submission, or moves a send on. -/
theorem answer (h : InCustody who all start? accepted hand late c d)
    (hinj : ∀ x ∈ all, ∀ y ∈ all, x.hash = y.hash → x = y) (a : Except Failure Answer) (now : Int)
    (he : ¬(d.answer k a now).allocator.Evicted who)
    (hall : ∀ s, d.sends.get? k = some s → ∀ hash n,
      (d.answer k a now).events = .enqueued hash n :: d.events → ⟨hash, s.signer.address, n⟩ ∈ all) :
    ∃ c', InCustody who all (start?.or (d.opening who (.answer k a now)))
      (d.takenBy (.answer k a now) ++ accepted) hand late c' (d.answer k a now) ∧
        (c.Closed → c'.Closed) := by
  have htaken : d.inFlight? k = none → d.takenBy (.answer k a now) = [] := by
    intro hf
    cases a <;> simp [takenBy, hf]
  by_cases hnum : ∃ s price gas n, d.sends.get? k = some s ∧ s.stage = .number price gas ∧
      a = .ok (.amount n)
  · obtain ⟨s, price, gas, n, hk, hst, rfl⟩ := hnum
    have hs : s.stage.Plain := hst ▸ trivial
    have heq : d.answer k (.ok (.amount n)) now =
        { d with allocator := (d.allocator.install s.signer.address n).2 }.sign k s price gas
          (d.allocator.install s.signer.address n).1 := by
      simp only [Dispatch.answer, hk, hst]
    rw [htaken (inFlight?_of_plain hk hs), opening_number hk hst, heq]
    rw [heq] at he hall
    have hev : ¬(d.allocator.install s.signer.address n).2.Evicted who :=
      (sign_moves { d with allocator := (d.allocator.install s.signer.address n).2 }
        k s price gas _).not_evicted he
    have hh := h.custody.holdings.install n hev
    rw [← List.append_assoc] at hh
    have hin : InCustody who all (start?.or (if s.signer.address = who then some n else none))
        accepted ((d.allocator.install s.signer.address n).1.mine who ++ hand) late c
        { d with allocator := (d.allocator.install s.signer.address n).2 } :=
      ⟨h.crew, h.started, h.unmeddled, h.modes, { h.custody with holdings := hh }⟩
    exact hin.sign hinj hk hs (Allocator.install_identity _ _ _) price gas (hall s hk)
  · have hopen : d.opening who (.answer k a now) = none :=
      opening_none fun s price gas n hk hst ha => hnum ⟨s, price, gas, n, hk, hst, ha⟩
    rw [hopen, Option.or_none]
    rcases answer_cases d k a now with ⟨hf, heq⟩ | ⟨s, hk, hcases⟩
    · rw [htaken hf, heq]
      exact ⟨c, h, id⟩
    · rcases hcases with ⟨hs, ha⟩ | ⟨tx, held, hst, heq⟩ | ⟨price, gas, n, hst, ha, _⟩
      · rw [htaken (inFlight?_of_plain hk hs)]
        exact h.advance hinj hk hs ha he (hall s hk)
      · rw [heq]
        cases a with
        | error f => exact ⟨c, h.gone hk (submitAnswered_error hst k f), id⟩
        | ok x =>
          have hf : d.inFlight? k = some tx := inFlight?_eq_some.mpr ⟨s, held, hk, hst⟩
          obtain ⟨hsender, hnum', hid⟩ := h.custody.holdings.proper k s hk tx held hst
          have hin := h.without hk (submitAnswered_ok d k tx held x)
          rw [show s.carries who = held.mine who by simp [Send.carries, hst]] at hin
          rw [show d.takenBy (.answer k (.ok x) now) = [tx] by simp [takenBy, hf]]
          exact ⟨c, ⟨hin.crew, hin.started, hin.unmeddled, hin.modes,
            hin.custody.accept (hid.trans hsender.symm) hnum'.symm⟩, id⟩
      · exact absurd ⟨s, price, gas, n, hk, hst, ha⟩ hnum

theorem call {mode : Send.Mode} (h : InCustody who all start? accepted hand late c d) (k : SendId)
    (hm : mode ≠ .build) (signer : Signer) (request : Request) :
    InCustody who all start? accepted hand late c (d.call k mode signer request) := by
  simp only [Dispatch.call]
  split
  · exact h
  · next hk =>
    have hnone : d.sends.get? k = none := by simpa [Keyed.has] using hk
    have hh : Holdings who start? (numbersFrom who accepted)
        (hand ++ deposited d.tracking.enqueued who) d.allocator
        (d.sends.put k ⟨mode, signer, request, .probe⟩) := by
      refine Holdings.load ?_ (fun _ _ hst => by simp at hst)
      rw [Keyed.erase_of_get?_none hnone]
      exact h.custody.holdings
    exact ⟨h.crew, h.started, h.unmeddled, Keyed.forall_get?_put h.modes hm,
      { h.custody with holdings := hh }⟩

/-- A report of a hash whose number is spent, or of a hash of nobody here, moves no number. -/
theorem report (h : InCustody who all start? accepted hand late c d) {r : Report}
    (hr : (r.isTerminal = true ∧ ∀ x ∈ all, x.hash = r.hash → x.sender = who →
        x.number ∈ numbersFrom who accepted) ∨
      ∃ hash, r = .sent hash ∧ ∀ x ∈ all, x.hash ≠ hash) :
    InCustody who all start? accepted hand late c (d.report r) := by
  rw [report_eq]
  refine ⟨h.crew, h.started, h.unmeddled, h.modes, ?_⟩
  simp only [Tracking.enqueued_report]
  cases r with
  | sent hash =>
    obtain ⟨hterm, _⟩ | ⟨j, heq, hf⟩ := hr
    · simp [Report.isTerminal] at hterm
    · obtain rfl := Report.sent.inj heq
      simp only [Report.hash]
      rw [h.custody.erase_foreign hf]
      exact h.custody
  | confirmed hash => exact h.custody
  | failed hash f =>
    obtain ⟨_, hs⟩ | ⟨j, heq, _⟩ := hr
    · have hc : Custody who all start? accepted hand (returned d.allocator d.tracking.enqueued hash)
          d.sends (d.tracking.enqueued.erase hash) (late ++ c.unsubmitted) c.watched c.tracks :=
        h.custody.failed_spent hs
      rw [← Tracking.allocator_onFailed d.tracking d.allocator hash f] at hc
      exact hc
    · simp at heq

theorem reportAll (h : InCustody who all start? accepted hand late c d) {rs : List Report}
    (hr : ∀ r ∈ rs, (r.isTerminal = true ∧ ∀ x ∈ all, x.hash = r.hash → x.sender = who →
        x.number ∈ numbersFrom who accepted) ∨
      ∃ hash, r = .sent hash ∧ ∀ x ∈ all, x.hash ≠ hash) :
    InCustody who all start? accepted hand late c (d.reportAll rs) := by
  induction rs generalizing d with
  | nil => exact h
  | cons r rs ih =>
    have h' := h.report (hr r List.mem_cons_self)
    exact ih h' fun q hq => hr q (List.mem_cons_of_mem _ hq)

/-- What the crew does, with the reports that come of it. -/
theorem handles (h : InCustody who all start? accepted hand [] c d)
    (hinj : ∀ x ∈ all, ∀ y ∈ all, x.hash = y.hash → x = y) {took : List Signed}
    {f : Confirmer → Confirmer × List Report} (hf : Confirmer.Handles c took (f c).1 (f c).2) :
    InCustody who all start? (took ++ accepted) hand [] (f c).1 (d.withConfirmer f) := by
  rw [withConfirmer_some h.crew]
  generalize (f c).1 = c' at hf
  generalize (f c).2 = rs at hf
  cases hf with
  | watches _ _ keeps jobs watched tracks reports =>
    have hin : InCustody who all start? accepted hand [] c'
        { d with tracker := { d.tracker with confirmer := some c' } } :=
      ⟨rfl, keeps.2 h.started, h.unmeddled, h.modes, h.custody.of_jobs jobs watched tracks⟩
    refine hin.reportAll fun r hr => ?_
    rcases reports r hr with ⟨hterm, hw⟩ | ⟨hash, hm, rfl⟩
    · exact .inl ⟨hterm, h.custody.watched _ hw⟩
    · exact .inr ⟨hash, rfl, h.custody.tracked hash hm⟩
  | submits _ tx keeps jobs watched tracks =>
    have hc := h.custody.sent hinj jobs watched
    rw [← tracks] at hc
    exact ⟨rfl, keeps.2 h.started, h.unmeddled, h.modes, hc⟩
  | refused _ tx f keeps jobs watched tracks =>
    have hc := h.custody.failed hinj jobs watched
    rw [← tracks, ← Tracking.allocator_onFailed d.tracking d.allocator tx.hash f] at hc
    refine ⟨rfl, keeps.2 h.started, h.unmeddled, h.modes, ?_⟩
    show Custody _ _ _ _ _ _ _ (d.tracking.report d.allocator (.failed tx.hash f)).1.enqueued _ _ _
    rw [Tracking.enqueued_report]
    exact hc

/-- What the crew dropped is reported one by one. -/
theorem reportDropped (txs : List Signed) (h : InCustody who all start? accepted hand txs c d)
    (hinj : ∀ x ∈ all, ∀ y ∈ all, x.hash = y.hash → x = y) :
    InCustody who all start? accepted hand [] c (d.reportAll (Confirmer.dropReports txs)) := by
  induction txs generalizing d with
  | nil => exact h
  | cons tx txs ih =>
    have hc := h.custody.failed hinj (.refl _) fun _ hm => hm
    refine ih (d := d.report _) ⟨h.crew, h.started, h.unmeddled, h.modes, ?_⟩
    rw [← Tracking.allocator_onFailed d.tracking d.allocator tx.hash
      (.submission "confirmer stopped" none)] at hc
    show Custody _ _ _ _ _ _ _ (d.tracking.report d.allocator (.failed tx.hash _)).1.enqueued _ _ _
    rw [Tracking.enqueued_report]
    exact hc

theorem drain (h : InCustody who all start? accepted hand [] c d)
    (hinj : ∀ x ∈ all, ∀ y ∈ all, x.hash = y.hash → x = y) :
    ∃ c', InCustody who all start? accepted hand [] c' (d.withConfirmer Confirmer.drain) ∧
      (c.Closed → c'.Closed) ∧ (d.stops .drain = true → c'.Closed) := by
  rw [withConfirmer_some h.crew]
  rcases c.drain_cases h.started with ⟨hno, heq⟩ | ⟨_, _, hcl, hst, hw, ht, hrs⟩
  · refine ⟨c, ?_, id, fun hs => ?_⟩
    · rw [heq]
      exact ⟨rfl, h.started, h.unmeddled, h.modes, h.custody⟩
    · simp only [stops, h.crew, Bool.and_eq_true] at hs
      exact absurd hs hno
  · refine ⟨c.drain.1, ?_, fun _ => hcl, fun _ => hcl⟩
    rw [hrs]
    refine reportDropped c.unsubmitted ⟨rfl, hst, h.unmeddled, h.modes, ?_⟩ hinj
    rw [hcl.2, hw, ht, List.append_nil]
    exact h.custody.of_jobs (.refl _) (by simp) (by simp)

theorem track (h : InCustody who all start? accepted hand late c d) {hash : Hash}
    (hf : ∀ x ∈ all, x.hash ≠ hash) :
    ∃ c', InCustody who all start? accepted hand late c' (d.track hash).2 ∧
      (c.Closed → c'.Closed) := by
  have hm : (d.log (.tracked hash)).meddle = d.log (.tracked hash) := meddle_of_unmeddled h.unmeddled
  unfold Dispatch.track
  rw [hm]
  simp only
  split
  · exact ⟨c, ⟨h.crew, h.started, h.unmeddled, h.modes, h.custody⟩, id⟩
  · next e hp =>
    obtain ⟨c₁, rfl, hpush⟩ := push_ok hp
    obtain ⟨hopen, rfl⟩ := hpush c h.crew
    refine ⟨_, ⟨rfl, h.started, h.unmeddled, h.modes, ?_⟩, fun hcl => ?_⟩
    · rw [c.unsubmitted_track hash, c.tracks_track hash]
      refine { h.custody with tracked := fun j hj => ?_ }
      rcases List.mem_append.mp hj with hj | hj
      · exact h.custody.tracked j hj
      · rw [List.mem_singleton.mp hj]
        exact hf
    · rw [hcl.1] at hopen
      simp at hopen

theorem or_none (h : InCustody who all start? accepted hand late c d) :
    InCustody who all (start?.or none) accepted hand late c d := by
  rw [Option.or_none]
  exact h

theorem mem_handedBy {l : Label} {hash : Hash} {n : Nat} (hl : l.send? = some k)
    (hk : d.sends.get? k = some s) (he : (d.step l).events = .enqueued hash n :: d.events) :
    ⟨hash, s.signer.address, n⟩ ∈ d.handedBy l := by
  simp only [handedBy]
  rw [hl, Option.bind_some, hk, he]
  simp

/-- What one step preserves. -/
theorem step (h : InCustody who all start? accepted [] [] c d)
    (hinj : ∀ x ∈ all, ∀ y ∈ all, x.hash = y.hash → x = y) (l : Label) (hl : l.Usual who)
    (he : ¬(d.step l).allocator.Evicted who) (hall : ∀ x ∈ d.handedBy l, x ∈ all)
    (htrack : ∀ hash, l = .track hash → ∀ x ∈ all, x.hash ≠ hash) :
    ∃ c', InCustody who all (start?.or (d.opening who l)) (d.takenBy l ++ accepted) [] [] c'
        (d.step l) ∧ (c.Closed → c'.Closed) ∧ (d.stops l = true → c'.Closed) := by
  have hands : ∀ k s, l.send? = some k → d.sends.get? k = some s → ∀ hash n,
      (d.step l).events = .enqueued hash n :: d.events → ⟨hash, s.signer.address, n⟩ ∈ all :=
    fun k s hs hk hash n hev => hall _ (mem_handedBy hs hk hev)
  have crew : ∀ {f : Confirmer → Confirmer × List Report} {took : List Signed},
      Confirmer.Handles c took (f c).1 (f c).2 → ∃ c',
        InCustody who all (start?.or none) (took ++ accepted) [] [] c' (d.withConfirmer f) ∧
          (c.Closed → c'.Closed) ∧ (false = true → c'.Closed) := by
    intro f took hf
    exact ⟨(f c).1, (h.handles hinj hf).or_none, hf.closed, fun hn => by simp at hn⟩
  cases l with
  | call k mode signer request =>
    exact ⟨c, (h.call k hl signer request).or_none, id, fun hn => by simp [stops] at hn⟩
  | answer k a now =>
    obtain ⟨c', hin, hcl⟩ := h.answer hinj a now he fun s hk => hands k s rfl hk
    exact ⟨c', hin, hcl, fun hn => by simp [stops] at hn⟩
  | turn k now =>
    rcases turn_cases d k now with heq | ⟨s, hk, hs, ha⟩
    · refine ⟨c, ?_, id, fun hn => by simp [stops] at hn⟩
      rw [Dispatch.step, heq]
      exact h.or_none
    · obtain ⟨c', hin, hcl⟩ := h.advance hinj hk hs ha he (hands k s rfl hk)
      exact ⟨c', hin.or_none, hcl, fun hn => by simp [stops] at hn⟩
  | poll k =>
    refine ⟨c, ?_, id, fun hn => by simp [stops] at hn⟩
    rcases poll_cases d k with heq | ⟨s, hash, hk, hst, hw⟩
    · rw [Dispatch.step, heq]
      exact h.or_none
    · have hin : InCustody who all start? accepted [] [] c
          { d with tracking := d.tracking.removeWaiter hash } :=
        ⟨h.crew, h.started, h.unmeddled, h.modes, h.custody⟩
      exact (hin.ends hk (by simp [Send.carries, hst]) hw).or_none
  | expire k =>
    refine ⟨c, ?_, id, fun hn => by simp [stops] at hn⟩
    rcases expire_cases d k with ⟨_, heq⟩ | ⟨s, hk, hw⟩
    · rw [Dispatch.step, heq]
      exact h.or_none
    · exact (h.gone hk hw).or_none
  | cancel k =>
    refine ⟨c, ?_, id, fun hn => by simp [stops] at hn⟩
    rcases cancel_cases d k with ⟨_, heq⟩ | ⟨s, hk, hw⟩
    · rw [Dispatch.step, heq]
      exact h.or_none
    · exact (h.gone hk hw).or_none
  | start =>
    have hin : InCustody who all start? accepted [] [] c { d with started := true } :=
      ⟨h.crew, h.started, h.unmeddled, h.modes, h.custody⟩
    have hf := c.handles_start
    exact ⟨c.start, (hin.handles (f := fun c => (c.start, [])) hinj hf).or_none, hf.closed,
      fun hn => by simp [stops] at hn⟩
  | take i => exact crew (c.handles_take i)
  | workerAnswer i a =>
    have ht : d.takenBy (.workerAnswer i a) = c.takenBy i a := by simp [takenBy, h.crew]
    rw [ht]
    exact crew (c.handles_answer i a)
  | verdict i v =>
    simp only [Dispatch.step, verdict]
    rw [h.crew]
    simp only
    split
    · exact ⟨c, h.or_none, id, fun hn => by simp [stops] at hn⟩
    · next hash _ =>
      have hin : InCustody who all start? accepted [] [] c (d.log (.checked hash c.depth)) :=
        ⟨h.crew, h.started, h.unmeddled, h.modes, h.custody⟩
      have hf := c.handles_verdict i v
      exact ⟨_, (hin.handles (f := fun c => c.verdict i v) hinj hf).or_none, hf.closed,
        fun hn => by simp [stops] at hn⟩
  | tick i => exact crew (f := fun c => (c.tick i, [])) (c.handles_tick i)
  | leave i => exact crew (f := fun c => (c.leave i, [])) (c.handles_leave i)
  | stop => exact crew (f := fun c => (c.stop, [])) c.handles_stop
  | drain =>
    obtain ⟨c', hin, hcl, hst⟩ := h.drain hinj
    exact ⟨c', hin.or_none, hcl, hst⟩
  | report r => exact absurd hl id
  | track hash =>
    obtain ⟨c', hin, hcl⟩ := h.track (htrack hash rfl)
    exact ⟨c', hin.or_none, hcl, fun hn => by simp [stops] at hn⟩
  | reset other n =>
    have hh := h.custody.holdings.of_leaves (Allocator.reset_leaves d.allocator n (Ne.symm hl)) he
    have hin : InCustody who all start? accepted [] [] c (d.step (.reset other n)) :=
      ⟨h.crew, h.started, h.unmeddled, h.modes, { h.custody with holdings := hh }⟩
    exact ⟨c, hin.or_none, id, fun hn => by simp [stops] at hn⟩
  | release other n =>
    have hkept := Allocator.get?_release_of_ne d.allocator n none (Ne.symm hl)
    have hh := h.custody.holdings.of_leaves (.inl hkept) he
    have hin : InCustody who all start? accepted [] [] c (d.step (.release other n)) :=
      ⟨h.crew, h.started, h.unmeddled, h.modes, { h.custody with holdings := hh }⟩
    exact ⟨c, hin.or_none, id, fun hn => by simp [stops] at hn⟩

end InCustody

end Outbox.Dispatch
