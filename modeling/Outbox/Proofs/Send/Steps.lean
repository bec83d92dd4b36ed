import Outbox.Send.Step

namespace Outbox

namespace Send

/-- The send neither holds a number nor waits for the end of its transaction. -/
def Stage.Plain : Stage → Prop
  | .submit _ _ => False
  | .settle _ => False
  | _ => True

end Send

namespace Dispatch

open Ledger Nonce

/-- Nothing sent, tracked or reported yet. -/
def fresh (terms : Terms) (tip baseFee : Fee.Shared SendId) (capacity : Nat) (tracker : Tracker) :
    Dispatch :=
  { terms := terms, tip := tip, baseFee := baseFee, allocator := .ofCapacity capacity
    tracker := tracker }

/-- Equal but for fee caches, results and counters. -/
structure Like (d d' : Dispatch) : Prop where
  terms : d'.terms = d.terms
  allocator : d'.allocator = d.allocator
  tracker : d'.tracker = d.tracker
  tracking : d'.tracking = d.tracking
  sends : d'.sends = d.sends
  events : d'.events = d.events

theorem Like.refl (d : Dispatch) : Like d d := ⟨rfl, rfl, rfl, rfl, rfl, rfl⟩

theorem Like.trans {d e f : Dispatch} (h : Like d e) (g : Like e f) : Like d f :=
  ⟨g.terms.trans h.terms, g.allocator.trans h.allocator, g.tracker.trans h.tracker,
    g.tracking.trans h.tracking, g.sends.trans h.sends, g.events.trans h.events⟩

/-- How a send goes on that holds no number: it waits, fails, or gets a number from a resident
state and signs with it. -/
inductive Advance (d : Dispatch) (k : SendId) (s : Send) : Dispatch → Prop where
  | waits (e : Dispatch) (stage : Send.Stage) (h : Like d e) (hp : stage.Plain) :
      Advance d k s (e.setStage k s stage)
  | fails (e : Dispatch) (f : Failure) (h : Like d e) : Advance d k s (e.fail k f)
  | signs (e : Dispatch) (price : Price) (gas : Nat) (held : Reservation) (a : Allocator)
      (h : Like d e) (ht : d.allocator.take? s.signer.address = some (held, a)) :
      Advance d k s ({ e with allocator := a }.sign k s price gas held)

variable {d e : Dispatch} {k : SendId} {s : Send}

theorem Advance.of_like {d' : Dispatch} (h : Like d e) (ha : Advance e k s d') :
    Advance d k s d' := by
  cases ha with
  | waits e' stage he hp => exact .waits e' stage (h.trans he) hp
  | fails e' f he => exact .fails e' f (h.trans he)
  | signs e' price gas held a he ht =>
    exact .signs e' price gas held a (h.trans he) (h.allocator ▸ ht)

theorem askNumber_advance (d : Dispatch) (k : SendId) (s : Send) (price : Price) (gas : Nat) :
    Advance d k s (d.askNumber k s price gas) := by
  simp only [askNumber]
  cases ht : d.allocator.take? s.signer.address with
  | none => exact .waits d _ (.refl d) trivial
  | some p => exact .signs d price gas p.1 p.2 (.refl d) ht

theorem askGas_advance (d : Dispatch) (k : SendId) (s : Send) (price : Price) :
    Advance d k s (d.askGas k s price) := by
  simp only [askGas]
  split
  · exact .waits d _ (.refl d) trivial
  · exact askNumber_advance d k s price _

theorem applyFees_advance (d : Dispatch) (k : SendId) (s : Send) (tip baseFee : Nat) :
    Advance d k s (d.applyFees k s tip baseFee) := by
  simp only [applyFees]
  split
  · exact .fails d _ (.refl d)
  · exact askGas_advance d k s _

theorem like_tip (d : Dispatch) (t : Fee.Shared SendId) : Like d { d with tip := t } :=
  ⟨rfl, rfl, rfl, rfl, rfl, rfl⟩

theorem like_baseFee (d : Dispatch) (t : Fee.Shared SendId) : Like d { d with baseFee := t } :=
  ⟨rfl, rfl, rfl, rfl, rfl, rfl⟩

theorem baseTurn_advance (d : Dispatch) (k : SendId) (s : Send) (tip : Nat) (now : Int) :
    Advance d k s (d.baseTurn k s tip now) := by
  simp only [baseTurn]
  split
  · exact .waits d _ (.refl d) trivial
  · exact (applyFees_advance _ k s tip _).of_like (like_baseFee d _)

theorem askBase_advance (d : Dispatch) (k : SendId) (s : Send) (tip : Nat) (now : Int) :
    Advance d k s (d.askBase k s tip now) := by
  unfold askBase
  simp only
  split
  · exact (baseTurn_advance _ k s tip now).of_like (like_baseFee d _)
  · exact .waits _ _ (like_baseFee d _) trivial

theorem tipTurn_advance (d : Dispatch) (k : SendId) (s : Send) (now : Int) :
    Advance d k s (d.tipTurn k s now) := by
  simp only [tipTurn]
  split
  · exact .waits d _ (.refl d) trivial
  · exact (askBase_advance _ k s _ now).of_like (like_tip d _)

theorem askTip_advance (d : Dispatch) (k : SendId) (s : Send) (now : Int) :
    Advance d k s (d.askTip k s now) := by
  unfold askTip
  simp only
  split
  · exact (tipTurn_advance _ k s now).of_like (like_tip d _)
  · exact .waits _ _ (like_tip d _) trivial

theorem probed_advance (d : Dispatch) (k : SendId) (s : Send) (h : Header) (now : Int) :
    Advance d k s (d.probed k s h now) := by
  simp only [probed]
  split
  · exact askTip_advance d k s now
  · exact askGas_advance d k s _

theorem tipAnswered_advance (d : Dispatch) (k : SendId) (s : Send) (a : Except Failure Answer)
    (now : Int) : Advance d k s (d.tipAnswered k s a now) := by
  simp only [tipAnswered]
  split
  · exact .fails _ _ (like_tip d _)
  · exact (askBase_advance _ k s _ now).of_like (like_tip d _)

theorem baseAnswered_advance (d : Dispatch) (k : SendId) (s : Send) (tip : Nat)
    (a : Except Failure Answer) (now : Int) : Advance d k s (d.baseAnswered k s tip a now) := by
  simp only [baseAnswered]
  split
  · exact .fails _ _ (like_baseFee d _)
  · exact (applyFees_advance _ k s tip _).of_like (like_baseFee d _)

/-- The transaction that send `k` waits for the ledger to take. -/
def inFlight? (d : Dispatch) (k : SendId) : Option Signed :=
  match d.sends.get? k with
  | some ⟨_, _, _, .submit tx _⟩ => some tx
  | _ => none

theorem inFlight?_eq_some {tx : Signed} :
    d.inFlight? k = some tx ↔ ∃ s held, d.sends.get? k = some s ∧ s.stage = .submit tx held := by
  simp only [inFlight?]
  constructor
  · intro h
    split at h
    · next mode signer request tx' held hs =>
      obtain rfl : tx' = tx := Option.some.inj h
      exact ⟨_, held, hs, rfl⟩
    · simp at h
  · rintro ⟨⟨mode, signer, request, stage⟩, held, hs, rfl⟩
    rw [hs]

theorem inFlight?_eq_none (hs : d.sends.get? k = some s) (h : ∀ tx held, s.stage ≠ .submit tx held) :
    d.inFlight? k = none := by
  cases hf : d.inFlight? k with
  | none => rfl
  | some tx =>
    obtain ⟨t, held, ht, hst⟩ := inFlight?_eq_some.mp hf
    obtain rfl : s = t := Option.some.inj (hs.symm.trans ht)
    exact absurd hst (h tx held)

theorem inFlight?_of_plain (hs : d.sends.get? k = some s) (hp : s.stage.Plain) :
    d.inFlight? k = none := by
  refine inFlight?_eq_none hs fun tx held hst => ?_
  rw [hst] at hp
  exact hp

/-- What an answer of the ledger does: nothing, or the send goes on, or its transaction was taken
or not, or it gets a number with the answer and signs. -/
theorem answer_cases (d : Dispatch) (k : SendId) (a : Except Failure Answer) (now : Int) :
    (d.inFlight? k = none ∧ d.answer k a now = d) ∨ ∃ s, d.sends.get? k = some s ∧
      (s.stage.Plain ∧ Advance d k s (d.answer k a now) ∨
        (∃ tx held, s.stage = .submit tx held ∧
          d.answer k a now = d.submitAnswered k tx held a) ∨
        ∃ price gas n, s.stage = .number price gas ∧ a = .ok (.amount n) ∧
          d.answer k a now =
            { d with allocator := (d.allocator.install s.signer.address n).2 }.sign k s price gas
              (d.allocator.install s.signer.address n).1) := by
  simp only [answer]
  cases hs : d.sends.get? k with
  | none => exact .inl ⟨by simp [inFlight?, hs], rfl⟩
  | some s =>
    simp only
    -- the match binds the answer anew, so that it is not named in what follows
    have plain : ∀ {d' : Dispatch}, s.stage.Plain → Advance d k s d' →
        (d.inFlight? k = none ∧ d' = d) ∨ ∃ t, some s = some t ∧ (t.stage.Plain ∧ Advance d k t d' ∨
          (∃ tx held, t.stage = .submit tx held ∧ d' = d.submitAnswered k tx held a) ∨
          ∃ price gas n, t.stage = .number price gas ∧ a = .ok (.amount n) ∧
            d' = { d with allocator := (d.allocator.install t.signer.address n).2 }.sign k t price gas
              (d.allocator.install t.signer.address n).1) :=
      fun hp ha => .inr ⟨s, rfl, .inl ⟨hp, ha⟩⟩
    split
    · next hst => exact plain (hst ▸ trivial) (tipAnswered_advance d k s _ now)
    · next tip hst => exact plain (hst ▸ trivial) (baseAnswered_advance d k s tip _ now)
    · next _ tx held hst => exact .inr ⟨s, rfl, .inr (.inl ⟨tx, held, hst, rfl⟩)⟩
    · next h hst => exact plain (hst ▸ trivial) (probed_advance d k s h now)
    · next price gas hst => exact plain (hst ▸ trivial) (askNumber_advance d k s price gas)
    · next price gas n hst => exact .inr ⟨s, rfl, .inr (.inr ⟨price, gas, n, hst, rfl, rfl⟩)⟩
    · next f hst => exact plain (hst ▸ trivial) (.fails d f (.refl d))
    · next f hst => exact plain (hst ▸ trivial) (.fails d f (.refl d))
    · next f hst => exact plain (hst ▸ trivial) (.fails d f (.refl d))
    · next _ _ _ hsub _ _ _ _ _ _ =>
      exact .inl ⟨inFlight?_eq_none hs fun tx held hst => hsub tx held hst, rfl⟩

theorem turn_cases (d : Dispatch) (k : SendId) (now : Int) :
    d.turn k now = d ∨ ∃ s, d.sends.get? k = some s ∧ s.stage.Plain ∧
      Advance d k s (d.turn k now) := by
  simp only [turn]
  cases hs : d.sends.get? k with
  | none => exact .inl rfl
  | some s =>
    simp only
    split
    · next hst =>
      split
      · exact .inr ⟨s, rfl, hst ▸ trivial, tipTurn_advance d k s now⟩
      · exact .inl rfl
    · next tip hst =>
      split
      · exact .inr ⟨s, rfl, hst ▸ trivial, baseTurn_advance d k s tip now⟩
      · exact .inl rfl
    · exact .inl rfl

theorem giveBack_eq (d : Dispatch) (r : Reservation) :
    (d.giveBack r).2 = { d with allocator := (d.allocator.giveBack r).2 } := by
  unfold giveBack
  simp only
  split <;> rfl

/-- A send that has its number either cannot sign and gives it back, or delivers what it signed. -/
theorem sign_cases (d : Dispatch) (k : SendId) (s : Send) (price : Price) (gas : Nat)
    (held : Reservation) :
    (∃ f, d.sign k s price gas held =
      { d with allocator := (d.allocator.giveBack held).2 }.fail k f) ∨
    ∃ tx : Signed, tx.sender = s.signer.address ∧ tx.tx.nonce = held.nonce ∧
      d.sign k s price gas held = d.deliver k s tx held := by
  unfold sign Signer.sign
  simp only
  split
  · next f _ =>
    rw [giveBack_eq]
    exact .inl ⟨f, rfl⟩
  · next tx htx =>
    split at htx
    · simp at htx
    · obtain rfl := Except.ok.inj htx
      exact .inr ⟨_, rfl, rfl, rfl⟩

/-- The allocator after what a tracker has been told to do to it. -/
def meddled (d : Dispatch) : Allocator :=
  match d.tracker.reset with
  | none => d.allocator
  | some (who, next) => d.allocator.reset who next

theorem meddle_eq (d : Dispatch) : d.meddle = { d with allocator := d.meddled } := by
  simp only [meddle, meddled]
  cases d.tracker.reset with
  | none => rfl
  | some p => rfl

theorem meddle_of_unmeddled (h : d.tracker.reset = none) : d.meddle = d := by
  simp only [meddle]
  rw [h]

theorem push_ok {job : Job} (h : d.push job = .ok e) :
    ∃ c, e = { d with tracker := { d.tracker with confirmer := c } } ∧
      ∀ c₀, d.tracker.confirmer = some c₀ → c₀.stopping = false ∧
        c = some { c₀ with queue := c₀.queue ++ [job] } := by
  simp only [push] at h
  split at h
  · simp at h
  · split at h
    · next hc =>
      obtain rfl := Except.ok.inj h
      exact ⟨none, by rw [← hc], fun c₀ h₀ => by rw [hc] at h₀; simp at h₀⟩
    · next c hc =>
      cases hp : c.push job with
      | error f => simp [hp, Except.map] at h
      | ok c' =>
        rw [hp] at h
        obtain rfl := Except.ok.inj h
        refine ⟨some c', rfl, fun c₀ h₀ => ?_⟩
        obtain rfl : c = c₀ := Option.some.inj (hc.symm.trans h₀)
        simp only [Confirmer.push] at hp
        split at hp
        · simp at hp
        · next hs =>
          split at hp
          · obtain rfl := Except.ok.inj hp
            exact ⟨by simpa using hs, rfl⟩
          · simp at hp

/-- The dispatch at the moment it offers a transaction to the tracker. -/
def offered (d : Dispatch) (tx : Signed) (held : Reservation) : Dispatch :=
  { d with
    tracking := (d.tracking.addWaiter tx.hash).recordEnqueued tx.hash held
    events := .enqueued tx.hash tx.tx.nonce :: d.events
    allocator := d.meddled }

theorem offered_eq (d : Dispatch) (tx : Signed) (held : Reservation) :
    (({ d with
      tracking := (d.tracking.addWaiter tx.hash).recordEnqueued tx.hash held } : Dispatch).log
        (.enqueued tx.hash tx.tx.nonce)).meddle = d.offered tx held :=
  meddle_eq _

/-- A refusal undoes the record and gives the number back; otherwise the job is in, and the send
waits for its end unless it cannot wait at all. -/
theorem handOver_cases (d : Dispatch) (k : SendId) (s : Send) (tx : Signed) (held : Reservation) :
    let o := d.offered tx held
    (∃ f, d.handOver k s tx held =
      { o with
        tracking := (o.tracking.forgetEnqueued tx.hash).removeWaiter tx.hash
        allocator := (o.allocator.giveBack held).2 }.fail k f) ∨
    ∃ o', o.push (.submit tx) = .ok o' ∧
      (d.handOver k s tx held =
        { o' with tracking := o.tracking.removeWaiter tx.hash }.finish k
          (.error (.aborted zeroPeriod)) ∨
      d.handOver k s tx held = o'.setStage k s (.settle tx.hash)) := by
  simp only [handOver, offered_eq]
  cases hp : (d.offered tx held).push (.submit tx) with
  | error f =>
    simp only [giveBack_eq]
    exact .inl ⟨_, rfl⟩
  | ok o' =>
    obtain ⟨c, rfl, _⟩ := push_ok hp
    refine .inr ⟨_, rfl, ?_⟩
    simp only
    split
    · exact .inl rfl
    · exact .inr rfl

/-- Without send `k`, whatever it was told. -/
structure Without (d : Dispatch) (k : SendId) (d' : Dispatch) : Prop where
  terms : d'.terms = d.terms
  allocator : d'.allocator = d.allocator
  tracker : d'.tracker = d.tracker
  tracking : d'.tracking = d.tracking
  sends : d'.sends = d.sends.erase k
  events : d'.events = d.events

theorem without_finish (d : Dispatch) (k : SendId) (r : Except Fault Send.Outcome) :
    Without d k (d.finish k r) := ⟨rfl, rfl, rfl, rfl, rfl, rfl⟩

theorem Without.of_like {d' : Dispatch} (h : Like d e) (hw : Without e k d') : Without d k d' :=
  ⟨hw.terms.trans h.terms, hw.allocator.trans h.allocator, hw.tracker.trans h.tracker,
    hw.tracking.trans h.tracking, hw.sends.trans (by rw [h.sends]), hw.events.trans h.events⟩

/-- What is left behind by a send that goes away in the stage it is in. -/
def leftBy (d : Dispatch) (s : Send) : Dispatch :=
  match s.stage with
  | .submit _ held => { d with allocator := (d.allocator.giveBack held).2 }
  | .settle hash => { d with tracking := d.tracking.removeWaiter hash }
  | _ => d

/-- A transaction that the ledger did not take leaves behind what a send leaves that goes away. -/
theorem submitAnswered_error {tx : Signed} {held : Reservation} (hst : s.stage = .submit tx held)
    (k : SendId) (f : Failure) :
    Without (d.leftBy s) k (d.submitAnswered k tx held (.error f)) := by
  simp only [leftBy, submitAnswered, hst, giveBack_eq]
  exact without_finish _ _ _

theorem submitAnswered_ok (d : Dispatch) (k : SendId) (tx : Signed) (held : Reservation)
    (x : Answer) : Without d k (d.submitAnswered k tx held (.ok x)) :=
  ⟨rfl, rfl, rfl, rfl, rfl, rfl⟩

theorem letGo_like (d : Dispatch) (k : SendId) (s : Send) : Like (d.leftBy s) (d.letGo k s) := by
  simp only [letGo, leftBy]
  cases s.stage with
  | submit tx held =>
    simp only [giveBack_eq]
    exact ⟨rfl, rfl, rfl, rfl, rfl, rfl⟩
  | _ => exact ⟨rfl, rfl, rfl, rfl, rfl, rfl⟩

theorem tracker_leftBy (d : Dispatch) (s : Send) : (d.leftBy s).tracker = d.tracker := by
  simp only [leftBy]
  split <;> rfl

theorem enqueued_leftBy (d : Dispatch) (s : Send) :
    (d.leftBy s).tracking.enqueued = d.tracking.enqueued := by
  simp only [leftBy]
  split <;> rfl

theorem sends_leftBy (d : Dispatch) (s : Send) : (d.leftBy s).sends = d.sends := by
  simp only [leftBy]
  split <;> rfl

theorem cancel_cases (d : Dispatch) (k : SendId) :
    d.sends.get? k = none ∧ d.cancel k = d ∨
      ∃ s, d.sends.get? k = some s ∧ Without (d.leftBy s) k (d.cancel k) := by
  simp only [cancel]
  cases d.sends.get? k with
  | none => exact .inl ⟨rfl, rfl⟩
  | some s =>
    have hl := letGo_like d k s
    exact .inr ⟨s, rfl, .of_like hl ⟨rfl, rfl, rfl, rfl, by simp only [hl.sends, sends_leftBy], rfl⟩⟩

theorem expire_cases (d : Dispatch) (k : SendId) :
    d.sends.get? k = none ∧ d.expire k = d ∨
      ∃ s, d.sends.get? k = some s ∧ Without (d.leftBy s) k (d.expire k) := by
  simp only [expire]
  cases d.sends.get? k with
  | none => exact .inl ⟨rfl, rfl⟩
  | some s =>
    refine .inr ⟨s, rfl, .of_like (letGo_like d k s) ?_⟩
    simp only
    split
    · exact ⟨rfl, rfl, rfl, rfl, rfl, rfl⟩
    · exact without_finish _ _ _

theorem takeRejection_removeWaiter (t : Tracking) (h : Hash) :
    (t.takeRejection h).2.removeWaiter h = t.removeWaiter h := by
  simp [Tracking.takeRejection, Tracking.removeWaiter, Keyed.erase]

/-- A look at a handed-over transaction ends the send or changes nothing. -/
theorem poll_eq {h : Hash} (hs : d.sends.get? k = some s) (hst : s.stage = .settle h) :
    d.poll k =
      match d.tracking.rejected.get? h with
      | some f =>
        { d with tracking := d.tracking.removeWaiter h, answered := d.answered + 1 }.fail k f
      | none =>
        if d.tracking.pending.isSettled h then
          { d with tracking := d.tracking.removeWaiter h, answered := d.answered + 1 }.finish k
            (.ok (.hash h))
        else d := by
  obtain ⟨mode, signer, request, stage⟩ := s
  obtain rfl : stage = .settle h := hst
  rw [← takeRejection_removeWaiter]
  simp only [poll]
  rw [hs]
  cases hr : d.tracking.rejected.get? h with
  | none => simp [Tracking.takeRejection, hr, Tracking.removeWaiter, Keyed.erase]
  | some f => simp [Tracking.takeRejection, hr]

theorem poll_cases (d : Dispatch) (k : SendId) :
    d.poll k = d ∨ ∃ s h, d.sends.get? k = some s ∧ s.stage = .settle h ∧
      Without { d with tracking := d.tracking.removeWaiter h } k (d.poll k) := by
  cases hs : d.sends.get? k with
  | none => exact .inl (by simp [poll, hs])
  | some s =>
    cases hst : s.stage with
    | settle h =>
      rw [poll_eq hs hst]
      split
      · exact .inr ⟨s, h, rfl, hst, rfl, rfl, rfl, rfl, rfl, rfl⟩
      · split
        · exact .inr ⟨s, h, rfl, hst, rfl, rfl, rfl, rfl, rfl, rfl⟩
        · exact .inl rfl
    | _ =>
      obtain ⟨mode, signer, request, stage⟩ := s
      subst hst
      exact .inl (by simp [poll, hs])

theorem withConfirmer_none (hc : d.tracker.confirmer = none)
    (f : Confirmer → Confirmer × List Report) : d.withConfirmer f = d := by
  simp only [withConfirmer]
  rw [hc]

theorem withConfirmer_some {c : Confirmer} (hc : d.tracker.confirmer = some c)
    (f : Confirmer → Confirmer × List Report) :
    d.withConfirmer f =
      { d with tracker := { d.tracker with confirmer := some (f c).1 } }.reportAll (f c).2 := by
  simp only [withConfirmer]
  rw [hc]

end Dispatch

namespace Sample

def stamp : Signature := ⟨0, 1, 1⟩

def signer : Signer := ⟨Address.ofNat 7, fun _ => some stamp⟩

def request : Request := { recipient := some (Address.ofNat 9), value := 1, gasLimit := 21000 }

def payment (n : Nat) : Transaction :=
  { chainId := 1, nonce := n, gasLimit := 21000, price := .legacy 5
    recipient := request.recipient, value := 1, data := [] }

def signed (n : Nat) : Signed where
  hash := Hash.ofBytes (Keccak.digest (Envelope.signed (payment n) stamp))
  sender := signer.address
  raw := Envelope.signed (payment n) stamp
  tx := payment n

def terms : Terms := ⟨1, 5, .ofSecs 60, 100⟩

def fees : Fee.Shared SendId := ⟨.ofTtl 60, []⟩

/-- A call up to the point where it has a number, if it need not ask the ledger for one. -/
def begin (k : SendId) (mode : Send.Mode) : List Dispatch.Label :=
  [.call k mode signer request, .answer k (.ok (.header ⟨10, none⟩)) 0]

/-- The first call asks the ledger for its number. -/
def first (k : SendId) (mode : Send.Mode) (n : Nat) : List Dispatch.Label :=
  begin k mode ++ [.answer k (.ok (.amount n)) 0]

end Sample

end Outbox
