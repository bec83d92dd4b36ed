import Outbox.Proofs.Send.Fees
import Outbox.Proofs.Send.Numbers

namespace Outbox

open Ledger Nonce

/-- What a caller in line finds in the cache at `now`. -/
def Fee.Shared.look? {κ : Type} [DecidableEq κ] (c : Fee.Shared κ) (k : κ) (now : Int) :
    Option Nat :=
  if c.hasTurn k then c.cache.fresh? now else none

/-- What a call has found out. -/
structure Findings where
  /-- The header that it probed. -/
  header : Option Header := none
  tip : Option Nat := none
  baseFee : Option Nat := none
  /-- The call whose gas it asked for, and the answer. -/
  estimate : Option (Call × Nat) := none

/-- Findings, and later ones. -/
def Findings.add (f later : Findings) : Findings where
  header := later.header.or f.header
  tip := later.tip.or f.tip
  baseFee := later.baseFee.or f.baseFee
  estimate := later.estimate.or f.estimate

theorem Findings.add_nothing (f : Findings) : f.add {} = f := by
  simp [Findings.add]

theorem Findings.nothing_add (f : Findings) : Findings.add {} f = f := by
  simp [Findings.add]

/-- If both fees are found, the cap on them is an amount. -/
def Findings.Fits (f : Findings) : Prop :=
  ∀ tip baseFee, f.tip = some tip → f.baseFee = some baseFee → tip + 2 * baseFee < Fee.amountBound

theorem Findings.fits_of_tip {f : Findings} (h : f.tip = none) : f.Fits := by
  intro tip baseFee ht hb
  rw [h] at ht
  simp at ht

theorem Findings.fits_of_baseFee {f : Findings} (h : f.baseFee = none) : f.Fits := by
  intro tip baseFee ht hb
  rw [h] at hb
  simp at hb

theorem Signer.sign_ok {who : Signer} {tx : Transaction} {signed : Signed}
    (h : who.sign tx = .ok signed) : signed.sender = who.address ∧ signed.tx = tx := by
  simp only [sign] at h
  split at h
  · simp at h
  · obtain rfl := Except.ok.inj h
    exact ⟨rfl, rfl⟩

/-- The price that the findings ask for: the flat one without looking at any cache if the header has
no base fee, otherwise the tip on top of room for twice the base fee. -/
inductive Priced (terms : Terms) (f : Findings) : Price → Prop where
  | flat {h : Header} (hh : f.header = some h) (hb : h.baseFee = none) (htip : f.tip = none)
      (hbase : f.baseFee = none) : Priced terms f (.legacy terms.staticPrice)
  | dynamic {h : Header} {tip baseFee : Nat} (hh : f.header = some h) (hb : h.baseFee ≠ none)
      (htip : f.tip = some tip) (hbase : f.baseFee = some baseFee)
      (hfit : tip + 2 * baseFee < Fee.amountBound) :
      Priced terms f (.dynamic (tip + 2 * baseFee) tip)

section Priced

variable {terms : Terms} {f : Findings} {price : Price}

/-- What is added to findings that have a price leaves the price as it is. -/
theorem Priced.add_estimate (h : Priced terms f price)
    (estimate : Option (Call × Nat)) :
    Priced terms (f.add { estimate := estimate }) price := by
  cases h with
  | flat hh hb htip hbase => exact .flat hh hb htip hbase
  | dynamic hh hb htip hbase hfit => exact .dynamic hh hb htip hbase hfit

theorem Priced.fits (h : Priced terms f price) : f.Fits := by
  cases h with
  | flat _ _ htip _ => exact Findings.fits_of_tip htip
  | dynamic _ _ htip hbase hfit =>
    intro tip baseFee ht hb
    obtain rfl := Option.some.inj (htip.symm.trans ht)
    obtain rfl := Option.some.inj (hbase.symm.trans hb)
    exact hfit

end Priced

/-- The gas limit of the request, or an estimate for the request at this price; a flat price is not
shown. -/
inductive Gassed (who : Address) (r : Request) (f : Findings) (price : Price) : Nat → Prop where
  | asked (h : r.gasLimit ≠ 0) : Gassed who r f price r.gasLimit
  | estimated {call : Call} {gas : Nat} (h : r.gasLimit = 0) (he : f.estimate = some (call, gas))
      (hsender : call.sender = some who) (hrecipient : call.recipient = r.recipient)
      (hvalue : call.value = r.value) (hdata : call.data = r.data)
      (hprice : call.price = if price.isDynamic then some price else none) :
      Gassed who r f price gas

/-- The transaction is what was requested, at the price found, under the number held. -/
structure Describes (terms : Terms) (signer : Signer) (r : Request) (f : Findings)
    (held : Reservation) (tx : Signed) : Prop where
  signed : signer.sign tx.tx = .ok tx
  nonce : tx.tx.nonce = held.nonce
  sender : tx.sender = held.identity
  chainId : tx.tx.chainId = terms.chainId
  recipient : tx.tx.recipient = r.recipient
  value : tx.tx.value = r.value
  data : tx.tx.data = r.data
  price : Priced terms f tx.tx.price
  gas : Gassed tx.sender r f tx.tx.price tx.tx.gasLimit

/-- What a call knows in the stage it is in. -/
def Known (terms : Terms) (s : Send) (f : Findings) : Prop :=
  match s.stage with
  | .probe => f = {}
  | .tipTurn => ∃ h : Header, h.baseFee ≠ none ∧ f = { header := some h }
  | .tipAnswer => ∃ h : Header, h.baseFee ≠ none ∧ f = { header := some h }
  | .baseTurn tip => ∃ h : Header, h.baseFee ≠ none ∧ f = { header := some h, tip := some tip }
  | .baseAnswer tip => ∃ h : Header, h.baseFee ≠ none ∧ f = { header := some h, tip := some tip }
  | .estimate price => Priced terms f price ∧ s.request.gasLimit = 0
  | .number price gas => Priced terms f price ∧ Gassed s.signer.address s.request f price gas
  | .submit _ _ => True
  | .settle _ => True

theorem Known.fits {terms : Terms} {s : Send} {f : Findings} (h : Known terms s f)
    (hplain : s.stage.Plain) : f.Fits := by
  obtain ⟨mode, signer, request, stage⟩ := s
  cases stage with
  | probe =>
    obtain rfl : f = {} := h
    exact Findings.fits_of_tip rfl
  | tipTurn =>
    obtain ⟨_, _, rfl⟩ := h
    exact Findings.fits_of_tip rfl
  | tipAnswer =>
    obtain ⟨_, _, rfl⟩ := h
    exact Findings.fits_of_tip rfl
  | baseTurn _ =>
    obtain ⟨_, _, rfl⟩ := h
    exact Findings.fits_of_baseFee rfl
  | baseAnswer _ =>
    obtain ⟨_, _, rfl⟩ := h
    exact Findings.fits_of_baseFee rfl
  | estimate price => exact h.1.fits
  | number price gas => exact h.1.fits
  | submit tx held => exact hplain.elim
  | settle hash => exact hplain.elim

/-- `held` is the next number of `who`; if `who` has no state, `x` brings it to `k`. -/
def Got (a : Allocator) (who : Address) (k : SendId) (x : Dispatch.Label) (held : Reservation)
    (a' : Allocator) : Prop :=
  ∃ n, a.install who n = (held, a') ∧
    (a.entries.get? who = none → ∃ now, x = .answer k (.ok (.amount n)) now)

namespace Dispatch

/-- What a call finds that has read `tip` or not, and if so goes on to the base fee. -/
def tipThenBase (d : Dispatch) (k : SendId) (tip : Option Nat) (now : Int) : Findings where
  tip := tip
  baseFee := tip.bind fun _ => (d.baseFee.join k).look? k now

/-- What `k` finds out in a step. -/
def learns (d : Dispatch) (k : SendId) (x : Label) : Findings :=
  match d.sends.get? k, x with
  | some s, .answer j a now =>
    if j = k then
      match s.stage, a with
      | .probe, .ok (.header h) =>
        if h.supportsDynamicFee then
          { d.tipThenBase k ((d.tip.join k).look? k now) now with header := some h }
        else { header := some h }
      | .tipAnswer, a => d.tipThenBase k (Fee.Kind.tip.ofAnswer a).toOption now
      | .baseAnswer _, a => { baseFee := (Fee.Kind.baseFee.ofAnswer a).toOption }
      | .estimate price, .ok (.amount gas) => { estimate := some (s.estimateCall price, gas) }
      | _, _ => {}
    else {}
  | some s, .turn j now =>
    if j = k then
      match s.stage with
      | .tipTurn => d.tipThenBase k (d.tip.look? k now) now
      | .baseTurn _ => { baseFee := d.baseFee.look? k now }
      | _ => {}
    else {}
  | _, _ => {}

def learned (d : Dispatch) (k : SendId) : List Label → Findings
  | [] => {}
  | x :: labels => (d.learns k x).add ((d.step x).learned k labels)

/-- Equal but for fee caches and counters. -/
structure Still (d e : Dispatch) : Prop extends Like d e where
  results : e.results = d.results

/-- How a call that has no number yet comes through a step, with what it has found out by then. -/
inductive BuildStep (d : Dispatch) (k : SendId) (s : Send) (f : Findings) (x : Label)
    (d' : Dispatch) : Prop where
  /-- It goes on waiting. -/
  | waits (stage : Send.Stage) (hplain : stage.Plain)
      (hs : d'.sends.get? k = some { s with stage := stage })
      (hknown : Known d.terms { s with stage := stage } f) (hresults : d'.results = d.results)
      (hkept : d'.allocator = d.allocator)
  | fails (err : Failure) (hs : d'.sends.get? k = none)
      (hresults : d'.results = (k, .error (.failed err)) :: d.results)
      (hkept : d'.allocator = d.allocator)
      (hbig : ¬f.Fits → ∃ message, err = .build message)
  /-- Its caller goes away. -/
  | dropped (hx : x = .cancel k) (hknown : Known d.terms s f) (hs : d'.sends.get? k = none)
      (hresults : d'.results = d.results) (hkept : d'.allocator = d.allocator)
  /-- It has its number and cannot sign. -/
  | unsigned (price : Price) (held : Reservation) (a : Allocator) (err : Failure)
      (hprice : Priced d.terms f price) (hgot : Got d.allocator s.signer.address k x held a)
      (hs : d'.sends.get? k = none)
      (hresults : d'.results = (k, .error (.failed err)) :: d.results)
      (hback : d'.allocator = (a.giveBack held).2)
  /-- What is delivered can be returned, submitted or handed over. -/
  | built (e : Dispatch) (held : Reservation) (a : Allocator) (tx : Signed) (hstill : Still d e)
      (hgot : Got d.allocator s.signer.address k x held a)
      (htx : Describes d.terms s.signer s.request f held tx)
      (hd : d' = { e with allocator := a }.deliver k s tx held)

variable {d d' e : Dispatch} {k : SendId} {s : Send} {f : Findings} {x : Label}

theorem Still.trans {g : Dispatch} (h : Still d e) (h' : Still e g) : Still d g :=
  ⟨h.toLike.trans h'.toLike, h'.results.trans h.results⟩

theorem BuildStep.of_still (h : Still d e) (hb : BuildStep e k s f x d') :
    BuildStep d k s f x d' := by
  cases hb with
  | waits stage hplain hs hknown hresults hkept =>
    exact .waits stage hplain hs (h.terms ▸ hknown) (hresults.trans h.results)
      (hkept.trans h.allocator)
  | fails err hs hresults hkept hbig =>
    exact .fails err hs (by rw [hresults, h.results]) (hkept.trans h.allocator) hbig
  | dropped hx hknown hs hresults hkept =>
    exact .dropped hx (h.terms ▸ hknown) hs (hresults.trans h.results) (hkept.trans h.allocator)
  | unsigned price held a err hprice hgot hs hresults hback =>
    exact .unsigned price held a err (h.terms ▸ hprice) (h.allocator ▸ hgot) hs
      (by rw [hresults, h.results]) hback
  | built g held a tx hstill hgot htx hd =>
    exact .built g held a tx (h.trans hstill) (h.allocator ▸ hgot) (h.terms ▸ htx) hd

theorem still_tip (d : Dispatch) (t : Fee.Shared SendId) : Still d { d with tip := t } :=
  ⟨like_tip d t, rfl⟩

theorem still_baseFee (d : Dispatch) (t : Fee.Shared SendId) : Still d { d with baseFee := t } :=
  ⟨like_baseFee d t, rfl⟩

theorem BuildStep.rests (h : Still d e) {stage : Send.Stage} (hplain : stage.Plain)
    (hknown : Known d.terms { s with stage := stage } f) :
    BuildStep d k s f x (e.setStage k s stage) :=
  .waits stage hplain (Keyed.get?_put_self _ _ _) hknown h.results h.allocator

theorem BuildStep.gives_up (h : Still d e) (err : Failure)
    (hbig : ¬f.Fits → ∃ message, err = .build message) : BuildStep d k s f x (e.fail k err) :=
  .fails err (Keyed.get?_erase_self _ _) (congrArg _ h.results) h.allocator hbig

/-- What fits is not why the call fails. -/
theorem BuildStep.gives_up_fit (h : Still d e) (err : Failure) (hfits : f.Fits) :
    BuildStep d k s f x (e.fail k err) := .gives_up h err fun hbig => absurd hfits hbig

theorem sign_step {price : Price} {gas : Nat} {held : Reservation} {a : Allocator}
    (hgot : Got d.allocator s.signer.address k x held a) (hprice : Priced d.terms f price)
    (hgas : Gassed s.signer.address s.request f price gas) :
    BuildStep d k s f x ({ d with allocator := a }.sign k s price gas held) := by
  have hwho : held.identity = s.signer.address := by
    obtain ⟨n, hn, -⟩ := hgot
    have hid := Allocator.install_identity d.allocator s.signer.address n
    rwa [hn] at hid
  simp only [sign]
  split
  · next err _ =>
    simp only [giveBack_eq]
    exact .unsigned price held a err hprice hgot (Keyed.get?_erase_self _ _) rfl rfl
  · next tx hsign =>
    obtain ⟨hsender, htx⟩ := Signer.sign_ok hsign
    rw [← htx] at hsign
    refine .built d held a tx ⟨.refl d, rfl⟩ hgot ?_ rfl
    refine ⟨hsign, ?_, hsender.trans hwho.symm, ?_, ?_, ?_, ?_, ?_, ?_⟩
    all_goals rw [htx]
    · exact hprice
    · rw [hsender]
      exact hgas

theorem askNumber_step {price : Price} {gas : Nat} (hprice : Priced d.terms f price)
    (hgas : Gassed s.signer.address s.request f price gas) :
    BuildStep d k s f x (d.askNumber k s price gas) := by
  simp only [askNumber]
  cases ht : d.allocator.take? s.signer.address with
  | none => exact .rests ⟨.refl d, rfl⟩ trivial ⟨hprice, hgas⟩
  | some p =>
    refine sign_step ⟨0, Allocator.install_of_take? ht, fun hnone => ?_⟩ hprice hgas
    rw [Allocator.take?_eq_none.mpr hnone] at ht
    simp at ht

theorem askGas_step {price : Price} (hprice : Priced d.terms f price) :
    BuildStep d k s f x (d.askGas k s price) := by
  simp only [askGas]
  split
  · next hzero => exact .rests ⟨.refl d, rfl⟩ trivial ⟨hprice, hzero⟩
  · next hgas => exact askNumber_step hprice (.asked hgas)

theorem applyFees_step {h : Header} {tip baseFee : Nat} (hh : f.header = some h)
    (hb : h.baseFee ≠ none) (htip : f.tip = some tip) (hbase : f.baseFee = some baseFee) :
    BuildStep d k s f x (d.applyFees k s tip baseFee) := by
  simp only [applyFees, Fee.cap]
  by_cases hfit : tip + 2 * baseFee < Fee.amountBound
  · simp only [if_pos hfit]
    exact askGas_step (.dynamic hh hb htip hbase hfit)
  · simp only [if_neg hfit]
    exact .gives_up ⟨.refl d, rfl⟩ _ fun _ => ⟨_, rfl⟩

theorem baseTurn_step {h : Header} {tip : Nat} (hb : h.baseFee ≠ none) (now : Int) :
    BuildStep d k s ⟨some h, some tip, d.baseFee.cache.fresh? now, none⟩ x
      (d.baseTurn k s tip now) := by
  simp only [baseTurn]
  cases hf : d.baseFee.cache.fresh? now with
  | none => exact .rests ⟨.refl d, rfl⟩ trivial ⟨h, hb, rfl⟩
  | some fee => exact .of_still (still_baseFee d _) (applyFees_step rfl hb rfl rfl)

theorem askBase_step {h : Header} {tip : Nat} (hb : h.baseFee ≠ none) (now : Int) :
    BuildStep d k s ⟨some h, some tip, (d.baseFee.join k).look? k now, none⟩ x
      (d.askBase k s tip now) := by
  have hjoin := still_baseFee d (d.baseFee.join k)
  simp only [askBase, Fee.Shared.look?]
  split
  · exact .of_still hjoin (baseTurn_step hb now)
  · exact .rests hjoin trivial ⟨h, hb, rfl⟩

theorem tipTurn_step {h : Header} (hb : h.baseFee ≠ none) (now : Int) :
    BuildStep d k s { d.tipThenBase k (d.tip.cache.fresh? now) now with header := some h } x
      (d.tipTurn k s now) := by
  simp only [tipTurn, tipThenBase]
  cases hf : d.tip.cache.fresh? now with
  | none => exact .rests ⟨.refl d, rfl⟩ trivial ⟨h, hb, rfl⟩
  | some tip =>
    exact BuildStep.of_still (e := { d with tip := d.tip.leave k }) (still_tip d _)
      (askBase_step hb now)

theorem askTip_step {h : Header} (hb : h.baseFee ≠ none) (now : Int) :
    BuildStep d k s
      { d.tipThenBase k ((d.tip.join k).look? k now) now with header := some h } x
      (d.askTip k s now) := by
  have hjoin := still_tip d (d.tip.join k)
  simp only [askTip, Fee.Shared.look?]
  split
  · exact .of_still hjoin (tipTurn_step hb now)
  · exact .rests hjoin trivial ⟨h, hb, rfl⟩

theorem probed_step (h : Header) (now : Int) :
    BuildStep d k s
      (if h.supportsDynamicFee then
        { d.tipThenBase k ((d.tip.join k).look? k now) now with header := some h }
      else { header := some h }) x (d.probed k s h now) := by
  simp only [probed]
  by_cases hdyn : h.supportsDynamicFee = true
  · simp only [if_pos hdyn]
    refine askTip_step (fun hb => ?_) now
    simp [Header.supportsDynamicFee, hb] at hdyn
  · simp only [if_neg hdyn]
    refine askGas_step (.flat rfl ?_ rfl rfl)
    simpa [Header.supportsDynamicFee] using hdyn

theorem tipAnswered_step {h : Header} (hb : h.baseFee ≠ none) (a : Except Failure Answer)
    (now : Int) :
    BuildStep d k s
      { d.tipThenBase k (Fee.Kind.tip.ofAnswer a).toOption now with header := some h } x
      (d.tipAnswered k s a now) := by
  simp only [tipAnswered, tipThenBase]
  cases Fee.Kind.tip.ofAnswer a with
  | error err => exact .gives_up_fit (still_tip d _) err (Findings.fits_of_tip rfl)
  | ok tip =>
    exact BuildStep.of_still (e := { d with tip := d.tip.finish k tip now }) (still_tip d _)
      (askBase_step hb now)

theorem baseAnswered_step {h : Header} {tip : Nat} (hb : h.baseFee ≠ none)
    (a : Except Failure Answer) (now : Int) :
    BuildStep d k s ⟨some h, some tip, (Fee.Kind.baseFee.ofAnswer a).toOption, none⟩ x
      (d.baseAnswered k s tip a now) := by
  simp only [baseAnswered]
  cases Fee.Kind.baseFee.ofAnswer a with
  | error err => exact .gives_up_fit (still_baseFee d _) err (Findings.fits_of_baseFee rfl)
  | ok fee => exact .of_still (still_baseFee d _) (applyFees_step rfl hb rfl rfl)

/-- A call that stays where it is. -/
theorem BuildStep.stays (hs : d.sends.get? k = some s) (hplain : s.stage.Plain)
    (hknown : Known d.terms s f) : BuildStep d k s f x d :=
  .waits s.stage hplain hs hknown rfl rfl

theorem answer_step (hs : d.sends.get? k = some s) (hplain : s.stage.Plain)
    (hknown : Known d.terms s f) (a : Except Failure Answer) (now : Int) :
    BuildStep d k s (f.add (d.learns k (.answer k a now))) (.answer k a now)
      (d.answer k a now) := by
  -- an answer that does not fit is not heard
  have unheard : d.learns k (.answer k a now) = {} → d.answer k a now = d →
      BuildStep d k s (f.add (d.learns k (.answer k a now))) (.answer k a now)
        (d.answer k a now) := by
    intro hlearns hsame
    rw [hlearns, hsame, f.add_nothing]
    exact .stays hs hplain hknown
  obtain ⟨mode, signer, request, stage⟩ := s
  cases stage with
  | probe =>
    obtain rfl : f = {} := hknown
    rw [Findings.nothing_add] at unheard ⊢
    rcases a with err | ⟨n⟩ | ⟨h⟩ | ⟨hash⟩ | ⟨receipt⟩ | ⟨bytes⟩
    case error =>
      simp only [learns, answer, hs, if_true]
      exact .gives_up_fit ⟨.refl d, rfl⟩ err (Findings.fits_of_tip rfl)
    case ok.header =>
      simp only [learns, answer, hs, if_true]
      exact probed_step h now
    all_goals exact unheard (by simp [learns, hs]) (by simp [answer, hs])
  | tipTurn => exact unheard (by simp [learns, hs]) (by simp [answer, hs])
  | tipAnswer =>
    obtain ⟨h, hb, rfl⟩ := hknown
    simp only [learns, answer, hs, if_true]
    have hadd : Findings.add { header := some h }
        (d.tipThenBase k (Fee.Kind.tip.ofAnswer a).toOption now) =
        { d.tipThenBase k (Fee.Kind.tip.ofAnswer a).toOption now with header := some h } := by
      simp [Findings.add, tipThenBase]
    rw [hadd]
    exact tipAnswered_step hb a now
  | baseTurn tip => exact unheard (by simp [learns, hs]) (by simp [answer, hs])
  | baseAnswer tip =>
    obtain ⟨h, hb, rfl⟩ := hknown
    simp only [learns, answer, hs, if_true]
    have hadd : Findings.add { header := some h, tip := some tip }
        { baseFee := (Fee.Kind.baseFee.ofAnswer a).toOption } =
        ⟨some h, some tip, (Fee.Kind.baseFee.ofAnswer a).toOption, none⟩ := by
      simp [Findings.add]
    rw [hadd]
    exact baseAnswered_step hb a now
  | estimate price =>
    have hprice : Priced d.terms f price := hknown.1
    have hzero : request.gasLimit = 0 := hknown.2
    rcases a with err | ⟨n⟩ | ⟨h⟩ | ⟨hash⟩ | ⟨receipt⟩ | ⟨bytes⟩
    case error =>
      simp only [learns, answer, hs, if_true]
      rw [f.add_nothing]
      exact .gives_up_fit ⟨.refl d, rfl⟩ err (hknown.fits hplain)
    case ok.amount =>
      simp only [learns, answer, hs, if_true]
      exact askNumber_step (hprice.add_estimate _) (.estimated hzero rfl rfl rfl rfl rfl rfl)
    all_goals exact unheard (by simp [learns, hs]) (by simp [answer, hs])
  | number price gas =>
    have hprice : Priced d.terms f price := hknown.1
    have hgas : Gassed signer.address request f price gas := hknown.2
    have hlearns : d.learns k (.answer k a now) = {} := by simp [learns, hs]
    rw [hlearns, f.add_nothing] at unheard ⊢
    rcases a with err | ⟨n⟩ | ⟨h⟩ | ⟨hash⟩ | ⟨receipt⟩ | ⟨bytes⟩
    case error =>
      simp only [answer, hs]
      exact .gives_up_fit ⟨.refl d, rfl⟩ err (hknown.fits hplain)
    case ok.amount =>
      simp only [answer, hs]
      exact sign_step ⟨n, rfl, fun _ => ⟨now, rfl⟩⟩ hprice hgas
    all_goals exact unheard rfl (by simp [answer, hs])
  | submit tx held => exact hplain.elim
  | settle hash => exact hplain.elim

theorem turn_step (hs : d.sends.get? k = some s) (hplain : s.stage.Plain)
    (hknown : Known d.terms s f) (now : Int) :
    BuildStep d k s (f.add (d.learns k (.turn k now))) (.turn k now) (d.turn k now) := by
  have unheard : d.learns k (.turn k now) = {} → d.turn k now = d →
      BuildStep d k s (f.add (d.learns k (.turn k now))) (.turn k now) (d.turn k now) := by
    intro hlearns hsame
    rw [hlearns, hsame, f.add_nothing]
    exact .stays hs hplain hknown
  obtain ⟨mode, signer, request, stage⟩ := s
  cases stage with
  | tipTurn =>
    obtain ⟨h, hb, rfl⟩ := hknown
    by_cases hturn : d.tip.hasTurn k = true
    · have hadd : Findings.add { header := some h } (d.learns k (.turn k now)) =
          { d.tipThenBase k (d.tip.cache.fresh? now) now with header := some h } := by
        simp [Findings.add, learns, hs, tipThenBase, Fee.Shared.look?, hturn]
      rw [hadd]
      simp only [turn, hs, if_pos hturn]
      exact tipTurn_step hb now
    · refine unheard ?_ (by simp [turn, hs, hturn])
      simp [learns, hs, tipThenBase, Fee.Shared.look?, hturn]
  | baseTurn tip =>
    obtain ⟨h, hb, rfl⟩ := hknown
    by_cases hturn : d.baseFee.hasTurn k = true
    · have hadd : Findings.add { header := some h, tip := some tip } (d.learns k (.turn k now)) =
          ⟨some h, some tip, d.baseFee.cache.fresh? now, none⟩ := by
        simp [Findings.add, learns, hs, Fee.Shared.look?, hturn]
      rw [hadd]
      simp only [turn, hs, if_pos hturn]
      exact baseTurn_step hb now
    · refine unheard ?_ (by simp [turn, hs, hturn])
      simp [learns, hs, Fee.Shared.look?, hturn]
  | submit tx held => exact hplain.elim
  | settle hash => exact hplain.elim
  | _ => exact unheard (by simp [learns, hs]) (by simp [turn, hs])

/-- A call without a number only leaves the lines it stands in. -/
theorem letGo_still (hplain : s.stage.Plain) : Still d (d.letGo k s) := by
  have hlike := letGo_like d k s
  obtain ⟨mode, signer, request, stage⟩ := s
  cases stage with
  | submit tx held => exact hplain.elim
  | settle hash => exact hplain.elim
  | _ => exact ⟨hlike, rfl⟩

/-- What a step about `k` does to a call that has no number yet. -/
theorem step_builds (hs : d.sends.get? k = some s) (hplain : s.stage.Plain)
    (hknown : Known d.terms s f) (hx : x.send? = some k) :
    BuildStep d k s (f.add (d.learns k x)) x (d.step x) := by
  cases x with
  | answer j a now =>
    obtain rfl : j = k := Option.some.inj hx
    exact answer_step hs hplain hknown a now
  | turn j now =>
    obtain rfl : j = k := Option.some.inj hx
    exact turn_step hs hplain hknown now
  | call j mode signer request =>
    obtain rfl : j = k := Option.some.inj hx
    have hlearns : d.learns j (.call j mode signer request) = {} := by simp [learns]
    have hsame : d.step (.call j mode signer request) = d := by
      simp [step, call, Keyed.has, hs]
    rw [hlearns, hsame, f.add_nothing]
    exact .stays hs hplain hknown
  | poll j =>
    obtain rfl : j = k := Option.some.inj hx
    have hlearns : d.learns j (.poll j) = {} := by simp [learns]
    have hsame : d.step (.poll j) = d := by
      rcases poll_cases d j with h | ⟨t, hash, ht, hst, -⟩
      · exact h
      · obtain rfl : s = t := Option.some.inj (hs.symm.trans ht)
        rw [hst] at hplain
        exact hplain.elim
    rw [hlearns, hsame, f.add_nothing]
    exact .stays hs hplain hknown
  | expire j =>
    obtain rfl : j = k := Option.some.inj hx
    have hlearns : d.learns j (.expire j) = {} := by simp [learns]
    have hexpire : d.step (.expire j) = (d.letGo j s).fail j (.timeout s.operation) := by
      simp only [step, expire, hs]
      cases hst : s.stage with
      | settle hash =>
        rw [hst] at hplain
        exact hplain.elim
      | _ => rfl
    rw [hlearns, hexpire, f.add_nothing]
    exact .gives_up_fit (letGo_still hplain) _ (hknown.fits hplain)
  | cancel j =>
    obtain rfl : j = k := Option.some.inj hx
    have hlearns : d.learns j (.cancel j) = {} := by simp [learns]
    have hstill : Still d (d.letGo j s) := letGo_still hplain
    have hcancel : d.step (.cancel j) =
        { d.letGo j s with sends := (d.letGo j s).sends.erase j } := by
      simp only [step, cancel, hs]
    rw [hlearns, hcancel, f.add_nothing]
    exact .dropped rfl hknown (Keyed.get?_erase_self _ _) hstill.results hstill.allocator
  | _ => simp [Label.send?] at hx

end Dispatch

end Outbox
