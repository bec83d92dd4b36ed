import Outbox.Proofs.Send.AtCache

namespace Outbox.Dispatch

open Ledger Nonce

open Fee (Session)

variable {kind : Fee.Kind} {c : Fee.Cache} {d d' e : Dispatch} {k : SendId} {s : Send}
  {u : Session SendId}

/-- The session goes on as the dispatch does. -/
def Continues (kind : Fee.Kind) (c : Fee.Cache) (d' : Dispatch) (u : Session SendId) : Prop :=
  ∃ acts, SessionAt kind c d' (u.run kind acts)

theorem SessionAt.continues (h : SessionAt kind c d u) : Continues kind c d u := ⟨[], h⟩

theorem Continues.after {x : Session.Act SendId} (h : Continues kind c d (u.step kind x)) :
    Continues kind c d u := by
  obtain ⟨acts, hacts⟩ := h
  exact ⟨x :: acts, hacts⟩

theorem baseTurn_session {tip : Nat}
    (h : Passing kind c d k ((Send.Stage.baseTurn tip).standing kind) u)
    (hturn : d.baseFee.hasTurn k = true) (s : Send) (now : Int) :
    Continues kind c (d.baseTurn k s tip now) u := by
  simp only [baseTurn]
  cases kind with
  | tip =>
    have haway : Passing .tip c d k .away u := h
    split
    · exact (haway.setStage s rfl).continues
    · next fee _ =>
      have hleft : Passing .tip c { d with baseFee := d.baseFee.leave k } k .away u :=
        haway.congr rfl rfl
      exact (hleft.elsewhere (applyFees_elsewhere _ k s tip fee)).continues
  | baseFee =>
    cases hf : d.baseFee.cache.fresh? now with
    | none => exact ((h.asks hturn hf).setStage s rfl).continues.after
    | some fee =>
      exact ((h.served hturn hf).elsewhere (applyFees_elsewhere _ k s tip fee)).continues.after

theorem askBase_session (h : Passing kind c d k .away u) (s : Send) (tip : Nat) (now : Int) :
    Continues kind c (d.askBase k s tip now) u := by
  unfold askBase
  simp only
  cases kind with
  | tip =>
    have h' : Passing .tip c { d with baseFee := d.baseFee.join k } k .away u := h.congr rfl rfl
    split
    · next hturn => exact baseTurn_session h' hturn s now
    · exact (h'.setStage s rfl).continues
  | baseFee =>
    have h' : Passing .baseFee c { d with baseFee := d.baseFee.join k } k .waiting
        (u.step .baseFee (.come k)) := h.come
    split
    · next hturn => exact (baseTurn_session h' hturn s now).after
    · exact (h'.setStage s rfl).continues.after

theorem tipTurn_session (h : Passing kind c d k (Send.Stage.tipTurn.standing kind) u)
    (hturn : d.tip.hasTurn k = true) (s : Send) (now : Int) :
    Continues kind c (d.tipTurn k s now) u := by
  simp only [tipTurn]
  cases kind with
  | tip =>
    cases hf : d.tip.cache.fresh? now with
    | none => exact ((h.asks hturn hf).setStage s rfl).continues.after
    | some tip => exact (askBase_session (h.served hturn hf) s tip now).after
  | baseFee =>
    have haway : Passing .baseFee c d k .away u := h
    split
    · exact (haway.setStage s rfl).continues
    · next tip _ =>
      have hleft : Passing .baseFee c { d with tip := d.tip.leave k } k .away u :=
        haway.congr rfl rfl
      exact askBase_session hleft s tip now

theorem askTip_session (h : Passing kind c d k .away u) (s : Send) (now : Int) :
    Continues kind c (d.askTip k s now) u := by
  unfold askTip
  simp only
  cases kind with
  | tip =>
    have h' : Passing .tip c { d with tip := d.tip.join k } k .waiting (u.step .tip (.come k)) :=
      h.come
    split
    · next hturn => exact (tipTurn_session h' hturn s now).after
    · exact (h'.setStage s rfl).continues.after
  | baseFee =>
    have h' : Passing .baseFee c { d with tip := d.tip.join k } k .away u := h.congr rfl rfl
    split
    · next hturn => exact tipTurn_session h' hturn s now
    · exact (h'.setStage s rfl).continues

theorem tipAnswered_session (h : Passing kind c d k (Send.Stage.tipAnswer.standing kind) u)
    (s : Send) (a : Except Failure Answer) (now : Int) :
    Continues kind c (d.tipAnswered k s a now) u := by
  simp only [tipAnswered]
  cases kind with
  | tip =>
    cases ha : Fee.Kind.tip.ofAnswer a with
    | error f =>
      exact ((h.refused ha now).elsewhere (elsewhere_finish ⟨rfl, rfl, rfl⟩ _)).continues.after
    | ok tip => exact (askBase_session (h.brought ha now) s tip now).after
  | baseFee =>
    have haway : Passing .baseFee c d k .away u := h
    split
    · next f _ =>
      have hleft : Passing .baseFee c { d with tip := d.tip.leave k } k .away u :=
        haway.congr rfl rfl
      exact (hleft.elsewhere (elsewhere_finish ⟨rfl, rfl, rfl⟩ _)).continues
    · next tip _ =>
      have hleft : Passing .baseFee c { d with tip := d.tip.finish k tip now } k .away u :=
        haway.congr rfl rfl
      exact askBase_session hleft s tip now

theorem baseAnswered_session {tip : Nat}
    (h : Passing kind c d k ((Send.Stage.baseAnswer tip).standing kind) u) (s : Send)
    (a : Except Failure Answer) (now : Int) :
    Continues kind c (d.baseAnswered k s tip a now) u := by
  simp only [baseAnswered]
  cases kind with
  | tip =>
    have haway : Passing .tip c d k .away u := h
    split
    · next f _ =>
      have hleft : Passing .tip c { d with baseFee := d.baseFee.leave k } k .away u :=
        haway.congr rfl rfl
      exact (hleft.elsewhere (elsewhere_finish ⟨rfl, rfl, rfl⟩ _)).continues
    · next fee _ =>
      have hleft : Passing .tip c { d with baseFee := d.baseFee.finish k fee now } k .away u :=
        haway.congr rfl rfl
      exact (hleft.elsewhere (applyFees_elsewhere _ k s tip fee)).continues
  | baseFee =>
    cases ha : Fee.Kind.baseFee.ofAnswer a with
    | error f =>
      exact ((h.refused ha now).elsewhere (elsewhere_finish ⟨rfl, rfl, rfl⟩ _)).continues.after
    | ok fee =>
      exact ((h.brought ha now).elsewhere (applyFees_elsewhere _ k s tip fee)).continues.after

theorem submitAnswered_elsewhere (d : Dispatch) (k : SendId) (tx : Signed) (held : Reservation)
    (a : Except Failure Answer) : Elsewhere kind k d (d.submitAnswered k tx held a) := by
  cases a with
  | ok x => exact elsewhere_gone rfl rfl rfl
  | error f =>
    simp only [submitAnswered, giveBack_eq]
    exact elsewhere_gone rfl rfl rfl

theorem answer_session (h : SessionAt kind c d u) (k : SendId) (a : Except Failure Answer)
    (now : Int) : Continues kind c (d.answer k a now) u := by
  simp only [answer]
  cases hs : d.sends.get? k with
  | none => exact h.continues
  | some s =>
    have hk := h.passing hs
    -- in every other stage the send is away from both caches
    have ends : ∀ {d'}, s.stage.standing kind = .away → Elsewhere kind k d d' →
        Continues kind c d' u := fun hst he => by
      rw [hst] at hk
      exact (hk.elsewhere he).continues
    simp only
    split
    · next hst =>
      rw [hst] at hk
      exact tipAnswered_session hk s _ now
    · next tip hst =>
      rw [hst] at hk
      exact baseAnswered_session hk s _ now
    · next tx held hst =>
      exact ends (by rw [hst]; rfl) (submitAnswered_elsewhere d k tx held _)
    · next x hst =>
      rw [hst] at hk
      simp only [probed]
      split
      · exact askTip_session hk s now
      · exact ends (by rw [hst]; rfl) (askGas_elsewhere d k s _)
    · next price gas hst => exact ends (by rw [hst]; rfl) (askNumber_elsewhere d k s price gas)
    · next price gas n hst =>
      exact ends (by rw [hst]; rfl) (sign_elsewhere _ k s price gas _).of_allocator
    · next f hst => exact ends (by rw [hst]; rfl) (elsewhere_finish ⟨rfl, rfl, rfl⟩ _)
    · next f hst => exact ends (by rw [hst]; rfl) (elsewhere_finish ⟨rfl, rfl, rfl⟩ _)
    · next f hst => exact ends (by rw [hst]; rfl) (elsewhere_finish ⟨rfl, rfl, rfl⟩ _)
    · exact h.continues

theorem turn_session (h : SessionAt kind c d u) (k : SendId) (now : Int) :
    Continues kind c (d.turn k now) u := by
  simp only [turn]
  cases hs : d.sends.get? k with
  | none => exact h.continues
  | some s =>
    have hk := h.passing hs
    simp only
    split
    · next hst =>
      rw [hst] at hk
      split
      · next hturn => exact tipTurn_session hk hturn s now
      · exact h.continues
    · next tip hst =>
      rw [hst] at hk
      split
      · next hturn => exact baseTurn_session hk hturn s now
      · exact h.continues
    · exact h.continues

theorem poll_session (h : SessionAt kind c d u) (k : SendId) : Continues kind c (d.poll k) u := by
  cases hs : d.sends.get? k with
  | none =>
    have hpoll : d.poll k = d := by simp [poll, hs]
    rw [hpoll]
    exact h.continues
  | some s =>
    have hk := h.passing hs
    rcases poll_cases d k with hpoll | ⟨t, g, ht, hst, -⟩
    · rw [hpoll]
      exact h.continues
    · obtain rfl : s = t := Option.some.inj (hs.symm.trans ht)
      rw [hst] at hk
      have haway : Passing kind c d k .away u := hk
      rw [poll_eq hs hst]
      split
      · refine (haway.elsewhere ?_).continues
        exact elsewhere_gone rfl rfl rfl
      · split
        · refine (haway.elsewhere ?_).continues
          exact elsewhere_gone rfl rfl rfl
        · exact h.continues

theorem letGo_shared (d : Dispatch) (k : SendId) (s : Send) :
    (d.letGo k s).shared kind = (d.shared kind).leave k := by
  cases kind <;>
  · simp only [letGo]
    split
    · rw [giveBack_eq]
      rfl
    · rfl
    · rfl

/-- A send that is given up leaves the line. -/
theorem letGo_passing (h : SessionAt kind c d u) (hs : d.sends.get? k = some s) :
    Passing kind c (d.letGo k s) k .away (u.step kind (.leave k)) := by
  have hsends : (d.letGo k s).sends = d.sends := (letGo_like d k s).sends.trans (sends_leftBy d s)
  refine (h.passing hs).leave.congr ?_ (hsends.trans (by cases kind <;> rfl))
  rw [letGo_shared, shared_setShared]

theorem cancel_session (h : SessionAt kind c d u) (k : SendId) :
    Continues kind c (d.cancel k) u := by
  simp only [cancel]
  cases hs : d.sends.get? k with
  | none => exact h.continues
  | some s =>
    refine ((letGo_passing h hs).elsewhere ?_).continues.after
    exact elsewhere_gone rfl rfl rfl

theorem expire_session (h : SessionAt kind c d u) (k : SendId) :
    Continues kind c (d.expire k) u := by
  simp only [expire]
  cases hs : d.sends.get? k with
  | none => exact h.continues
  | some s =>
    refine ((letGo_passing h hs).elsewhere ?_).continues.after
    simp only
    split
    · exact elsewhere_gone rfl rfl rfl
    · exact elsewhere_gone rfl rfl rfl

theorem call_session (h : SessionAt kind c d u) (k : SendId) (mode : Send.Mode) (signer : Signer)
    (request : Request) : Continues kind c (d.call k mode signer request) u := by
  simp only [call]
  split
  · exact h.continues
  · next hnew =>
    have haway : d.standing kind k = .away := by
      have hnone : d.sends.get? k = none := by simpa [Keyed.has] using hnew
      simp only [standing, hnone]
    have hk : Passing kind c d k .away u :=
      ⟨h.sound, h.shared, (h.standing k).trans haway, fun j _ => h.standing j⟩
    have hprobe : SessionAt kind c (d.setStage k ⟨mode, signer, request, .probe⟩ .probe) u :=
      hk.setStage _ (by rfl)
    exact hprobe.continues

theorem SameFees.trans (h : SameFees d d') (g : SameFees d' e) : SameFees d e :=
  ⟨g.tip.trans h.tip, g.baseFee.trans h.baseFee, g.sends.trans h.sends⟩

theorem reportAll_fees (d : Dispatch) (rs : List Report) : SameFees d (d.reportAll rs) := by
  induction rs generalizing d with
  | nil => exact ⟨rfl, rfl, rfl⟩
  | cons r rs ih =>
    have hr : SameFees d (d.report r) := by
      rw [report_eq]
      exact ⟨rfl, rfl, rfl⟩
    exact hr.trans (ih (d.report r))

theorem withConfirmer_fees (d : Dispatch) (f : Confirmer → Confirmer × List Report) :
    SameFees d (d.withConfirmer f) := by
  cases hc : d.tracker.confirmer with
  | none =>
    rw [withConfirmer_none hc]
    exact ⟨rfl, rfl, rfl⟩
  | some c =>
    rw [withConfirmer_some hc]
    have hset : SameFees d { d with tracker := { d.tracker with confirmer := some (f c).1 } } :=
      ⟨rfl, rfl, rfl⟩
    exact hset.trans (reportAll_fees _ _)

theorem track_fees (d : Dispatch) (hash : Hash) : SameFees d (d.track hash).2 := by
  simp only [track]
  rw [meddle_eq]
  split
  · exact ⟨rfl, rfl, rfl⟩
  · next e hp =>
    obtain ⟨c, rfl, -⟩ := push_ok hp
    exact ⟨rfl, rfl, rfl⟩

/-- What is not about a send has nothing to do with fees. -/
theorem step_fees {l : Label} (hl : l.send? = none) : SameFees d (d.step l) := by
  cases l with
  | start =>
    have hstart : SameFees d { d with started := true } := ⟨rfl, rfl, rfl⟩
    exact hstart.trans (withConfirmer_fees _ fun c => (c.start, []))
  | verdict i v =>
    simp only [step, verdict]
    split
    · exact ⟨rfl, rfl, rfl⟩
    · next c _ =>
      split
      · exact ⟨rfl, rfl, rfl⟩
      · next hash _ =>
        have hlog : SameFees d (d.log (.checked hash c.depth)) := ⟨rfl, rfl, rfl⟩
        exact hlog.trans (withConfirmer_fees _ _)
  | track hash => exact track_fees d hash
  | report r => exact reportAll_fees d [r]
  | reset who n => exact ⟨rfl, rfl, rfl⟩
  | release who n => exact ⟨rfl, rfl, rfl⟩
  | take i => exact withConfirmer_fees _ _
  | workerAnswer i a => exact withConfirmer_fees _ _
  | tick i => exact withConfirmer_fees d fun c => (c.tick i, [])
  | leave i => exact withConfirmer_fees d fun c => (c.leave i, [])
  | stop => exact withConfirmer_fees d fun c => (c.stop, [])
  | drain => exact withConfirmer_fees _ _
  | _ => simp [Label.send?] at hl

/-- A step of the dispatch is a few acts at each cache, or none. -/
theorem SessionAt.step (h : SessionAt kind c d u) (l : Label) : Continues kind c (d.step l) u := by
  cases hl : l.send? with
  | none =>
    have hsame : SameFees d (d.step l) := step_fees hl
    exact (h.congr (hsame.shared kind) fun j => by rw [hsame.sends]).continues
  | some k =>
    cases l with
    | call j mode signer request => exact call_session h j mode signer request
    | answer j a now => exact answer_session h j a now
    | turn j now => exact turn_session h j now
    | poll j => exact poll_session h j
    | expire j => exact expire_session h j
    | cancel j => exact cancel_session h j
    | _ => simp [Label.send?] at hl

theorem SessionAt.run (h : SessionAt kind c d u) (labels : List Label) :
    Continues kind c (d.run labels) u := by
  induction labels generalizing d u with
  | nil => exact h.continues
  | cons l labels ih =>
    obtain ⟨acts, hacts⟩ := h.step l
    obtain ⟨more, hmore⟩ := ih hacts
    refine ⟨acts ++ more, ?_⟩
    rw [Session.run, List.foldl_append]
    exact hmore

/-- However sends, workers and reports interleave, what has happened at each fee cache is a session
of gets: what every session keeps, the caches of a dispatch keep. -/
theorem fee_session (terms : Terms) (tip baseFee : Fee.Cache) (capacity : Nat) (tracker : Tracker)
    (labels : List Label) (kind : Fee.Kind) :
    let d := fresh terms { cache := tip } { cache := baseFee } capacity tracker
    ∃ acts, SessionAt kind (d.shared kind).cache (d.run labels)
      ((Session.opened (d.shared kind).cache).run kind acts) := by
  intro d
  have hopened : SessionAt kind (d.shared kind).cache d (Session.opened (d.shared kind).cache) := by
    refine ⟨.opened _, ?_, fun j => rfl⟩
    cases kind <;> rfl
  exact hopened.run labels

end Outbox.Dispatch
