import Outbox.Proofs.Send.Ruling

namespace Outbox

open Nonce

namespace Dispatch

variable {d d' : Dispatch} {k : SendId} {hash : Hash} {q : Reservation} {heard : List Moment}

/-- Nobody hands over `hash` between the two. -/
def Unoffered (hash : Hash) (old new : List Event) : Prop :=
  ∀ later n, new = later ++ old → .enqueued hash n ∉ later

theorem Unoffered.within {old mid next new : List Event} (h : Unoffered hash old new)
    (hom : old <:+ mid) (hnn : next <:+ new) : Unoffered hash mid next := by
  obtain ⟨first, rfl⟩ := hom
  obtain ⟨last, rfl⟩ := hnn
  rintro later n rfl hm
  refine h (last ++ later ++ first) n (by simp) ?_
  exact List.mem_append_left _ (List.mem_append_right _ hm)

theorem Unoffered.trans {old mid new : List Event} (h : Unoffered hash old mid)
    (g : Unoffered hash mid new) (hom : old <:+ mid) (hmn : mid <:+ new) :
    Unoffered hash old new := by
  obtain ⟨first, rfl⟩ := hom
  obtain ⟨last, rfl⟩ := hmn
  intro later n hl hm
  rw [← List.append_assoc] at hl
  rw [← List.append_cancel_right hl] at hm
  rcases List.mem_append.mp hm with hm | hm
  · exact g last n rfl hm
  · exact h first n rfl hm

theorem Unoffered.of_eq {old new : List Event} (h : new = old) : Unoffered hash old new := by
  intro later n he hm
  obtain rfl : later = [] := List.self_eq_append_left.mp (h.symm.trans he)
  simp at hm

/-- Looks, reports, the end of a wait and a new next number: nothing is handed over by these. -/
def Label.isPassive : Label → Bool
  | .poll _ => true
  | .expire _ => true
  | .report _ => true
  | .reset _ _ => true
  | _ => false

theorem unoffered_step (hash : Hash) (d : Dispatch) {l : Label} (hl : l.isPassive = true) :
    Unoffered hash d.events (d.step l).events := by
  cases l with
  | poll k =>
    rcases poll_cases d k with h | ⟨s, g, -, -, h⟩
    · exact .of_eq (congrArg events h)
    · exact .of_eq h.events
  | expire k =>
    rcases expire_cases d k with ⟨-, h⟩ | ⟨s, -, h⟩
    · exact .of_eq (congrArg events h)
    · apply Unoffered.of_eq
      refine h.events.trans ?_
      unfold leftBy
      split <;> rfl
  | report r =>
    intro later n he hm
    have hnew : [.reported r] ++ d.events = later ++ d.events := he
    rw [← List.append_cancel_right hnew] at hm
    simp at hm
  | reset who n => exact .of_eq rfl
  | _ => simp [Label.isPassive] at hl

theorem unoffered_run (hash : Hash) (d : Dispatch) {labels : List Label}
    (hl : ∀ l ∈ labels, l.isPassive = true) : Unoffered hash d.events (d.run labels).events := by
  induction labels generalizing d with
  | nil => exact .of_eq rfl
  | cons l labels ih =>
    have hfirst := unoffered_step hash d (hl l List.mem_cons_self)
    have hrest := ih (d.step l) fun x hx => hl x (List.mem_cons_of_mem _ hx)
    exact hfirst.trans hrest (step_moves d l).events (run_moves _ _).2

/-- A send does nothing to a hash that it does not hand over, as long as nobody stops waiting for
it. -/
theorem Effect.quiet {o : SendId} (h : Effect (some o) d d')
    (hstay : ∀ j, d.Waits j hash → d'.Waits j hash) (hn : Unoffered hash d.events d'.events) :
    d'.tracking.memory hash = d.tracking.memory hash ∧ ∀ j, d'.Waits j hash → d.Waits j hash := by
  cases h with
  | hears e asides rs _ ht hw _ hr =>
    obtain rfl : rs = [] := hr.resolve_left (by simp)
    refine ⟨?_, fun j hj => (hw j hash).mp hj⟩
    show e.tracking.memory hash = _
    rw [ht]
  | offers i g r n _ _ _ ht hw he =>
    have hg : hash ≠ g := by
      rintro rfl
      exact hn [.enqueued hash n] n he List.mem_cons_self
    refine ⟨by rw [ht, Tracking.memory_offered, if_neg hg], fun j hj => ?_⟩
    rcases (hw j hash).mp hj with hj | ⟨-, hj⟩
    · exact hj
    · exact absurd hj hg
  | withdraws i g n _ _ _ ht hw he =>
    have hg : hash ≠ g := by
      rintro rfl
      exact hn [.enqueued hash n] n he List.mem_cons_self
    exact ⟨ht.memory_of_ne hg, fun j hj => (hw j hash).mp hj⟩
  | leaves i g _ hi ht hw _ =>
    have hg : hash ≠ g := by
      rintro rfl
      exact ((hw i hash).mp (hstay i hi)).2 rfl
    exact ⟨by rw [ht, Tracking.memory_removeWaiter, if_neg hg], fun j hj => ((hw j hash).mp hj).1⟩

/-- While those who wait for a hash do nothing, and nobody hands it over, they go on waiting, and
what is remembered of the hash follows the reports. -/
theorem awaited_step {l : Label} (hl : ∀ j, d.Waits j hash → l.send? ≠ some j)
    (hn : Unoffered hash d.events (d.step l).events) :
    (∀ j, (d.step l).Waits j hash ↔ d.Waits j hash) ∧
      (d.step l).tracking.memory hash = (d.tracking.memory hash).after hash (d.momentsOf l) := by
  have hsame : ∀ j, l.send? ≠ some j → ((d.step l).Waits j hash ↔ d.Waits j hash) := by
    intro j hj
    simp only [Waits]
    rw [(step_moves d l).sends j hj]
  cases hs : l.send? with
  | none => exact ⟨fun j => hsame j (by simp [hs]), (Hears.step d hs).memory hash⟩
  | some o =>
    have heff : Effect (some o) d (d.step l) := hs ▸ step_effect d l
    have hstay : ∀ j, d.Waits j hash → (d.step l).Waits j hash := fun j hj =>
      (hsame j (hl j hj)).mpr hj
    obtain ⟨hm, hw⟩ := heff.quiet hstay hn
    refine ⟨fun j => ⟨hw j, hstay j⟩, ?_⟩
    rw [hm, momentsOf_send hs]
    rfl

theorem awaited_run {labels : List Label}
    (hl : ∀ l ∈ labels, ∀ j, d.Waits j hash → l.send? ≠ some j)
    (hn : Unoffered hash d.events (d.run labels).events) :
    (∀ j, (d.run labels).Waits j hash ↔ d.Waits j hash) ∧
      (d.run labels).tracking.memory hash =
        (d.tracking.memory hash).after hash (d.momentsOver labels) := by
  induction labels generalizing d with
  | nil => exact ⟨fun _ => Iff.rfl, rfl⟩
  | cons l labels ih =>
    obtain ⟨hfirst, hrest⟩ := List.forall_mem_cons.mp hl
    have hold := (step_moves d l).events
    have hnew := (run_moves (d.step l) labels).2
    obtain ⟨hw, hm⟩ := awaited_step hfirst (hn.within List.suffix_rfl hnew)
    obtain ⟨hwEnd, hmEnd⟩ := ih (fun m hm j hj => hrest m hm j ((hw j).mp hj))
      (hn.within hold List.suffix_rfl)
    refine ⟨fun j => (hwEnd j).trans (hw j), hmEnd.trans ?_⟩
    rw [hm, momentsOver, Memory.after_append]

/-- Send `k` alone waits for `hash`, and what is remembered of it follows what has been heard. -/
structure Attends (d : Dispatch) (k : SendId) (hash : Hash) (q : Reservation)
    (heard : List Moment) : Prop where
  waits : d.Waits k hash
  only : ∀ j, d.Waits j hash → j = k
  standing : (d.tracking.memory hash).Standing hash q heard

namespace Attends

theorem run (h : Attends d k hash q heard) {labels : List Label}
    (hl : ∀ l ∈ labels, l.send? ≠ some k) (hn : Unoffered hash d.events (d.run labels).events) :
    Attends (d.run labels) k hash q (d.momentsOver labels ++ heard) := by
  have hothers : ∀ l ∈ labels, ∀ j, d.Waits j hash → l.send? ≠ some j := by
    intro l hm j hj
    rw [h.only j hj]
    exact hl l hm
  obtain ⟨hw, hm⟩ := awaited_run hothers hn
  refine ⟨(hw k).mpr h.waits, fun j hj => h.only j ((hw j).mp hj), ?_⟩
  rw [hm]
  exact h.standing.after _

end Attends

/-- A look takes the answer that has come, or leaves everything as it is. -/
theorem poll_answer? (hw : d.Waits k hash) :
    (∀ R, (d.tracking.memory hash).answer? hash = some R →
      d.poll k = { d with
        tracking := d.tracking.removeWaiter hash
        answered := d.answered + 1 }.finish k R) ∧
    ((d.tracking.memory hash).answer? hash = none → d.poll k = d) := by
  obtain ⟨s, hs, hst⟩ := hw
  rw [poll_eq hs hst]
  cases hr : d.tracking.rejected.get? hash with
  | some f =>
    have hanswer : (d.tracking.memory hash).answer? hash = some (.error (.failed f)) := by
      simp only [Memory.answer?, Tracking.memory, hr]
    rw [hanswer]
    refine ⟨fun R hR => ?_, fun hR => by simp at hR⟩
    obtain rfl := Option.some.inj hR
    rfl
  | none =>
    by_cases hb : d.tracking.pending.isSettled hash = true
    · have hanswer : (d.tracking.memory hash).answer? hash = some (.ok (.hash hash)) := by
        simp only [Memory.answer?, Tracking.memory, hr]
        exact if_pos hb
      rw [hanswer]
      refine ⟨fun R hR => ?_, fun hR => by simp at hR⟩
      obtain rfl := Option.some.inj hR
      exact if_pos hb
    · have hanswer : (d.tracking.memory hash).answer? hash = none := by
        simp only [Memory.answer?, Tracking.memory, hr]
        exact if_neg hb
      rw [hanswer]
      exact ⟨fun R hR => by simp at hR, fun _ => if_neg hb⟩

/-- Send `k` is over, and this is what it was told. -/
structure Tells (d : Dispatch) (k : SendId) (R : Except Fault Send.Outcome) (d' : Dispatch) :
    Prop where
  results : d'.results = (k, R) :: d.results
  done : d'.sends.get? k = none

theorem tells_finish (d : Dispatch) (k : SendId) (R : Except Fault Send.Outcome) :
    Tells d k R (d.finish k R) :=
  ⟨rfl, Keyed.get?_erase_self _ _⟩

theorem tells_of_answer? {R : Except Fault Send.Outcome} (hk : d.Waits k hash)
    (h : (d.tracking.memory hash).answer? hash = some R) : Tells d k R (d.step (.poll k)) := by
  show Tells d k R (d.poll k)
  rw [(poll_answer? hk).1 R h]
  have hfin := tells_finish
    { d with tracking := d.tracking.removeWaiter hash, answered := d.answered + 1 } k R
  exact ⟨hfin.results, hfin.done⟩

namespace Attends

theorem tells (h : Attends d k hash q heard) {R : Except Fault Send.Outcome}
    (hR : Ruling hash q heard R) : Tells d k R (d.poll k) :=
  tells_of_answer? h.waits ((h.standing.answer?_iff R).mpr hR)

theorem unmoved (h : Attends d k hash q heard) (hn : ∀ R, ¬Ruling hash q heard R) :
    d.poll k = d := by
  refine (poll_answer? h.waits).2 ?_
  cases ha : (d.tracking.memory hash).answer? hash with
  | none => rfl
  | some R => exact absurd ((h.standing.answer?_iff R).mp ha) (hn R)

end Attends

theorem run_append (d : Dispatch) (xs ys : List Label) : d.run (xs ++ ys) = (d.run xs).run ys :=
  List.foldl_append

/-- After its last look in time send `k` gives up: it is told that it does not know the outcome,
numbers and records stay as they are. -/
structure GivesUp (d : Dispatch) (k : SendId) (hash : Hash) (patience : Span) : Prop where
  told : Tells d k (.error (.failed (.outcomeUnknown hash patience))) (d.step (.expire k))
  allocator : (d.step (.expire k)).allocator = d.allocator
  enqueued : (d.step (.expire k)).tracking.enqueued = d.tracking.enqueued

theorem Waits.givesUp (hw : d.Waits k hash) : d.GivesUp k hash d.terms.patience := by
  obtain ⟨⟨mode, signer, request, stage⟩, hs, hst⟩ := hw
  obtain rfl : stage = .settle hash := hst
  have hexpire : d.step (.expire k) =
      { d with
        tip := d.tip.leave k
        baseFee := d.baseFee.leave k
        tracking := d.tracking.removeWaiter hash
        timedOut := d.timedOut + 1 }.fail k (.outcomeUnknown hash d.terms.patience) := by
    simp only [step, expire, hs, letGo]
  refine ⟨⟨?_, ?_⟩, ?_, ?_⟩
  · rw [hexpire]
    rfl
  · rw [hexpire]
    exact Keyed.get?_erase_self _ _
  · rw [hexpire]
    rfl
  · rw [hexpire]
    rfl

/-- A send that hands over a transaction, of whose hash nothing is known, attends to it. -/
theorem attends_handOver (terms : Terms) (tip baseFee : Fee.Shared SendId) (capacity : Nat)
    (tracker : Tracker) (labels : List Label) {l : Label} {n : Nat}
    (he : (((fresh terms tip baseFee capacity tracker).run labels).step l).events =
      .enqueued hash n :: ((fresh terms tip baseFee capacity tracker).run labels).events)
    (hk : (((fresh terms tip baseFee capacity tracker).run labels).step l).Waits k hash)
    (honly : ∀ j, ¬((fresh terms tip baseFee capacity tracker).run labels).Waits j hash)
    (hnew : ∀ r ∈ reports ((fresh terms tip baseFee capacity tracker).run labels).events,
      r.hash ≠ hash) :
    ∃ q, (((fresh terms tip baseFee capacity tracker).run labels).step l).tracking.enqueued.get?
        hash = some q ∧
      Attends (((fresh terms tip baseFee capacity tracker).run labels).step l) k hash q [] := by
  have htidy := tidy_run terms tip baseFee capacity tracker labels hash
  have heff := step_effect ((fresh terms tip baseFee capacity tracker).run labels) l
  generalize (fresh terms tip baseFee capacity tracker).run labels = d at *
  generalize d.step l = d' at *
  obtain ⟨i, r, ht, hw⟩ : ∃ i r, d'.tracking =
      (d.tracking.addWaiter hash).recordEnqueued hash r ∧
        ∀ j g, d'.Waits j g ↔ d.Waits j g ∨ j = i ∧ g = hash := by
    cases heff with
    | hears e asides rs ha _ _ hev => exact absurd he (enqueued_ne_reports ha hev)
    | offers i g r m _ _ _ ht hw hev =>
      obtain ⟨rfl, -⟩ := Event.enqueued.inj (List.cons.inj (hev.symm.trans he)).1
      exact ⟨i, r, ht, hw⟩
    | withdraws i g m _ _ _ _ hw _ => exact absurd ((hw k hash).mp hk) (honly k)
    | leaves i g _ _ _ hw _ => exact absurd ((hw k hash).mp hk).1 (honly k)
  have hwaits : ∀ j, d'.Waits j hash → j = k := by
    intro j hj
    have hji := ((hw j hash).mp hj).resolve_left (honly j)
    have hki := ((hw k hash).mp hk).resolve_left (honly k)
    rw [hji.1, hki.1]
  -- nobody waited and nothing was reported, so that nothing but the new record is remembered
  have hwaited : (d.tracking.memory hash).waited = false :=
    Bool.eq_false_iff.mpr fun hwd => by
      obtain ⟨j, hj⟩ := htidy.waiter hwd
      exact honly j hj
  have hrej : (d.tracking.memory hash).rejection = none := htidy.rejection hwaited
  have hopen : (d.tracking.memory hash).unconfirmed = false :=
    Bool.eq_false_iff.mpr fun hu => hnew _ (htidy.unconfirmed.mp hu).sent_mem rfl
  have hsent : (d.tracking.memory hash).sent = false :=
    Bool.eq_false_iff.mpr fun hs => by
      rw [htidy.sent hs hwaited] at hopen
      simp at hopen
  have hmemory : d'.tracking.memory hash = ⟨some r, true, none, false, false⟩ := by
    rw [ht, Tracking.memory_offered, if_pos rfl]
    simp only [hrej, hsent, hopen]
  refine ⟨r, ?_, hk, hwaits, ?_⟩
  · rw [ht]
    exact Keyed.get?_put_self _ _ _
  · rw [hmemory]
    exact .unanswered fun x hx => by simp at hx

end Dispatch
end Outbox
