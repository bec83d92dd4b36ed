import Outbox.Proofs.Send.Quiet

namespace Outbox

open Ledger Nonce

namespace Dispatch

/-- What a label takes a send away from, or tells it a failure of, before it was told the fate. -/
def cutBy (d : Dispatch) : Label → List (SendId × Signed)
  | .answer k (.error _) _ => ((d.inFlight? k).map (k, ·)).toList
  | .expire k => ((d.inFlight? k).map (k, ·)).toList
  | .cancel k => ((d.inFlight? k).map (k, ·)).toList
  | _ => []

/-- What a label has made the send it is about put to the ledger, `d` being the dispatch after it. -/
def putBy (d : Dispatch) (l : Label) : List (SendId × Signed) :=
  (l.send?.bind fun k => (d.inFlight? k).map (k, ·)).toList

/-- A transaction stays on its way until its send is told that it was taken, or is cut off. -/
theorem inFlight?_step {d : Dispatch} {k : SendId} {tx : Signed} (h : d.inFlight? k = some tx)
    (l : Label) : (d.step l).inFlight? k = some tx ∨ (k, tx) ∈ d.toldTaken l ∨ (k, tx) ∈ d.cutBy l := by
  obtain ⟨s, held, hk, hst⟩ := inFlight?_eq_some.mp h
  by_cases hl : l.send? = some k
  · cases l with
    | call j mode signer request =>
      obtain rfl : j = k := Option.some.inj hl
      refine .inl ?_
      rw [step, call, if_pos (by simp [Keyed.has, hk])]
      exact h
    | answer j a now =>
      obtain rfl : j = k := Option.some.inj hl
      cases a with
      | ok x => exact .inr (.inl (by simp [toldTaken, h]))
      | error f => exact .inr (.inr (by simp [cutBy, h]))
    | turn j now =>
      obtain rfl : j = k := Option.some.inj hl
      rcases turn_cases d j now with heq | ⟨s', hk', hs', _⟩
      · refine .inl ?_
        rw [step, heq]
        exact h
      · obtain rfl : s = s' := Option.some.inj (hk.symm.trans hk')
        rw [hst] at hs'
        exact absurd hs' id
    | poll j =>
      obtain rfl : j = k := Option.some.inj hl
      rcases poll_cases d j with heq | ⟨s', hash, hk', hst', _⟩
      · refine .inl ?_
        rw [step, heq]
        exact h
      · obtain rfl : s = s' := Option.some.inj (hk.symm.trans hk')
        rw [hst] at hst'
        simp at hst'
    | expire j =>
      obtain rfl : j = k := Option.some.inj hl
      exact .inr (.inr (by simp [cutBy, h]))
    | cancel j =>
      obtain rfl : j = k := Option.some.inj hl
      exact .inr (.inr (by simp [cutBy, h]))
    | _ => simp [Label.send?] at hl
  · refine .inl (inFlight?_eq_some.mpr ⟨s, held, ?_, hst⟩)
    rw [(step_moves d l).sends k hl]
    exact hk

theorem cutBy_without {d : Dispatch} {l : Label} {e : SendId × Signed} (h : e ∈ d.cutBy l) :
    ∃ s held, d.sends.get? e.1 = some s ∧ s.stage = .submit e.2 held ∧
      Without (d.leftBy s) e.1 (d.step l) := by
  have hmem : ∀ {k : SendId}, e ∈ ((d.inFlight? k).map (k, ·)).toList →
      e.1 = k ∧ ∃ s held, d.sends.get? k = some s ∧ s.stage = .submit e.2 held := by
    intro k hm
    obtain ⟨tx, hf, rfl⟩ := Option.map_eq_some_iff.mp (Option.mem_toList.mp hm)
    exact ⟨rfl, inFlight?_eq_some.mp hf⟩
  simp only [cutBy] at h
  split at h
  · next k f now =>
    obtain ⟨rfl, s, held, hk, hst⟩ := hmem h
    refine ⟨s, held, hk, hst, ?_⟩
    have heq : d.step (.answer e.1 (.error f) now) = d.submitAnswered e.1 e.2 held (.error f) := by
      simp only [step, answer, hk, hst]
    rw [heq]
    exact submitAnswered_error hst e.1 f
  · next k =>
    obtain ⟨rfl, s, held, hk, hst⟩ := hmem h
    rcases expire_cases d e.1 with ⟨hn, _⟩ | ⟨s', hk', hw⟩
    · rw [hk] at hn
      simp at hn
    · obtain rfl : s = s' := Option.some.inj (hk.symm.trans hk')
      exact ⟨s, held, hk, hst, hw⟩
  · next k =>
    obtain ⟨rfl, s, held, hk, hst⟩ := hmem h
    rcases cancel_cases d e.1 with ⟨hn, _⟩ | ⟨s', hk', hw⟩
    · rw [hk] at hn
      simp at hn
    · obtain rfl : s = s' := Option.some.inj (hk.symm.trans hk')
      exact ⟨s, held, hk, hst, hw⟩
  · simp at h

end Dispatch

/-- A dispatch before a ledger that may take a transaction at any time once it was put to it. -/
structure Remote where
  dispatch : Dispatch
  put : List (SendId × Signed) := []
  taken : List (SendId × Signed) := []
  cut : List (SendId × Signed) := []

namespace Remote

open Dispatch

inductive Act where
  | step (l : Label)
  /-- The ledger takes the transaction of send `k`; its answer may come later or never. -/
  | take (k : SendId) (tx : Signed)

def step (r : Remote) : Act → Remote
  | .step l =>
    { dispatch := r.dispatch.step l
      put := (r.dispatch.step l).putBy l ++ r.put
      taken := r.dispatch.toldTaken l ++ r.taken
      cut := r.dispatch.cutBy l ++ r.cut }
  | .take k tx => if (k, tx) ∈ r.put then { r with taken := (k, tx) :: r.taken } else r

def run (r : Remote) (acts : List Act) : Remote := acts.foldl step r

/-- Every transaction put to the ledger is on its way, told taken, or cut off; a number of `who` on
its way or told taken is out. -/
structure Safe (who : Address) (start? : Option Nat) (spent : List Nat) (r : Remote) : Prop where
  quiet : Quiet who start? spent [] r.dispatch
  fate : ∀ e ∈ r.put, e.2.sender = who →
    e ∈ r.cut ∨ e.2.tx.nonce ∈ spent ∨ r.dispatch.inFlight? e.1 = some e.2
  flying : ∀ k tx, r.dispatch.inFlight? k = some tx → (k, tx) ∈ r.put
  taken : ∀ e ∈ r.taken, e ∈ r.put

variable {who : Address} {start? : Option Nat} {spent : List Nat} {r : Remote}

theorem mem_putBy {d : Dispatch} {l : Label} {e : SendId × Signed} :
    e ∈ d.putBy l ↔ l.send? = some e.1 ∧ d.inFlight? e.1 = some e.2 := by
  obtain ⟨k, tx⟩ := e
  simp only [putBy, Option.mem_toList, Option.bind_eq_some_iff, Option.map_eq_some_iff, Prod.mk.injEq]
  constructor
  · rintro ⟨j, hj, tx', hf, rfl, rfl⟩
    exact ⟨hj, hf⟩
  · rintro ⟨hj, hf⟩
    exact ⟨k, hj, tx, hf, rfl, rfl⟩

theorem toldTaken_inFlight {d : Dispatch} {l : Label} {e : SendId × Signed}
    (h : e ∈ d.toldTaken l) : d.inFlight? e.1 = some e.2 := by
  simp only [toldTaken] at h
  split at h
  · obtain ⟨tx, hf, rfl⟩ := Option.map_eq_some_iff.mp (Option.mem_toList.mp h)
    exact hf
  · simp at h

theorem Safe.step (h : Safe who start? spent r) (l : Label) (hl : l.Direct who)
    (he : ¬(r.dispatch.step l).allocator.Evicted who) :
    ∃ start?' spent', Safe who start?' spent' (r.step (.step l)) := by
  obtain ⟨start?', hq⟩ := h.quiet.step l hl he
  refine ⟨start?', _, hq, fun e hput hw => ?_, fun k tx hf => ?_, fun e ht => ?_⟩
  · rcases List.mem_append.mp hput with hnew | hold
    · exact .inr (.inr (mem_putBy.mp hnew).2)
    · rcases h.fate e hold hw with hc | hs | hf
      · exact .inl (List.mem_append_right _ hc)
      · exact .inr (.inl (List.mem_append_right _ hs))
      · rcases inFlight?_step hf l with hf' | ht | hc
        · exact .inr (.inr hf')
        · refine .inr (.inl (List.mem_append_left _ (List.mem_map.mpr ⟨e.2, ?_, rfl⟩)))
          rw [List.mem_filter]
          exact ⟨List.mem_map_of_mem ht, decide_eq_true hw⟩
        · exact .inl (List.mem_append_left _ hc)
  · by_cases hk : l.send? = some k
    · exact List.mem_append_left _ (mem_putBy.mpr ⟨hk, hf⟩)
    · refine List.mem_append_right _ (h.flying k tx ?_)
      obtain ⟨s, held, hs, hst⟩ := inFlight?_eq_some.mp hf
      have hsame := (step_moves r.dispatch l).sends k hk
      exact inFlight?_eq_some.mpr ⟨s, held, hsame.symm.trans hs, hst⟩
  · refine List.mem_append_right _ ?_
    rcases List.mem_append.mp ht with hnew | hold
    · exact h.flying e.1 e.2 (toldTaken_inFlight hnew)
    · exact h.taken e hold

theorem Safe.take (h : Safe who start? spent r) (k : SendId) (tx : Signed) :
    Safe who start? spent (r.step (.take k tx)) := by
  simp only [Remote.step]
  split
  · next hput =>
    refine ⟨h.quiet, h.fate, h.flying, fun e ht => ?_⟩
    rcases List.mem_cons.mp ht with rfl | ht
    · exact hput
    · exact h.taken e ht
  · exact h

theorem evictions_step (r : Remote) (a : Act) :
    r.dispatch.allocator.evictions <:+ (r.step a).dispatch.allocator.evictions := by
  cases a with
  | step l => exact (step_moves r.dispatch l).evictions
  | take k tx =>
    simp only [step]
    split <;> exact List.suffix_rfl

theorem evictions_run (r : Remote) (acts : List Act) :
    r.dispatch.allocator.evictions <:+ (r.run acts).dispatch.allocator.evictions := by
  induction acts generalizing r with
  | nil => exact List.suffix_rfl
  | cons a acts ih => exact (evictions_step r a).trans (ih (r.step a))

theorem Safe.run (h : Safe who start? spent r) (acts : List Act)
    (hl : ∀ l, .step l ∈ acts → l.Direct who)
    (he : ¬(r.run acts).dispatch.allocator.Evicted who) :
    ∃ start?' spent', Safe who start?' spent' (r.run acts) := by
  induction acts generalizing r start? spent with
  | nil => exact ⟨start?, spent, h⟩
  | cons a acts ih =>
    have hrest : ∀ l, .step l ∈ acts → l.Direct who := fun l hm => hl l (List.mem_cons_of_mem _ hm)
    cases a with
    | step l =>
      have hev : ¬(r.dispatch.step l).allocator.Evicted who := fun hev =>
        he (hev.mono (evictions_run (r.step (.step l)) acts))
      obtain ⟨start?', spent', hs⟩ := h.step l (hl l List.mem_cons_self) hev
      exact ih hs hrest he
    | take k tx => exact ih (h.take k tx) hrest he

/-- A transaction that is on its way or was told taken keeps its number. -/
theorem Safe.taken_ne (h : Safe who start? spent r) {e : SendId × Signed} (ht : e ∈ r.taken)
    (hw : e.2.sender = who) (hc : e ∉ r.cut) (n : Nat) :
    (r.dispatch.allocator.install who n).1.nonce ≠ e.2.tx.nonce := by
  have hout : e.2.tx.nonce ∈ spent ++ (carried r.dispatch.sends who).map (·.nonce) := by
    rcases h.fate e (h.taken e ht) hw with hcut | hs | hf
    · exact absurd hcut hc
    · exact List.mem_append_left _ hs
    · obtain ⟨s, held, hk, hst⟩ := inFlight?_eq_some.mp hf
      obtain ⟨hsender, hnum, hid⟩ := h.quiet.holdings.proper _ s hk e.2 held hst
      refine List.mem_append_right _ (List.mem_map.mpr ⟨held, ?_, hnum.symm⟩)
      refine List.mem_flatMap.mpr ⟨(e.1, s), Keyed.mem_of_get? hk, ?_⟩
      simp [Send.carries, hst, Reservation.mine, hid, ← hsender, hw]
  exact h.quiet.holdings.owes.install_ne hout n

theorem Safe.cut_free (h : Safe who start? spent r) {l : Label} {e : SendId × Signed}
    (hc : e ∈ r.dispatch.cutBy l) (hw : e.2.sender = who) :
    (r.dispatch.step l).allocator.Free who e.2.tx.nonce := by
  obtain ⟨s, held, hk, hst, hwithout⟩ := cutBy_without hc
  obtain ⟨hsender, hnum, hid⟩ := h.quiet.holdings.proper _ s hk e.2 held hst
  have hcarry : s.carries who = [held] := by
    simp [Send.carries, hst, Reservation.mine, hid, ← hsender, hw]
  have hbefore := (h.quiet.holdings.unload hk).owes
  have hafter := (h.quiet.gone hk hwithout).holdings.owes
  rw [hwithout.sends, sends_leftBy] at hafter
  rw [hcarry] at hbefore
  rw [hnum]
  exact hbefore.free hafter

/-- No send yet, and nothing put to the ledger. -/
def fresh (terms : Terms) (tip baseFee : Fee.Shared SendId) (capacity : Nat) (tracker : Tracker) :
    Remote :=
  { dispatch := .fresh terms tip baseFee capacity tracker }

theorem safe_fresh (terms : Terms) (tip baseFee : Fee.Shared SendId) (capacity : Nat)
    {tracker : Tracker} (ht : tracker.reset = none) (who : Address) :
    Safe who none [] (fresh terms tip baseFee capacity tracker) := by
  refine ⟨⟨.empty who capacity, ?_, rfl, ht⟩, ?_, ?_, ?_⟩
  · simp [fresh, Dispatch.fresh, Keyed.get?]
  · simp [fresh]
  · simp [inFlight?, fresh, Dispatch.fresh, Keyed.get?]
  · simp [fresh]

/-- A number that the ledger took is not issued again, unless its send was cut off or told a failure
before it was told so. Such a send gives its number back, whether the ledger took it or not. The
counter is endless: the last number of 64 bits could not be given back (`State.release_last`). -/
theorem taken_not_reissued (terms : Terms) (tip baseFee : Fee.Shared SendId) (capacity : Nat)
    (tracker : Tracker) (ht : tracker.reset = none) (who : Address) (acts : List Act)
    (hl : ∀ l, .step l ∈ acts → l.Direct who) :
    let r := (fresh terms tip baseFee capacity tracker).run acts
    ¬r.dispatch.allocator.Evicted who →
      (∀ e ∈ r.taken, e.2.sender = who → e ∉ r.cut →
        ∀ n, (r.dispatch.allocator.install who n).1.nonce ≠ e.2.tx.nonce) ∧
      ∀ l, ∀ e ∈ r.dispatch.cutBy l, e.2.sender = who →
        (r.dispatch.step l).allocator.Free who e.2.tx.nonce := by
  intro r he
  obtain ⟨start?, spent, hs⟩ := (safe_fresh terms tip baseFee capacity ht who).run acts hl he
  exact ⟨fun e htaken hw hc n => hs.taken_ne htaken hw hc n, fun l e hc hw => hs.cut_free hc hw⟩

section Runs

open Sample

theorem step_take {k : SendId} {tx : Signed} (h : (k, tx) ∈ r.put) :
    r.step (.take k tx) = { r with taken := (k, tx) :: r.taken } := if_pos h

theorem run_append (r : Remote) (xs ys : List Act) : r.run (xs ++ ys) = (r.run xs).run ys :=
  List.foldl_append ..

theorem run_cons (r : Remote) (a : Act) (acts : List Act) :
    r.run (a :: acts) = (r.step a).run acts := rfl

theorem run_nil (r : Remote) : r.run [] = r := rfl

def start : Remote := fresh terms fees fees 4 {}

/-- Two sends, one told that its transaction was taken, the other not yet told. -/
def told : List Act :=
  (Sample.first 1 .async 0 ++ Label.answer 1 (.ok (.accepted (signed 0).hash)) 0 ::
    Sample.begin 2 .async).map .step

theorem taken_not_reissued_told :
    let r := start.run (told ++ [.take 2 (signed 1)])
    (∀ n, (r.dispatch.allocator.install signer.address n).1.nonce ≠ 0) ∧
      (∀ n, (r.dispatch.allocator.install signer.address n).1.nonce ≠ 1) ∧
      (r.dispatch.step (.expire 2)).allocator.Free signer.address 1 := by
  have hl : ∀ l, .step l ∈ told ++ [.take 2 (signed 1)] → l.Direct signer.address := by
    intro l hm
    simp only [told, Sample.first, Sample.begin, List.map_append, List.map_cons, List.map_nil,
      List.mem_append, List.mem_cons, List.not_mem_nil, or_false, Act.step.injEq, reduceCtorEq] at hm
    rcases hm with ((rfl | rfl) | rfl) | rfl | rfl | rfl <;> trivial
  have hput : (start.run told).put = [(2, signed 1), (1, signed 0)] := rfl
  have hr : start.run (told ++ [.take 2 (signed 1)]) =
      { start.run told with taken := [(2, signed 1), (1, signed 0)] } := by
    rw [run_append, run_cons, run_nil, step_take (by rw [hput]; exact List.mem_cons_self)]
    rfl
  have he : ¬(start.run (told ++ [.take 2 (signed 1)])).dispatch.allocator.Evicted
      signer.address := by
    rw [hr]
    rintro ⟨e, hm, _⟩
    have hm' : e ∈ ([] : List Eviction) := hm
    simp at hm'
  obtain ⟨hne, hfree⟩ := taken_not_reissued terms fees fees 4 {} rfl signer.address _ hl he
  have htaken : ∀ k n, (k, signed n) ∈ [(2, signed 1), (1, signed 0)] →
      (k, signed n) ∈ (start.run (told ++ [.take 2 (signed 1)])).taken := by
    intro k n hm
    rw [hr]
    exact hm
  have hcut : ∀ e, e ∉ (start.run (told ++ [.take 2 (signed 1)])).cut := by
    intro e hm
    rw [hr] at hm
    have hm' : e ∈ ([] : List (SendId × Signed)) := hm
    simp at hm'
  have hexpire : (2, signed 1) ∈
      (start.run (told ++ [.take 2 (signed 1)])).dispatch.cutBy (.expire 2) := by
    rw [hr]
    exact List.mem_cons_self
  exact ⟨hne (1, signed 0) (htaken 1 0 (by simp)) rfl (hcut _),
    hne (2, signed 1) (htaken 2 1 (by simp)) rfl (hcut _), hfree (.expire 2) (2, signed 1) hexpire rfl⟩

/-- The ledger takes a transaction whose send then runs out of time; another send follows. -/
def late : List Act :=
  (Sample.first 1 .async 0).map .step ++
    (.take 1 (signed 0) :: (.expire 1 :: Sample.begin 2 .async).map .step)

/-- Without the condition the number comes up again: the next send of the same identity signs with
the number of a transaction that the ledger took. -/
theorem late_number_reissued :
    let r := start.run late
    (∀ l, .step l ∈ late → l.Direct signer.address) ∧
      ¬r.dispatch.allocator.Evicted signer.address ∧
      (1, signed 0) ∈ r.taken ∧ (signed 0).sender = signer.address ∧
      r.dispatch.sends.get? 2 =
        some ⟨.async, signer, request, .submit (signed 0) ⟨signer.address, 0, 1⟩⟩ := by
  have hput : (start.run ((Sample.first 1 .async 0).map .step)).put = [(1, signed 0)] := rfl
  have hr : start.run late =
      ({ start.run ((Sample.first 1 .async 0).map .step) with
          taken := [(1, signed 0)] } : Remote).run
        ((.expire 1 :: Sample.begin 2 .async).map .step) := by
    simp only [late]
    rw [run_append, run_cons, step_take (by rw [hput]; exact List.mem_cons_self)]
    rfl
  refine ⟨fun l hm => ?_, ?_, ?_, rfl, ?_⟩
  · simp only [late, Sample.first, Sample.begin, List.map_append, List.map_cons, List.map_nil,
      List.mem_append, List.mem_cons, List.not_mem_nil, or_false, Act.step.injEq, reduceCtorEq,
      false_or] at hm
    rcases hm with ((rfl | rfl) | rfl) | rfl | rfl | rfl <;> trivial
  · rw [hr]
    rintro ⟨e, hm, _⟩
    have hm' : e ∈ ([] : List Eviction) := hm
    simp at hm'
  · rw [hr]
    exact List.mem_cons_self
  · rw [hr]
    rfl

end Runs

end Remote

end Outbox
