import Outbox.Proofs.Send.Effect

namespace Outbox

open Ledger Nonce

/-- How far the reports of a transaction have come since it was handed over. One that is reported
sent anew is on its way anew. -/
inductive Course where
  | waiting
  /-- Reported failed before it was ever reported sent. -/
  | refused (f : Failure)
  | sent
  /-- Reported sent, and then its end. -/
  | ended

namespace Course

def next : Course → Report → Course
  | .waiting, .sent _ => .sent
  | .waiting, .failed _ f => .refused f
  | .waiting, .confirmed _ => .waiting
  | .refused f, _ => .refused f
  | _, .sent _ => .sent
  | _, _ => .ended

def after (hash : Hash) (e : Event) (c : Course) : Course :=
  match e with
  | .reported r => if r.hash = hash then c.next r else c
  | _ => c

/-- The course of `hash` after new events, newest first. -/
def following (hash : Hash) (c : Course) (events : List Event) : Course :=
  events.foldr (after hash) c

theorem following_append (hash : Hash) (c : Course) (new old : List Event) :
    c.following hash (new ++ old) = (c.following hash old).following hash new := by
  simp only [following]
  rw [List.foldr_append]

theorem following_aside (hash : Hash) (c : Course) {events : List Event}
    (h : ∀ e ∈ events, e.Aside) : c.following hash events = c := by
  induction events with
  | nil => rfl
  | cons e events ih =>
    have hrest := ih fun x hx => h x (List.mem_cons_of_mem _ hx)
    have he := h e List.mem_cons_self
    cases e with
    | tracked j => exact hrest
    | checked j n => exact hrest
    | enqueued j n => exact absurd he id
    | reported r => exact absurd he id

end Course

namespace Dispatch

/-- What a poll tells send `k` agrees with the course of `hash`. -/
def Told (d : Dispatch) (k : SendId) (hash : Hash) : Course → Prop
  | .refused f => ∃ release,
      (d.poll k).results = (k, .error (.failed (f.withRelease release))) :: d.results
  | .ended => (d.poll k).results = (k, .ok (.hash hash)) :: d.results
  | _ => ∀ e, (d.poll k).results ≠ (k, .error e) :: d.results

/-- Whatever happens up to the next hand-over of `hash`: as long as send `k` waits for it, a poll
tells it what became of its transaction, whose course was `c` up to here. -/
def Judged (d : Dispatch) (k : SendId) (hash : Hash) (c : Course) : Prop :=
  ∀ labels new, (d.run labels).events = new ++ d.events → (∀ n, .enqueued hash n ∉ new) →
    (d.run labels).Waits k hash → (d.run labels).Told k hash (c.following hash new)

end Dispatch

/-- What is remembered of a hash for which one send waits, whose transaction has come this far. -/
def Memory.Agrees (m : Memory) (c : Course) : Prop :=
  m.waited = true ∧
    match c with
    | .waiting => m.record.isSome ∧ m.rejection = none
    | .refused f => m.record = none ∧ ∃ release, m.rejection = some (f.withRelease release)
    | .sent => m.record = none ∧ m.rejection = none ∧ m.sent = true
    | .ended => m.record = none ∧ m.rejection = none ∧ m.sent = true ∧ m.unconfirmed = false

theorem Memory.Agrees.told {m : Memory} {c : Course} (h : m.Agrees c) (a : Allocator) (r : Report) :
    (m.told a r).Agrees (c.next r) := by
  obtain ⟨hw, hc⟩ := h
  cases c with
  | waiting =>
    obtain ⟨hrec, hrej⟩ := hc
    obtain ⟨q, hq⟩ := Option.isSome_iff_exists.mp hrec
    cases r with
    | sent j => exact ⟨hw, rfl, hrej, rfl⟩
    | confirmed j => exact ⟨hw, hrec, hrej⟩
    | failed j f =>
      rw [told_recorded hq, hw]
      exact ⟨hw, rfl, _, rfl⟩
  | refused f =>
    obtain ⟨hrec, hrej⟩ := hc
    cases r with
    | sent j => exact ⟨hw, rfl, hrej⟩
    | confirmed j => exact ⟨hw, hrec, hrej⟩
    | failed j f =>
      rw [told_unrecorded hrec]
      exact ⟨hw, hrec, hrej⟩
  | sent =>
    obtain ⟨hrec, hrej, hsent⟩ := hc
    have hend : m.settled.Agrees .ended := ⟨hw, hrec, hrej, by simp [settled, hsent, hw], rfl⟩
    cases r with
    | sent j => exact ⟨hw, rfl, hrej, rfl⟩
    | confirmed j => exact hend
    | failed j f =>
      rw [told_unrecorded hrec]
      exact hend
  | ended =>
    obtain ⟨hrec, hrej, hsent, _⟩ := hc
    have hend : m.settled.Agrees .ended := ⟨hw, hrec, hrej, by simp [settled, hsent, hw], rfl⟩
    cases r with
    | sent j => exact ⟨hw, rfl, hrej, rfl⟩
    | confirmed j => exact hend
    | failed j f =>
      rw [told_unrecorded hrec]
      exact hend

namespace Dispatch

variable {d d' e : Dispatch} {i j k : SendId} {s : Send} {hash g : Hash} {c : Course}

/-- No other send waits for `hash`, and what is remembered of it is what send `k` should be told. -/
structure Alone (d : Dispatch) (k : SendId) (hash : Hash) (c : Course) : Prop where
  only : ∀ j, d.Waits j hash → j = k
  agrees : d.Waits k hash → (d.tracking.memory hash).Agrees c

namespace Alone

theorem reportAll (h : Alone d k hash c) (rs : List Report) :
    Alone (d.reportAll rs) k hash (c.following hash (rs.map .reported).reverse) := by
  induction rs generalizing d c with
  | nil => exact h
  | cons r rs ih =>
    rw [List.map_cons, List.reverse_cons, Course.following_append]
    refine ih (d := d.report r) ⟨h.only, fun hw => ?_⟩
    have ha := h.agrees hw
    rw [memory_report]
    show Memory.Agrees _ (if r.hash = hash then c.next r else c)
    by_cases hr : r.hash = hash
    · rw [if_pos hr.symm, if_pos hr]
      exact ha.told d.allocator r
    · rw [if_neg (Ne.symm hr), if_neg hr]
      exact ha

theorem effect (h : Alone d k hash c) {o : Option SendId} (he : Effect o d d') :
    ∃ new, d'.events = new ++ d.events ∧
      ((∀ n, .enqueued hash n ∉ new) → Alone d' k hash (c.following hash new)) := by
  cases he with
  | hears e asides rs ha ht hw hev =>
    refine ⟨(rs.map .reported).reverse ++ asides, ?_, fun _ => ?_⟩
    · rw [events_reportAll, hev, List.append_assoc]
    · rw [Course.following_append, Course.following_aside hash c ha]
      refine reportAll ⟨fun j hj => h.only j ((hw j hash).mp hj), fun hk => ?_⟩ rs
      rw [ht]
      exact h.agrees ((hw k hash).mp hk)
  | offers i g r n d' _ hk ht hw hev =>
    refine ⟨[.enqueued g n], hev, fun hn => ?_⟩
    have hg : hash ≠ g := by
      rintro rfl
      exact hn n List.mem_cons_self
    have hsame : ∀ j, d'.Waits j hash ↔ d.Waits j hash := by
      intro j
      rw [hw]
      simp [hg]
    refine ⟨fun j hj => h.only j ((hsame j).mp hj), fun hk => ?_⟩
    rw [ht, Tracking.memory_offered, if_neg hg]
    exact h.agrees ((hsame k).mp hk)
  | withdraws _ g n d' _ _ ht hw hev =>
    refine ⟨[.enqueued g n], hev, fun hn => ?_⟩
    have hg : hash ≠ g := by
      rintro rfl
      exact hn n List.mem_cons_self
    refine ⟨fun j hj => h.only j ((hw j hash).mp hj), fun hk => ?_⟩
    rw [ht.memory_of_ne hg]
    exact h.agrees ((hw k hash).mp hk)
  | leaves i g d' hi ht hw hev =>
    refine ⟨[], hev, fun _ => ⟨fun j hj => h.only j ((hw j hash).mp hj).1, fun hk => ?_⟩⟩
    obtain ⟨hkw, hne⟩ := (hw k hash).mp hk
    -- the send that leaves is another one, so it waited for another hash
    have hg : hash ≠ g := by
      rintro rfl
      exact hne (h.only i hi).symm
    rw [ht, Tracking.memory_removeWaiter, if_neg hg]
    exact h.agrees hkw

theorem run (h : Alone d k hash c) (labels : List Label) :
    ∃ new, (d.run labels).events = new ++ d.events ∧
      ((∀ n, .enqueued hash n ∉ new) → Alone (d.run labels) k hash (c.following hash new)) := by
  induction labels generalizing d c with
  | nil => exact ⟨[], rfl, fun _ => h⟩
  | cons l labels ih =>
    obtain ⟨new, hev, hnew⟩ := h.effect (step_effect d l)
    have hmoves := (run_moves (d.step l) labels).2
    obtain ⟨later, hlater⟩ := hmoves
    refine ⟨later ++ new, ?_, fun hn => ?_⟩
    · rw [run_cons, ← hlater, hev, List.append_assoc]
    · obtain ⟨later', hev', halone⟩ := ih (hnew fun n hm => hn n (List.mem_append_right _ hm))
      obtain rfl : later = later' := List.append_cancel_right (hlater.trans hev')
      rw [run_cons, Course.following_append]
      exact halone fun n hm => hn n (List.mem_append_left _ hm)

/-- A send that waits alone is told the end of its own transaction, once that has come. -/
theorem told (h : Alone d k hash c) (hw : d.Waits k hash) : d.Told k hash c := by
  obtain ⟨hwaited, hc⟩ := h.agrees hw
  obtain ⟨s, hs, hst⟩ := hw
  have hpoll := poll_eq hs hst
  cases c with
  | waiting =>
    have hrej : d.tracking.rejected.get? hash = none := hc.2
    intro e he
    rw [hpoll, hrej] at he
    simp only at he
    split at he
    · simp [finish] at he
    · simp at he
  | refused f =>
    obtain ⟨release, hrej⟩ := hc.2
    have hrej' : d.tracking.rejected.get? hash = some (f.withRelease release) := hrej
    refine ⟨release, ?_⟩
    rw [hpoll, hrej']
    rfl
  | sent =>
    have hrej : d.tracking.rejected.get? hash = none := hc.2.1
    intro e he
    rw [hpoll, hrej] at he
    simp only at he
    split at he
    · simp [finish] at he
    · simp at he
  | ended =>
    obtain ⟨-, hrej, hsent, hopen⟩ := hc
    have hrej' : d.tracking.rejected.get? hash = none := hrej
    have hsettled : d.tracking.pending.isSettled hash = true := by
      simp only [Pending.isSettled]
      rw [show d.tracking.pending.isSent hash = true from hsent,
        show d.tracking.pending.isUnconfirmed hash = false from hopen]
      rfl
    show (d.poll k).results = _
    rw [hpoll, hrej']
    simp only [hsettled]
    rfl

theorem judged (h : Alone d k hash c) : d.Judged k hash c := by
  intro labels new hev hn hw
  obtain ⟨new', hev', halone⟩ := h.run labels
  obtain rfl : new = new' := List.append_cancel_right (hev.symm.trans hev')
  exact (halone hn).told hw

end Alone

/-- A poll tells nothing about a hash of which nothing is kept for those who wait. -/
theorem poll_of_cleared (hc : (d.tracking.memory hash).Cleared) (hw : d.Waits k hash) :
    d.poll k = d := by
  obtain ⟨s, hs, hst⟩ := hw
  have hrej : d.tracking.rejected.get? hash = none := hc.rejection
  have hsent : d.tracking.pending.isSent hash = false := hc.sent
  rw [poll_eq hs hst, hrej]
  simp [Pending.isSettled, hsent]

theorem poll_of_rejection {f : Failure} (hk : d.Waits k hash)
    (hf : (d.tracking.memory hash).rejection = some f) :
    d.poll k =
      { d with tracking := d.tracking.removeWaiter hash, answered := d.answered + 1 }.fail k f := by
  obtain ⟨s, hs, hst⟩ := hk
  have hrej : d.tracking.rejected.get? hash = some f := hf
  rw [poll_eq hs hst, hrej]

/-- A failure that is kept is told to whoever looks first, even if its own transaction has come to
its end in between, and then to nobody else. -/
theorem told_first {f : Failure} (hk : d.Waits k hash) (hi : d.Waits i hash) (hne : i ≠ k)
    (hf : (d.tracking.memory hash).rejection = some f) :
    (d.poll k).results = (k, .error (.failed f)) :: d.results ∧
      (((d.report (.sent hash)).report (.confirmed hash)).poll k).results =
        (k, .error (.failed f)) :: d.results ∧
      (d.poll k).poll i = d.poll k := by
  have hlater : (((d.report (.sent hash)).report (.confirmed hash)).tracking.memory hash).rejection =
      some f := by
    rw [memory_report, memory_report]
    simp only [Report.hash, if_true]
    exact hf
  refine ⟨?_, ?_, ?_⟩
  · rw [poll_of_rejection hk hf]
    rfl
  · rw [poll_of_rejection (d := (d.report (.sent hash)).report (.confirmed hash)) hk hlater]
    rfl
  · rw [poll_of_rejection hk hf]
    exact poll_of_cleared (Tracking.cleared_removeWaiter d.tracking hash)
      ((waits_erase rfl).mpr ⟨hi, hne⟩)

theorem not_told_of_cleared (hc : (d.tracking.memory hash).Cleared) (hw : d.Waits k hash) :
    (∀ f, ¬d.Told k hash (.refused f)) ∧ ¬d.Told k hash .ended := by
  have hp := poll_of_cleared hc hw
  refine ⟨fun f ht => ?_, fun ht => ?_⟩
  · obtain ⟨release, hr⟩ := ht
    rw [hp] at hr
    simp at hr
  · have hr : (d.poll k).results = (k, .ok (.hash hash)) :: d.results := ht
    rw [hp] at hr
    simp at hr

theorem Cleared.delivered (hc : (d.tracking.memory hash).Cleared) :
    (((d.report (.sent hash)).report (.confirmed hash)).tracking.memory hash).Cleared := by
  rw [memory_report, memory_report]
  simp only [Report.hash, if_true]
  exact ⟨hc.waited, hc.rejection, by simp [Memory.told, Memory.settled, hc.waited]⟩

/-- A send that waits for a hash for which no waiting is known is not told the end of it, however
far its transaction had come. -/
theorem not_judged_of_cleared (hc : (d.tracking.memory hash).Cleared) (hw : d.Waits k hash)
    (c : Course) : ¬d.Judged k hash c := by
  intro hj
  have hnow := hj [] [] rfl (by simp) hw
  -- an open course is brought to its end first
  have hlater := hj [.report (.sent hash), .report (.confirmed hash)]
    [.reported (.confirmed hash), .reported (.sent hash)] rfl (by simp) hw
  have hcourse : c.following hash [.reported (.confirmed hash), .reported (.sent hash)] =
      (c.next (.sent hash)).next (.confirmed hash) := by
    simp [Course.following, Course.after, Report.hash]
  rw [hcourse] at hlater
  cases c with
  | refused f => exact (not_told_of_cleared hc hw).1 f hnow
  | ended => exact (not_told_of_cleared hc hw).2 hnow
  | waiting => exact (not_told_of_cleared (Cleared.delivered hc) hw).2 hlater
  | sent => exact (not_told_of_cleared (Cleared.delivered hc) hw).2 hlater

theorem Judged.step (h : d.Judged k hash c) {l : Label} {new : List Event}
    (hev : (d.step l).events = new ++ d.events) (hn : ∀ n, .enqueued hash n ∉ new) :
    (d.step l).Judged k hash (c.following hash new) := by
  intro labels later hlater hm hw
  rw [← Course.following_append]
  refine h (l :: labels) (later ++ new) ?_ (fun n hmem => ?_) hw
  · rw [run_cons, hlater, hev, List.append_assoc]
  · rcases List.mem_append.mp hmem with hmem | hmem
    · exact hm n hmem
    · exact hn n hmem

/-- The first of two sends waiting for one hash that runs out of time takes along what is kept for
the other. -/
theorem not_judged_of_rival (hk : d.Waits k hash) (hi : d.Waits i hash) (hne : k ≠ i) (c : Course) :
    ¬d.Judged k hash c := by
  intro hj
  obtain ⟨s, hs, hst⟩ := hi
  rcases expire_cases d i with ⟨hnone, _⟩ | ⟨t, ht, hw⟩
  · rw [hs] at hnone
    simp at hnone
  · obtain rfl : s = t := Option.some.inj (hs.symm.trans ht)
    have hleft : d.leftBy s = { d with tracking := d.tracking.removeWaiter hash } := by
      simp only [leftBy]
      rw [hst]
    rw [hleft] at hw
    have hc := Tracking.cleared_removeWaiter d.tracking hash
    have htrack : (d.expire i).tracking = d.tracking.removeWaiter hash := hw.tracking
    rw [← htrack] at hc
    have hstep : (d.step (.expire i)).events = [] ++ d.events := hw.events
    exact not_judged_of_cleared hc ((waits_erase hw.sends).mpr ⟨hk, hne⟩) _
      (hj.step hstep (by simp))

/-- A send that hands its transaction over comes to wait, with a record of its own, or leaves nobody
a chance to be told. -/
theorem Effect.enqueued {n : Nat} (h : Effect (some i) d d')
    (he : d'.events = .enqueued hash n :: d.events) :
    (∀ g, ¬d.Waits i g) ∧
      ((∃ r, d'.tracking = (d.tracking.addWaiter hash).recordEnqueued hash r ∧
          ∀ j g, d'.Waits j g ↔ d.Waits j g ∨ j = i ∧ g = hash) ∨
        (d'.tracking.memory hash).Cleared ∧ ∀ j g, d'.Waits j g ↔ d.Waits j g) := by
  cases h with
  | hears e asides rs ha _ _ hev => exact absurd he (enqueued_ne_reports ha hev)
  | offers k g r m d' hi hk ht hw hev =>
    obtain rfl := Option.some.inj hi
    rw [hev] at he
    obtain ⟨rfl, -⟩ := Event.enqueued.inj (List.cons.inj he).1
    exact ⟨hk, .inl ⟨r, ht, hw⟩⟩
  | withdraws k g m d' hi hk ht hw hev =>
    obtain rfl := Option.some.inj hi
    rw [hev] at he
    obtain ⟨rfl, -⟩ := Event.enqueued.inj (List.cons.inj he).1
    exact ⟨hk, .inr ⟨ht.cleared, hw⟩⟩
  | leaves k g d' _ _ _ hev =>
    rw [hev] at he
    simp at he

/-- Whoever hands over a transaction for whose hash nobody else waits starts with a clean slate. -/
theorem Kept.alone {n : Nat} (h : Kept d) (hd : Effect (some i) d d')
    (he : d'.events = .enqueued hash n :: d.events) (hw : d'.Waits i hash)
    (honly : ∀ k, d'.Waits k hash → k = i) : Alone d' i hash .waiting := by
  refine ⟨honly, fun _ => ?_⟩
  obtain ⟨hidle, ⟨r, ht, hwaits⟩ | ⟨_, hwaits⟩⟩ := hd.enqueued he
  · have hunwaited : (d.tracking.memory hash).waited = false := by
      cases hwd : (d.tracking.memory hash).waited with
      | false => rfl
      | true =>
        obtain ⟨k, hk⟩ := h.waiter hash hwd
        obtain rfl := honly k ((hwaits k hash).mpr (.inl hk))
        exact absurd hk (hidle hash)
    rw [ht, Tracking.memory_offered, if_pos rfl]
    exact ⟨rfl, rfl, h.rejection hash hunwaited⟩
  · exact absurd ((hwaits i hash).mp hw) (hidle hash)

/-- After any steps, a send that hands its transaction over and waits is told the end of it, whatever
happens up to the next hand-over of the same hash, exactly if no other send waits for that hash;
and no send that was waiting for it before is, whatever had been reported to it. -/
theorem told_own_end_iff_alone (terms : Terms) (tip baseFee : Fee.Shared SendId) (capacity : Nat)
    (tracker : Tracker) (labels : List Label) (l : Label) (i : SendId) (hash : Hash) (n : Nat)
    (hi : l.send? = some i)
    (he : (((fresh terms tip baseFee capacity tracker).run labels).step l).events =
      .enqueued hash n :: ((fresh terms tip baseFee capacity tracker).run labels).events) :
    let d := ((fresh terms tip baseFee capacity tracker).run labels).step l
    (d.Waits i hash → (d.Judged i hash .waiting ↔ ∀ k, d.Waits k hash → k = i)) ∧
      ∀ k c, d.Waits k hash → k ≠ i → ¬d.Judged k hash c := by
  have hkept := (Kept.fresh terms tip baseFee capacity tracker).run labels
  have hstep := step_effect ((fresh terms tip baseFee capacity tracker).run labels) l
  rw [hi] at hstep
  intro d
  refine ⟨fun hw => ⟨fun hj k hk => ?_, fun honly => (hkept.alone hstep he hw honly).judged⟩,
    fun k c hk hne => ?_⟩
  · by_contra hne
    exact not_judged_of_rival hw hk (Ne.symm hne) _ hj
  · obtain ⟨_, ⟨r, _, hwaits⟩ | ⟨hc, _⟩⟩ := hstep.enqueued he
    · exact not_judged_of_rival hk ((hwaits i hash).mpr (.inr ⟨rfl, rfl⟩)) hne c
    · exact not_judged_of_cleared hc hk c

section Runs

def ready : Dispatch := fresh Sample.terms Sample.fees Sample.fees 4 {}

theorem told_own_end_first :
    (ready.run (Sample.first 1 .sync 0)).Judged 1 (Sample.signed 0).hash .waiting := by
  have h := told_own_end_iff_alone Sample.terms Sample.fees Sample.fees 4 {} (Sample.begin 1 .sync)
    (.answer 1 (.ok (.amount 0)) 0) 1 (Sample.signed 0).hash 0 rfl rfl
  refine (h.1 ⟨_, rfl, rfl⟩).mpr ?_
  rintro k ⟨s, hk, _⟩
  by_contra hne
  have hk' : (if 1 = k then _ else none : Option Send) = some s := hk
  rw [if_neg (Ne.symm hne)] at hk'
  simp at hk'

def refusal : Failure := .submission "underpriced" none

/-- A transaction is refused, and before its send has looked a second send signs it once more. -/
def twins : List Label :=
  Sample.first 1 .sync 0 ++
    .report (.failed (Sample.signed 0).hash refusal) :: Sample.begin 2 .sync

def firstHeld : Reservation := ⟨Sample.signer.address, 0, 1⟩

/-- The number that came back is the second send's. -/
def handedAgain (t : Tracking) (events : List Event) : Dispatch :=
  { ready.run (Sample.first 1 .sync 0) with
    events := events
    tracking := t
    allocator := ((ready.run (Sample.first 1 .sync 0)).allocator.giveBack firstHeld).2 }.run
      (Sample.begin 2 .sync)

theorem handedAgain_spec (t : Tracking) (events : List Event) :
    let d := handedAgain t events
    let hash := (Sample.signed 0).hash
    d.tracking = (t.addWaiter hash).recordEnqueued hash firstHeld ∧
      d.events = .enqueued hash 0 :: events ∧ d.results = [] ∧
      d.sends = [(2, ⟨.sync, Sample.signer, Sample.request, .settle hash⟩),
        (1, ⟨.sync, Sample.signer, Sample.request, .settle hash⟩)] :=
  ⟨rfl, rfl, rfl, rfl⟩

theorem run_twins :
    ∃ t, ready.run twins = handedAgain t
        [.reported (.failed (Sample.signed 0).hash refusal), .enqueued (Sample.signed 0).hash 0] ∧
      (t.memory (Sample.signed 0).hash).rejection = some refusal := by
  have hrec : (ready.run (Sample.first 1 .sync 0)).tracking.enqueued.get? (Sample.signed 0).hash =
      some firstHeld := Keyed.get?_put_self [] _ _
  have htrack : (ready.run (Sample.first 1 .sync 0)).tracking =
      (({} : Tracking).addWaiter (Sample.signed 0).hash).recordEnqueued (Sample.signed 0).hash
        firstHeld := rfl
  have hevents : (ready.run (Sample.first 1 .sync 0)).events =
      [.enqueued (Sample.signed 0).hash 0] := rfl
  have hback : ((ready.run (Sample.first 1 .sync 0)).tracking.report
      (ready.run (Sample.first 1 .sync 0)).allocator (.failed (Sample.signed 0).hash refusal)).2 =
      ((ready.run (Sample.first 1 .sync 0)).allocator.giveBack firstHeld).2 := by
    unfold Tracking.report
    simp only
    rw [Tracking.onFailed_recorded hrec]
  have hsplit : ready.run twins =
      ((ready.run (Sample.first 1 .sync 0)).report (.failed (Sample.signed 0).hash refusal)).run
        (Sample.begin 2 .sync) := by
    simp only [twins, run]
    rw [List.foldl_append, List.foldl_cons]
    rfl
  have hhash : (Sample.signed 0).hash = (Report.failed (Sample.signed 0).hash refusal).hash := rfl
  refine ⟨((ready.run (Sample.first 1 .sync 0)).tracking.report
    (ready.run (Sample.first 1 .sync 0)).allocator (.failed (Sample.signed 0).hash refusal)).1, ?_, ?_⟩
  · rw [hsplit, report_eq, hback, hevents]
    rfl
  · rw [Tracking.memory_report, if_pos hhash, htrack, Tracking.memory_offered, if_pos rfl,
      Memory.told_recorded rfl]
    rfl

/-- The second send is told the refusal of the first one's transaction, before anything is reported
of its own and even after its own has come to its end, and then nothing is left for the first. -/
theorem rejection_told_to_other :
    let d := ready.run twins
    let hash := (Sample.signed 0).hash
    d.events = [.enqueued hash 0, .reported (.failed hash refusal), .enqueued hash 0] ∧
      (d.poll 2).results = [(2, .error (.failed refusal))] ∧
      (((d.report (.sent hash)).report (.confirmed hash)).poll 2).results =
        [(2, .error (.failed refusal))] ∧
      (d.poll 2).poll 1 = d.poll 2 := by
  obtain ⟨t, hrun, hrej⟩ := run_twins
  obtain ⟨htrack, hevents, hresults, hsends⟩ := handedAgain_spec t
    [.reported (.failed (Sample.signed 0).hash refusal), .enqueued (Sample.signed 0).hash 0]
  rw [← hrun] at htrack hevents hresults hsends
  generalize ready.run twins = d at htrack hevents hresults hsends ⊢
  generalize (Sample.signed 0).hash = hash at hrej htrack hevents hsends ⊢
  have hfirst : d.Waits 1 hash := ⟨_, by rw [hsends]; rfl, rfl⟩
  have hsecond : d.Waits 2 hash := ⟨_, by rw [hsends]; rfl, rfl⟩
  have hkept : (d.tracking.memory hash).rejection = some refusal := by
    rw [htrack, Tracking.memory_offered, if_pos rfl]
    exact hrej
  have htold := told_first hsecond hfirst (by decide) hkept
  rw [hresults] at htold
  exact ⟨hevents, htold⟩

end Runs

end Dispatch

end Outbox
