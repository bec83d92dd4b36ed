import Outbox.Proofs.Crew.Unheard
import Outbox.Proofs.Send.Handing
import Outbox.Proofs.Send.Waiting

namespace Outbox

open Nonce

namespace Memory

/-- What each report of a hash keeps is kept by all of them. -/
theorem after_induction {P : Memory → Prop} {hash : Hash} {heard : List Moment} {m : Memory} (h : P m)
    (ht : ∀ x ∈ heard, x.report.hash = hash → ∀ m, P m → P (m.told x.allocator x.report)) :
    P (m.after hash heard) := by
  induction heard with
  | nil => exact h
  | cons x heard ih =>
    have hrest := ih fun y hy => ht y (List.mem_cons_of_mem _ hy)
    show P ((m.after hash heard).hears hash x)
    simp only [hears]
    split
    · next hx => exact ht x List.mem_cons_self hx.symm _ hrest
    · exact hrest

theorem told_record_none {m : Memory} (h : m.record = none) (a : Allocator) (r : Report) :
    (m.told a r).record = none := by
  cases r with
  | sent j => rfl
  | confirmed j => exact h
  | failed j f =>
    rw [told_unrecorded h]
    exact h

end Memory

namespace Course

theorem following_other {hash : Hash} (c : Course) {events : List Event}
    (h : ∀ r, .reported r ∈ events → r.hash ≠ hash) : c.following hash events = c := by
  induction events with
  | nil => rfl
  | cons e events ih =>
    have hrest := ih fun r hr => h r (List.mem_cons_of_mem _ hr)
    show after hash e (c.following hash events) = c
    rw [hrest]
    cases e with
    | reported r => exact if_neg (h r List.mem_cons_self)
    | _ => rfl

/-- What was once reported sent is on its way or has come to its end. -/
theorem following_sent (hash : Hash) (events : List Event) :
    Course.sent.following hash events = .sent ∨ Course.sent.following hash events = .ended := by
  induction events with
  | nil => exact .inl rfl
  | cons e events ih =>
    show after hash e (Course.sent.following hash events) = .sent ∨
      after hash e (Course.sent.following hash events) = .ended
    cases e with
    | reported r =>
      simp only [after]
      split
      · rcases ih with h | h
        · rw [h]
          cases r <;> simp [next]
        · rw [h]
          cases r <;> simp [next]
      · exact ih
    | _ => exact ih

end Course

namespace Dispatch

variable {d d' : Dispatch} {k : SendId} {hash : Hash} {r : Reservation} {l : Label}

/-- Nothing but reports and the departure of a waiting send changes what is remembered of a hash
that is not handed over. -/
theorem memory_step {P : Memory → Prop} (h : P (d.tracking.memory hash))
    (hn : Unoffered hash d.events (d.step l).events)
    (hl : ∀ m, P m → P { m with waited := false, rejection := none, sent := false })
    (ht : ∀ x ∈ d.momentsOf l, x.report.hash = hash →
      ∀ m, P m → P (m.told x.allocator x.report)) : P ((d.step l).tracking.memory hash) := by
  cases hs : l.send? with
  | none =>
    rw [(Hears.step d hs).memory hash]
    exact Memory.after_induction h ht
  | some o =>
    have heff : Effect (some o) d (d.step l) := hs ▸ step_effect d l
    generalize d.step l = d' at heff hn
    cases heff with
    | hears e asides rs _ htr _ _ hr =>
      obtain rfl : rs = [] := hr.resolve_left (by simp)
      show P (e.tracking.memory hash)
      rw [htr]
      exact h
    | offers i g q n _ _ _ htr _ he =>
      have hg : hash ≠ g := by
        rintro rfl
        exact hn [.enqueued hash n] n he List.mem_cons_self
      rw [htr, Tracking.memory_offered, if_neg hg]
      exact h
    | withdraws i g n _ _ _ htr _ he =>
      have hg : hash ≠ g := by
        rintro rfl
        exact hn [.enqueued hash n] n he List.mem_cons_self
      rw [htr.memory_of_ne hg]
      exact h
    | leaves i g _ _ htr _ _ =>
      rw [htr, Tracking.memory_removeWaiter]
      split
      · exact hl _ h
      · exact h

theorem Alone.step {c : Course} (h : Alone d k hash c)
    (hn : Unoffered hash d.events (d.step l).events) :
    ∃ new, (d.step l).events = new ++ d.events ∧ Alone (d.step l) k hash (c.following hash new) := by
  obtain ⟨new, hev, halone⟩ := h.effect (step_effect d l)
  exact ⟨new, hev, halone fun n => hn new n hev⟩

theorem reported_new {new : List Event} (hev : (d.step l).events = new ++ d.events) (q : Report) :
    .reported q ∈ new ↔ q ∈ (d.momentsOf l).map Moment.report := by
  have hrun : reports (d.step l).events =
      ([].map Moment.report ++ (d.momentsOf l).map Moment.report) ++ reports d.events := by
    rw [← List.map_append]
    exact reports_run d [l]
  have hnew : reports new = (d.momentsOf l).map Moment.report := by
    rw [hev] at hrun
    simp only [reports, List.filterMap_append] at hrun ⊢
    exact List.append_cancel_right hrun
  rw [← hnew]
  simp only [reports, List.mem_filterMap]
  constructor
  · intro hm
    exact ⟨_, hm, rfl⟩
  · rintro ⟨e, he, heq⟩
    cases e with
    | reported q' =>
      obtain rfl := Option.some.inj heq
      exact he
    | _ => simp at heq

/-- Send `k` handed `hash` over with the number `r`, which is recorded, and nothing has been
reported of it. -/
structure Unheard (d : Dispatch) (k : SendId) (hash : Hash) (r : Reservation) : Prop where
  alone : Alone d k hash .waiting
  record : (d.tracking.memory hash).record = some r
  unsettled : (d.tracking.memory hash).sent = true → (d.tracking.memory hash).unconfirmed = true
  crew : ∃ c, d.tracker.confirmer = some c ∧ c.Unheard hash

/-- The hash was reported sent, and its number is forgotten. -/
structure Misheard (d : Dispatch) (k : SendId) (hash : Hash) : Prop where
  alone : Alone d k hash .sent
  record : (d.tracking.memory hash).record = none

/-- There is a crew, and it has no transaction of `hash` to submit. -/
def Lacks (d : Dispatch) (hash : Hash) : Prop := ∃ c, d.tracker.confirmer = some c ∧ c.Lacks hash

/-- A worker takes the hash to track while another worker is submitting its transaction. -/
def Overhears (d : Dispatch) (hash : Hash) (l : Label) : Prop :=
  ∃ c i, d.tracker.confirmer = some c ∧ l = .take i ∧ c.Overhears hash i

/-- At some point of the run a worker overhears the submission of `hash`. -/
def Overheard (d : Dispatch) (hash : Hash) (labels : List Label) : Prop :=
  ∃ earlier l later, labels = earlier ++ l :: later ∧ (d.run earlier).Overhears hash l

namespace Unheard

theorem overheard (h : Unheard d k hash r) (ho : d.Overhears hash l) :
    Misheard (d.step l) k hash := by
  obtain ⟨c, i, hc, rfl, hover⟩ := ho
  have hstep : d.step (.take i) =
      { d with tracker := { d.tracker with confirmer := some (c.take i).1 } }.report (.sent hash) := by
    have hworks := withConfirmer_some hc fun c => c.take i
    rw [hover.reports] at hworks
    exact hworks
  have halone : Alone { d with tracker := { d.tracker with confirmer := some (c.take i).1 } } k hash
      .waiting := ⟨h.alone.only, h.alone.agrees⟩
  have hsent : Course.waiting.following hash ([.sent hash].map Event.reported).reverse = .sent := by
    simp [Course.following, Course.after, Course.next, Report.hash]
  rw [hstep]
  refine ⟨?_, ?_⟩
  · have hreport := halone.reportAll [.sent hash]
    rw [hsent] at hreport
    exact hreport
  · simp only [memory_report, Report.hash, if_true]
    rfl

/-- A step in which nothing is reported of the hash leaves what is remembered of it. -/
theorem calm (h : Unheard d k hash r) (hn : Unoffered hash d.events (d.step l).events)
    (hr : ∀ x ∈ d.momentsOf l, x.report.hash ≠ hash)
    (hcrew : ∃ c, (d.step l).tracker.confirmer = some c ∧ c.Unheard hash) :
    Unheard (d.step l) k hash r := by
  have hmemory : ((d.step l).tracking.memory hash).record = some r ∧
      (((d.step l).tracking.memory hash).sent = true →
        ((d.step l).tracking.memory hash).unconfirmed = true) := by
    refine memory_step (P := fun m => m.record = some r ∧ (m.sent = true → m.unconfirmed = true))
      ⟨h.record, h.unsettled⟩ hn (fun m hm => ⟨hm.1, by simp⟩) fun x hx he => ?_
    exact absurd he (hr x hx)
  obtain ⟨new, hev, halone⟩ := h.alone.step hn
  rw [Course.following_other _ fun q hq => ?_] at halone
  · exact ⟨halone, hmemory.1, hmemory.2, hcrew⟩
  · obtain ⟨x, hx, rfl⟩ := List.mem_map.mp ((reported_new hev q).mp hq)
    exact hr x hx

/-- One step on, the hash is still unheard of, or was overheard, or its transaction is no longer to
be submitted. -/
theorem step (h : Unheard d k hash r) (hl : ∀ q, l ≠ .report q)
    (hn : Unoffered hash d.events (d.step l).events) (ho : ¬d.Overhears hash l) :
    Unheard (d.step l) k hash r ∨ (d.step l).Lacks hash := by
  obtain ⟨c, hc, hcrew⟩ := h.crew
  obtain ⟨c', rs, hc', hstep, hrs⟩ := step_crew hc l
  have calm : c'.Unheard hash → (∀ q ∈ rs, q.hash ≠ hash) → Unheard (d.step l) k hash r := by
    intro hcrew' hquiet
    refine h.calm hn (fun x hx => hquiet _ ?_) ⟨c', hc', hcrew'⟩
    rw [← List.mem_reverse, ← hrs]
    exact List.mem_map_of_mem hx
  cases hstep with
  | rests => exact .inl (calm hcrew (by simp))
  | told q hq => exact absurd hq (hl q)
  | starts => exact hcrew.start.imp (fun hu => calm hu (by simp)) fun hu => ⟨_, hc', hu⟩
  | acts x hx =>
    have hquiet : ∀ i, x = .take i → ¬c.Overhears hash i := by
      rintro i rfl hover
      refine ho ⟨c, i, hc, ?_, hover⟩
      cases l <;> simp_all [Label.act?]
    rcases hcrew.act (Label.act?_ne_enqueue hx) hquiet with ⟨hu, hq⟩ | hu
    · exact .inl (calm hu hq)
    · exact .inr ⟨_, hc', hu⟩
  | tracks g => exact .inl (calm (hcrew.track g) (by simp))
  | submits tx n he =>
    have htx : tx.hash ≠ hash := by
      rintro rfl
      exact hn [.enqueued tx.hash n] n he List.mem_cons_self
    exact .inl (calm (hcrew.submit htx) (by simp))

end Unheard

theorem Misheard.step (h : Misheard d k hash) (hn : Unoffered hash d.events (d.step l).events) :
    Misheard (d.step l) k hash := by
  obtain ⟨new, hev, halone⟩ := h.alone.step hn
  refine ⟨?_, ?_⟩
  · rcases Course.following_sent hash new with hc | hc
    · rw [hc] at halone
      exact halone
    · rw [hc] at halone
      refine ⟨halone.only, fun hw => ?_⟩
      obtain ⟨hwaited, hrec, hrej, hsent, -⟩ := halone.agrees hw
      exact ⟨hwaited, hrec, hrej, hsent⟩
  · exact memory_step (P := fun m => m.record = none) h.record hn (fun _ hm => hm)
      fun x _ _ m hm => Memory.told_record_none hm x.allocator x.report

theorem Lacks.step (h : d.Lacks hash) (hn : Unoffered hash d.events (d.step l).events) :
    (d.step l).Lacks hash := by
  obtain ⟨c, hc, hl⟩ := h
  obtain ⟨c', rs, hc', hstep, -⟩ := step_crew hc l
  refine ⟨c', hc', ?_⟩
  cases hstep with
  | rests => exact hl
  | told q hq => exact hl
  | starts => exact hl.handles c.handles_start
  | acts x hx => exact hl.act (Label.act?_ne_enqueue hx)
  | tracks g => exact hl.track g
  | submits tx n he =>
    refine hl.submit ?_
    rintro rfl
    exact hn [.enqueued tx.hash n] n he List.mem_cons_self

theorem Misheard.run (h : Misheard d k hash) {labels : List Label}
    (hn : Unoffered hash d.events (d.run labels).events) : Misheard (d.run labels) k hash := by
  induction labels generalizing d with
  | nil => exact h
  | cons l labels ih =>
    have hgrown := (run_moves (d.step l) labels).2
    exact ih (h.step (hn.within List.suffix_rfl hgrown)) (hn.within (step_moves d l).events List.suffix_rfl)

theorem Lacks.run (h : d.Lacks hash) {labels : List Label}
    (hn : Unoffered hash d.events (d.run labels).events) : (d.run labels).Lacks hash := by
  induction labels generalizing d with
  | nil => exact h
  | cons l labels ih =>
    have hgrown := (run_moves (d.step l) labels).2
    exact ih (h.step (hn.within List.suffix_rfl hgrown)) (hn.within (step_moves d l).events List.suffix_rfl)

theorem not_overheard_nil : ¬d.Overheard hash [] := by
  rintro ⟨earlier, l, later, heq, -⟩
  simp at heq

theorem overheard_cons {labels : List Label} :
    d.Overheard hash (l :: labels) ↔ d.Overhears hash l ∨ (d.step l).Overheard hash labels := by
  constructor
  · rintro ⟨earlier, l', later, heq, ho⟩
    cases earlier with
    | nil =>
      obtain ⟨rfl, rfl⟩ := List.cons.inj heq
      exact .inl ho
    | cons x earlier =>
      obtain ⟨rfl, rfl⟩ := List.cons.inj heq
      exact .inr ⟨earlier, l', later, rfl, ho⟩
  · rintro (ho | ⟨earlier, l', later, rfl, ho⟩)
    · exact ⟨[], l, labels, rfl, ho⟩
    · exact ⟨l :: earlier, l', later, rfl, ho⟩

/-- Not overheard, and at every point of the run nothing has been reported of the hash. -/
structure Silent (d : Dispatch) (k : SendId) (hash : Hash) (r : Reservation) (labels : List Label) :
    Prop where
  unheard : ∀ earlier, earlier <+: labels → Unheard (d.run earlier) k hash r
  quiet : ¬d.Overheard hash labels

theorem Silent.cons {labels : List Label} (h : Unheard d k hash r) (ho : ¬d.Overhears hash l)
    (hs : Silent (d.step l) k hash r labels) : Silent d k hash r (l :: labels) := by
  refine ⟨fun earlier hp => ?_, fun hover => ?_⟩
  · cases earlier with
    | nil => exact h
    | cons x earlier =>
      obtain ⟨rfl, hp'⟩ := List.cons_prefix_cons.mp hp
      exact hs.unheard earlier hp'
  · exact (overheard_cons.mp hover).elim ho hs.quiet

/-- What becomes of a transaction that was handed over: up to the end of the run nothing is reported
of it, or it is overheard, or it is no longer to be submitted. -/
theorem Unheard.run (h : Unheard d k hash r) {labels : List Label} (hl : ∀ q, .report q ∉ labels)
    (hn : Unoffered hash d.events (d.run labels).events) :
    Silent d k hash r labels ∨ d.Overheard hash labels ∧ Misheard (d.run labels) k hash ∨
      (d.run labels).Lacks hash := by
  induction labels generalizing d with
  | nil =>
    refine .inl ⟨fun earlier hp => ?_, not_overheard_nil⟩
    obtain rfl := List.prefix_nil.mp hp
    exact h
  | cons l labels ih =>
    have hgrown := (run_moves (d.step l) labels).2
    have hfirst := hn.within List.suffix_rfl hgrown
    have hrest : Unoffered hash (d.step l).events ((d.step l).run labels).events :=
      hn.within (step_moves d l).events List.suffix_rfl
    by_cases ho : d.Overhears hash l
    · exact .inr (.inl ⟨overheard_cons.mpr (.inl ho), (h.overheard ho).run hrest⟩)
    · have hl' : ∀ q, l ≠ .report q := fun q hq => hl q (hq ▸ List.mem_cons_self)
      rcases h.step hl' hfirst ho with hu | hgone
      · rcases ih hu (fun q hq => hl q (List.mem_cons_of_mem _ hq)) hrest with hs | ⟨hover, hm⟩ | hgone
        · exact .inl (hs.cons h ho)
        · exact .inr (.inl ⟨overheard_cons.mpr (.inr hover), hm⟩)
        · exact .inr (.inr hgone)
      · exact .inr (.inr (hgone.run hrest))

/-- Nobody waits for `hash`, and the crew has nothing to do with it. -/
structure Unknown (d : Dispatch) (hash : Hash) : Prop where
  waiter : ∀ k, ¬d.Waits k hash
  crew : ∃ c, d.tracker.confirmer = some c ∧ c.Lacks hash ∧ hash ∉ c.watched ∧ hash ∉ c.tracks

namespace Unknown

variable {unended : Prop} {n : Nat}

/-- Whoever hands over a hash of which nothing is known waits for it alone, or not at all. -/
theorem alone (hu : d.Unknown hash) (hm : (d.tracking.memory hash).Tidy (∃ k, d.Waits k hash) unended)
    (heff : Effect (some k) d d') (he : d'.events = .enqueued hash n :: d.events) :
    Alone d' k hash .waiting ∧ ((d'.tracking.memory hash).sent = true →
      (d'.tracking.memory hash).unconfirmed = true) := by
  have hunwaited : (d.tracking.memory hash).waited = false :=
    Bool.eq_false_iff.mpr fun hw => by
      obtain ⟨j, hj⟩ := hm.waiter hw
      exact hu.waiter j hj
  obtain ⟨-, ⟨r, ht, hw⟩ | ⟨hc, hw⟩⟩ := heff.enqueued he
  · have hmemory : d'.tracking.memory hash =
        { d.tracking.memory hash with record := some r, waited := true } := by
      rw [ht, Tracking.memory_offered, if_pos rfl]
    refine ⟨⟨fun j hj => ?_, fun _ => ?_⟩, fun hs => ?_⟩
    · exact (((hw j hash).mp hj).resolve_left (hu.waiter j)).1
    · rw [hmemory]
      exact ⟨rfl, rfl, hm.rejection hunwaited⟩
    · rw [hmemory] at hs ⊢
      exact hm.sent hs hunwaited
  · refine ⟨⟨fun j hj => ?_, fun hk => ?_⟩, fun hs => ?_⟩
    · exact absurd ((hw j hash).mp hj) (hu.waiter j)
    · exact absurd ((hw k hash).mp hk) (hu.waiter k)
    · rw [hc.sent] at hs
      simp at hs

/-- The hand-over of a hash of which nothing is known is refused, or its number is recorded. -/
theorem handOver (hu : d.Unknown hash)
    (hm : (d.tracking.memory hash).Tidy (∃ k, d.Waits k hash) unended) (hk : l.send? = some k)
    (he : (d.step l).events = .enqueued hash n :: d.events) :
    (∃ s r, d.sends.get? k = some s ∧ r.identity = s.signer.address ∧ r.nonce = n ∧
      Unheard (d.step l) k hash r) ∨ (d.step l).Lacks hash := by
  obtain ⟨halone, hunsettled⟩ := hu.alone hm (hk ▸ step_effect d l) he
  obtain ⟨c, hc, hlacks, hwatched, htracks⟩ := hu.crew
  have hstep := step_sendStep d hk
  generalize d.step l = d' at *
  cases hstep with
  | apart _ _ hev =>
    rw [hev] at he
    simp at he
  | hands e a s tx held hl hs hn hid =>
    have hce : e.tracker.confirmer = some c := by
      rw [hl.tracker]
      exact hc
    obtain ⟨rfl, hnonce⟩ : tx.hash = hash ∧ tx.tx.nonce = n := by
      rw [handOver_events, hl.events] at he
      exact Event.enqueued.inj (List.cons.inj he).1
    rcases handOver_crew hce k s tx held with hcrew | ⟨hcrew, hrec⟩
    · exact .inr ⟨c, hcrew, hlacks⟩
    · refine .inl ⟨s, held, hs, hid, hn.symm.trans hnonce, halone, hrec, hunsettled, _, hcrew, ?_⟩
      exact .opened hlacks hwatched htracks rfl

end Unknown

/-- A crew of at most `n` workers stays one. -/
theorem within_run {n : Nat} {c : Confirmer} (hc : d.tracker.confirmer = some c) (hw : c.Within n)
    (labels : List Label) : ∃ c', (d.run labels).tracker.confirmer = some c' ∧ c'.Within n := by
  induction labels generalizing d c with
  | nil => exact ⟨c, hc, hw⟩
  | cons l labels ih =>
    obtain ⟨c', rs, hc', hstep, -⟩ := step_crew hc l
    have hw' : c'.Within n := by
      cases hstep with
      | rests => exact hw
      | told q hq => exact hw
      | starts => exact hw.start
      | acts x hx => exact hw.act x
      | tracks g => exact ⟨hw.crew, hw.workers⟩
      | submits tx m he => exact ⟨hw.crew, hw.workers⟩
    exact ih hc' hw'

theorem not_overheard_of_within {c : Confirmer} (hc : d.tracker.confirmer = some c)
    (hw : c.Within 1) (labels : List Label) : ¬d.Overheard hash labels := by
  rintro ⟨earlier, l, later, -, c', i, hc', -, hover⟩
  obtain ⟨c₁, hc₁, hw₁⟩ := within_run hc hw earlier
  obtain rfl : c' = c₁ := Option.some.inj (hc'.symm.trans hc₁)
  exact hw₁.not_overhears hover

end Dispatch

end Outbox
