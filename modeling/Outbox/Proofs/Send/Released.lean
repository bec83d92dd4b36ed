import Outbox.Proofs.Send.Entrusted
import Outbox.Proofs.Send.Unheard

namespace Outbox

open Nonce

/-- A report, and what is allocated and tracked as it finds it. -/
structure Hearing extends Moment where
  tracking : Tracking

namespace Hearing

/-- The allocator after the report. -/
def after (x : Hearing) : Allocator := (x.tracking.report x.allocator x.report).2

/-- The report makes a number free that was out. -/
def Frees (x : Hearing) (r : Reservation) : Prop := x.allocator.Out r ∧ ¬x.after.Out r

/-- A report of `hash` frees its number exactly if it is a failure, nothing but confirmations was
reported before, and the number's state is still there. One of another hash frees it only if it was
freed before, and has been issued again and recorded there. -/
structure Fair (hash : Hash) (r : Reservation) (x : Hearing) (older : List Hearing) : Prop where
  own : x.report.hash = hash → (x.Frees r ↔
    Unanswered hash (older.map toMoment) ∧ (∃ f, x.report = .failed hash f) ∧ x.allocator.Current r)
  other : x.report.hash ≠ hash → x.Frees r → (∃ f, x.report = .failed x.report.hash f) ∧
    x.tracking.enqueued.get? x.report.hash = some r ∧
    ∃ y ∈ older, y.report.hash = hash ∧ y.Frees r

/-- A report frees no number but the one recorded under its hash, and only if it is a failure. -/
theorem Frees.recorded {x : Hearing} {r : Reservation} (h : x.Frees r) :
    (∃ f, x.report = .failed x.report.hash f) ∧
      x.tracking.enqueued.get? x.report.hash = some r := by
  obtain ⟨hout, hfree⟩ := h
  rcases Tracking.allocator_report x.tracking x.allocator x.report with hsame | ⟨f, q, hf, hq, hback⟩
  · rw [after, hsame] at hfree
    exact absurd hout hfree
  · obtain rfl : q = r := by
      by_contra hne
      rw [after, hback] at hfree
      exact hfree (hout.giveBack_of_ne hne)
    exact ⟨⟨f, hf⟩, hq⟩

end Hearing

/-- Reports that follow one another, newest first. -/
def Tracking.hearings (t : Tracking) (a : Allocator) : List Report → List Hearing
  | [] => []
  | q :: qs => hearings (t.report a q).1 (t.report a q).2 qs ++ [⟨⟨a, q⟩, t⟩]

theorem Tracking.hearings_moments (t : Tracking) (a : Allocator) (qs : List Report) :
    (t.hearings a qs).map Hearing.toMoment = t.moments a qs := by
  induction qs generalizing t a with
  | nil => rfl
  | cons q qs ih =>
    rw [hearings, List.map_append, ih]
    rfl

/-- Whoever waits for the hash, a report does to the numbers what the record of the hash tells. -/
theorem Tracking.allocator_report_congr {t u : Tracking} (a : Allocator) {q : Report}
    (h : u.enqueued.get? q.hash = t.enqueued.get? q.hash) : (u.report a q).2 = (t.report a q).2 := by
  cases q with
  | sent hash => rfl
  | confirmed hash => rfl
  | failed hash f =>
    simp only [report, allocator_onFailed, returned]
    have hsame : u.enqueued.get? hash = t.enqueued.get? hash := h
    rw [hsame]

theorem Unanswered.of_cons {hash : Hash} {x : Moment} {moments : List Moment}
    (h : Unanswered hash (x :: moments)) : Unanswered hash moments :=
  fun y hy => h y (List.mem_cons_of_mem _ hy)

namespace Dispatch

variable {d d' : Dispatch} {k : SendId} {hash : Hash} {r : Reservation} {heard : List Hearing}

def crewHearings (d : Dispatch) (f : Confirmer → Confirmer × List Report) : List Hearing :=
  match d.tracker.confirmer with
  | none => []
  | some c => d.tracking.hearings d.allocator (f c).2

/-- The reports that a step brings, newest first. -/
def hearingsOf (d : Dispatch) : Label → List Hearing
  | .take i => d.crewHearings fun c => c.take i
  | .workerAnswer i a => d.crewHearings fun c => c.answer i a
  | .verdict i v => d.crewHearings fun c => c.verdict i v
  | .drain => d.crewHearings Confirmer.drain
  | .report q => d.tracking.hearings d.allocator [q]
  | _ => []

/-- The reports of a run, newest first. -/
def hearingsOver (d : Dispatch) : List Label → List Hearing
  | [] => []
  | l :: labels => (d.step l).hearingsOver labels ++ d.hearingsOf l

theorem crewHearings_moments (d : Dispatch) (f : Confirmer → Confirmer × List Report) :
    (d.crewHearings f).map Hearing.toMoment = d.crewMoments f := by
  simp only [crewHearings, crewMoments]
  cases d.tracker.confirmer with
  | none => rfl
  | some c => exact Tracking.hearings_moments _ _ _

theorem hearingsOver_moments (d : Dispatch) (labels : List Label) :
    (d.hearingsOver labels).map Hearing.toMoment = d.momentsOver labels := by
  induction labels generalizing d with
  | nil => rfl
  | cons l labels ih =>
    have hstep : (d.hearingsOf l).map Hearing.toMoment = d.momentsOf l := by
      cases l <;> first | rfl | exact crewHearings_moments d _
    rw [hearingsOver, List.map_append, ih, hstep]
    rfl

/-- What can have become of the number recorded under `hash`, by what was heard since. -/
inductive Fate (hash : Hash) (r : Reservation) (heard : List Hearing) (d : Dispatch) : Prop where
  | recorded (hq : d.tracking.enqueued.get? hash = some r) (h : Entrusted r [] d)
      (hu : Unanswered hash (heard.map Hearing.toMoment))
  /-- Nobody has it, and nobody is to have it again. -/
  | spent (hq : d.tracking.enqueued.get? hash = none) (h : Entrusted r [r] d)
      (hu : ¬Unanswered hash (heard.map Hearing.toMoment))
  | freed (hq : d.tracking.enqueued.get? hash = none) (x : Hearing) (hx : x ∈ heard)
      (hown : x.report.hash = hash) (hfrees : x.Frees r)
      (hu : ¬Unanswered hash (heard.map Hearing.toMoment))

namespace Entrusted

theorem out_of_record (h : Entrusted r [] d) (hq : d.tracking.enqueued.get? hash = some r) :
    d.allocator.Out r :=
  h.sole.out (List.mem_append_right _ (List.mem_append_left _ (mem_deposited hq rfl)))

theorem out_of_hand (h : Entrusted r [r] d) : d.allocator.Out r :=
  h.sole.out List.mem_cons_self

theorem unrecord_own (h : Entrusted r [] d) (hq : d.tracking.enqueued.get? hash = some r) :
    Sole r d.allocator (r :: (deposited (d.tracking.enqueued.erase hash) r.identity ++
      carried d.sends r.identity)) := by
  have hown : recordOf d.tracking.enqueued r.identity hash = [r] := by
    simp [recordOf, hq, Reservation.mine]
  have hs := h.unrecord hash
  rw [hown] at hs
  exact hs

/-- A record that goes without its number leaves the number with nobody. -/
theorem spend (h : Entrusted r [] d)
    (hs : Sole r d'.allocator (r :: (deposited (d.tracking.enqueued.erase hash) r.identity ++
      carried d.sends r.identity)))
    (hr : d'.tracking.enqueued = d.tracking.enqueued.erase hash) (he : d'.sends = d.sends) :
    Entrusted r [r] d' := by
  refine ⟨?_, hr ▸ Keyed.distinct_erase h.records hash, he ▸ h.sends⟩
  rw [hr, he]
  exact hs

end Entrusted

/-- The next report, as it finds `d`. -/
def hearing (d : Dispatch) (q : Report) : Hearing := ⟨⟨d.allocator, q⟩, d.tracking⟩

theorem not_frees_of_out {q : Report} (h : (d.report q).allocator.Out r) :
    ¬(d.hearing q).Frees r := fun hf => hf.2 h

theorem get?_enqueued_report_of_ne {q : Report} (hne : q.hash ≠ hash) :
    (d.report q).tracking.enqueued.get? hash = d.tracking.enqueued.get? hash := by
  rw [report_eq]
  simp only [Tracking.enqueued_report]
  cases q with
  | confirmed g => rfl
  | sent g => exact Keyed.get?_erase_of_ne _ (Ne.symm hne)
  | failed g f => exact Keyed.get?_erase_of_ne _ (Ne.symm hne)

theorem get?_enqueued_report_none (q : Report) (hq : d.tracking.enqueued.get? hash = none) :
    (d.report q).tracking.enqueued.get? hash = none := by
  by_cases hown : q.hash = hash
  · have hrecords := Tracking.enqueued_report d.tracking d.allocator q
    rw [report_eq]
    simp only [hrecords]
    cases q with
    | confirmed g => exact hq
    | sent g => exact hown ▸ Keyed.get?_erase_self _ _
    | failed g f => exact hown ▸ Keyed.get?_erase_self _ _
  · rw [get?_enqueued_report_of_ne hown]
    exact hq

namespace Fate

/-- A report of the hash whose number is recorded. -/
theorem report_own (hq : d.tracking.enqueued.get? hash = some r) (h : Entrusted r [] d)
    (hu : Unanswered hash (heard.map Hearing.toMoment)) {q : Report} (hown : q.hash = hash) :
    (d.hearing q).Fair hash r heard ∧ Fate hash r (d.hearing q :: heard) (d.report q) := by
  have hout := h.out_of_record hq
  have hlone := h.unrecord_own hq
  subst hown
  cases q with
  | sent hash =>
    have hrecords := Tracking.enqueued_report d.tracking d.allocator (.sent hash)
    have hspent : Entrusted r [r] (d.report (.sent hash)) := h.spend hlone hrecords rfl
    have hstays := not_frees_of_out hspent.out_of_hand
    refine ⟨⟨fun _ => iff_of_false hstays ?_, fun hne => absurd rfl hne⟩, .spent ?_ hspent ?_⟩
    · rintro ⟨-, ⟨f, hf⟩, -⟩
      exact absurd hf (by simp [hearing])
    · rw [report_eq]
      simp only [hrecords]
      exact Keyed.get?_erase_self _ _
    · intro hall
      exact (hall _ List.mem_cons_self).1 rfl
  | confirmed hash =>
    have hrecords := Tracking.enqueued_report d.tracking d.allocator (.confirmed hash)
    have hq' : (d.report (.confirmed hash)).tracking.enqueued.get? hash = some r := by
      rw [report_eq]
      simp only [hrecords]
      exact hq
    have hstays := not_frees_of_out (q := .confirmed hash) hout
    refine ⟨⟨fun _ => iff_of_false hstays ?_, fun hne => absurd rfl hne⟩,
      .recorded hq' (h.report _) (hu.cons ⟨by simp [hearing], by simp [hearing]⟩)⟩
    rintro ⟨-, ⟨f, hf⟩, -⟩
    exact absurd hf (by simp [hearing])
  | failed hash f =>
    have hrecords := Tracking.enqueued_report d.tracking d.allocator (.failed hash f)
    have hq' : (d.report (.failed hash f)).tracking.enqueued.get? hash = none := by
      rw [report_eq]
      simp only [hrecords]
      exact Keyed.get?_erase_self _ _
    have hback : (d.report (.failed hash f)).allocator = (d.allocator.giveBack r).2 := by
      have hreturned := Tracking.allocator_onFailed d.tracking d.allocator hash f
      simp only [returned] at hreturned
      rw [show d.tracking.enqueued.get? hash = some r from hq] at hreturned
      exact hreturned
    have hanswered : ¬Unanswered hash
        ((d.hearing (.failed hash f) :: heard).map Hearing.toMoment) := fun hall =>
      (hall _ List.mem_cons_self).2 f rfl
    by_cases hc : d.allocator.Current r
    · have hfrees : (d.hearing (.failed hash f)).Frees r := by
        refine ⟨hout, ?_⟩
        show ¬(d.report (.failed hash f)).allocator.Out r
        rw [hback]
        exact hout.giveBack hc
      exact ⟨⟨fun _ => iff_of_true hfrees ⟨hu, ⟨f, rfl⟩, hc⟩, fun hne => absurd rfl hne⟩,
        .freed hq' _ List.mem_cons_self rfl hfrees hanswered⟩
    · have hlone' := hlone.giveBack_stale hc
      rw [← hback] at hlone'
      have hspent : Entrusted r [r] (d.report (.failed hash f)) := h.spend hlone' hrecords rfl
      have hstays := not_frees_of_out hspent.out_of_hand
      exact ⟨⟨fun _ => iff_of_false hstays fun hall => hc hall.2.2, fun hne => absurd rfl hne⟩,
        .spent hq' hspent hanswered⟩

/-- What one report does. -/
theorem report (h : Fate hash r heard d) (q : Report) :
    (d.hearing q).Fair hash r heard ∧ Fate hash r (d.hearing q :: heard) (d.report q) := by
  cases h with
  | recorded hq h hu =>
    by_cases hown : q.hash = hash
    · exact report_own hq h hu hown
    · have hq' : (d.report q).tracking.enqueued.get? hash = some r :=
        (get?_enqueued_report_of_ne hown).trans hq
      have hstays := not_frees_of_out ((h.report q).out_of_record hq')
      refine ⟨⟨fun heq => absurd heq hown, fun _ hf => absurd hf hstays⟩,
        .recorded hq' (h.report q) (hu.cons ⟨?_, ?_⟩)⟩
      · rintro rfl
        exact hown rfl
      · rintro f rfl
        exact hown rfl
  | spent hq h hu =>
    have hstays := not_frees_of_out (h.report q).out_of_hand
    exact ⟨⟨fun _ => iff_of_false hstays fun hall => hu hall.1, fun _ hf => absurd hf hstays⟩,
      .spent (get?_enqueued_report_none q hq) (h.report q) (mt Unanswered.of_cons hu)⟩
  | freed hq x hx hown hfrees hu =>
    refine ⟨⟨fun heq => iff_of_false (fun hf => ?_) fun hall => hu hall.1, fun _ hf =>
      ⟨hf.recorded.1, hf.recorded.2, x, hx, hown, hfrees⟩⟩,
      .freed (get?_enqueued_report_none q hq) x (List.mem_cons_of_mem _ hx) hown hfrees
        (mt Unanswered.of_cons hu)⟩
    -- nothing is recorded under the hash any more
    have hrecord : d.tracking.enqueued.get? q.hash = some r := hf.recorded.2
    rw [show q.hash = hash from heq, hq] at hrecord
    simp at hrecord

/-- A change without a report that leaves the record and its holders as they are. -/
theorem quiet (h : Fate hash r heard d)
    (hr : d'.tracking.enqueued.get? hash = d.tracking.enqueued.get? hash)
    (he : ∀ hand, Entrusted r hand d → Entrusted r hand d') : Fate hash r heard d' := by
  cases h with
  | recorded hq h hu => exact .recorded (hr.trans hq) (he [] h) hu
  | spent hq h hu => exact .spent (hr.trans hq) (he [r] h) hu
  | freed hq x hx hown hfrees hu => exact .freed (hr.trans hq) x hx hown hfrees hu

end Fate

/-- What became of the number so far, every report having been fair. -/
structure Accounted (hash : Hash) (r : Reservation) (heard : List Hearing) (d : Dispatch) :
    Prop where
  fate : Fate hash r heard d
  fair : ∀ x older, x :: older <:+ heard → x.Fair hash r older

namespace Accounted

variable {l : Label}

theorem report (h : Accounted hash r heard d) (q : Report) :
    Accounted hash r (d.hearing q :: heard) (d.report q) := by
  obtain ⟨hfair, hfate⟩ := h.fate.report q
  refine ⟨hfate, fun x older hsuffix => ?_⟩
  rcases List.suffix_cons_iff.mp hsuffix with heq | hsuffix
  · obtain ⟨rfl, rfl⟩ := List.cons.inj heq
    exact hfair
  · exact h.fair x older hsuffix

theorem reportAll (h : Accounted hash r heard d) (qs : List Report) :
    Accounted hash r (d.tracking.hearings d.allocator qs ++ heard) (d.reportAll qs) := by
  induction qs generalizing d heard with
  | nil => exact h
  | cons q qs ih =>
    have hrest := ih (h.report q)
    rw [Tracking.hearings, List.append_assoc]
    exact hrest

theorem withConfirmer (h : Accounted hash r heard d) (f : Confirmer → Confirmer × List Report) :
    Accounted hash r (d.crewHearings f ++ heard) (d.withConfirmer f) := by
  simp only [crewHearings]
  cases hc : d.tracker.confirmer with
  | none =>
    rw [withConfirmer_none hc]
    exact h
  | some c =>
    rw [withConfirmer_some hc]
    have hset : Accounted hash r heard
        { d with tracker := { d.tracker with confirmer := some (f c).1 } } :=
      ⟨h.fate.quiet rfl fun hand he => he.congr rfl rfl rfl, h.fair⟩
    exact hset.reportAll (f c).2

/-- A step that brings no report, and does not hand the hash over again. -/
theorem quiet (h : Accounted hash r heard d)
    (hl : l = .release r.identity r.nonce → ¬d.allocator.Current r)
    (hn : Unoffered hash d.events (d.step l).events) (hm : d.momentsOf l = []) :
    Accounted hash r heard (d.step l) := by
  refine ⟨h.fate.quiet ?_ fun hand he => he.step hl, h.fair⟩
  exact memory_step (P := fun m => m.record = d.tracking.enqueued.get? hash) rfl hn
    (fun m hr => hr) fun x hx => by simp [hm] at hx

theorem step (h : Accounted hash r heard d)
    (hl : l = .release r.identity r.nonce → ¬d.allocator.Current r)
    (hn : Unoffered hash d.events (d.step l).events) :
    Accounted hash r (d.hearingsOf l ++ heard) (d.step l) := by
  cases l with
  | take i => exact h.withConfirmer _
  | workerAnswer i a => exact h.withConfirmer _
  | verdict i v =>
    cases hc : d.tracker.confirmer with
    | none =>
      have hnone := h.withConfirmer fun c => c.verdict i v
      rw [withConfirmer_none hc] at hnone
      simp only [Dispatch.step, Dispatch.verdict, hc]
      exact hnone
    | some c =>
      cases hi : c.inHand? i with
      | none =>
        have hv : c.verdict i v = (c, []) := Confirmer.verdict_of_inHand?_eq_none hi v
        simp only [Dispatch.step, Dispatch.verdict, hearingsOf, crewHearings, hc, hi, hv]
        exact h
      | some g =>
        have hlogged : Accounted hash r heard (d.log (.checked g c.depth)) :=
          ⟨h.fate.quiet rfl fun hand he => he.congr rfl rfl rfl, h.fair⟩
        have hworked := hlogged.withConfirmer fun c => c.verdict i v
        simp only [Dispatch.step, Dispatch.verdict, hc, hi]
        exact hworked
  | drain => exact h.withConfirmer _
  | report q => exact h.report q
  | call k mode signer request => exact h.quiet hl hn rfl
  | answer k a now => exact h.quiet hl hn rfl
  | turn k now => exact h.quiet hl hn rfl
  | poll k => exact h.quiet hl hn rfl
  | expire k => exact h.quiet hl hn rfl
  | cancel k => exact h.quiet hl hn rfl
  | start => exact h.quiet hl hn rfl
  | tick i => exact h.quiet hl hn rfl
  | leave i => exact h.quiet hl hn rfl
  | stop => exact h.quiet hl hn rfl
  | track g => exact h.quiet hl hn rfl
  | reset who n => exact h.quiet hl hn rfl
  | release who n => exact h.quiet hl hn rfl

theorem run (h : Accounted hash r heard d) {labels : List Label} (hl : d.Untouched r labels)
    (hn : Unoffered hash d.events (d.run labels).events) :
    Accounted hash r (d.hearingsOver labels ++ heard) (d.run labels) := by
  induction labels generalizing d heard with
  | nil => exact h
  | cons l labels ih =>
    have hold := (step_moves d l).events
    have hnew := (run_moves (d.step l) labels).2
    have hfirst := h.step hl.head (hn.within List.suffix_rfl hnew)
    have hrest := ih hfirst hl.tail (hn.within hold List.suffix_rfl)
    rw [hearingsOver, List.append_assoc]
    exact hrest

/-- The number is out, unless a failure of its hash freed it. -/
theorem out_or_freed (h : Accounted hash r heard d) :
    d.allocator.Out r ∨ ∃ x ∈ heard, x.report.hash = hash ∧ x.Frees r := by
  cases h.fate with
  | recorded hq h _ => exact .inl (h.out_of_record hq)
  | spent _ h _ => exact .inl h.out_of_hand
  | freed _ x hx hown hfrees _ => exact .inr ⟨x, hx, hown, hfrees⟩

theorem freed_iff (h : Accounted hash r heard d) :
    (∃ x ∈ heard, x.report.hash = hash ∧ x.Frees r) ↔
      ∃ a f, Refused hash (heard.map Hearing.toMoment) a f ∧ a.Current r := by
  constructor
  · rintro ⟨x, hx, hown, hfrees⟩
    obtain ⟨newer, older, rfl⟩ := List.append_of_mem hx
    obtain ⟨hu, ⟨f, hf⟩, hc⟩ := ((h.fair x older (List.suffix_append _ _)).own hown).mp hfrees
    refine ⟨x.allocator, f, ⟨newer.map Hearing.toMoment, older.map Hearing.toMoment, ?_, hu⟩, hc⟩
    rw [List.map_append, List.map_cons, ← hf]
  · rintro ⟨a, f, ⟨newer, older, heq, hu⟩, hc⟩
    obtain ⟨newer', rest, rfl, -, hrest⟩ := List.map_eq_append_iff.mp heq
    obtain ⟨x, older', rfl, hx, rfl⟩ := List.map_eq_cons_iff.mp hrest
    have hfair := h.fair x older' (List.suffix_append _ _)
    have ha : x.allocator = a := congrArg Moment.allocator hx
    have hf : x.report = .failed hash f := congrArg Moment.report hx
    have hown : x.report.hash = hash := by rw [hf]; rfl
    exact ⟨x, List.mem_append_right _ List.mem_cons_self, hown,
      (hfair.own hown).mpr ⟨hu, ⟨f, hf⟩, ha ▸ hc⟩⟩

/-- What was freed once is not freed again for the same hash. -/
theorem freed_once (h : Accounted hash r heard d) {x : Hearing} {older : List Hearing}
    (hs : x :: older <:+ heard) (hown : x.report.hash = hash) (hfrees : x.Frees r) :
    ∀ y ∈ older, y.report.hash = hash → ¬y.Frees r := by
  intro y hy hyown hyfrees
  obtain ⟨newer, rest, rfl⟩ := List.append_of_mem hy
  have hys : y :: rest <:+ heard := (List.suffix_append (x :: newer) (y :: rest)).trans hs
  obtain ⟨-, ⟨f, hf⟩, -⟩ := ((h.fair y rest hys).own hyown).mp hyfrees
  obtain ⟨hu, -, -⟩ := ((h.fair x _ hs).own hown).mp hfrees
  exact (hu y.toMoment (List.mem_map_of_mem hy)).2 f hf

end Accounted

/-- A number is recorded under a hash that is not handed over again, and nobody releases it by hand
while its state is there. A report of the hash frees it exactly if it is a failure, the first report
of the hash but for confirmations, and the state that issued the number is still there. A report of
another hash frees it only after that, when it has been issued again; nothing else frees it; and who
waits for the hash does not matter. The counter is endless: the last number of 64 bits could not be
freed (`State.release_last`). -/
theorem freed_iff_refused (terms : Terms) (tip baseFee : Fee.Shared SendId) (capacity : Nat)
    (tracker : Tracker) (earlier later : List Label) (hash : Hash) (r : Reservation)
    (hl : (fresh terms tip baseFee capacity tracker).Untouched r (earlier ++ later)) :
    let d := (fresh terms tip baseFee capacity tracker).run earlier
    let heard := d.hearingsOver later
    d.tracking.enqueued.get? hash = some r → Unoffered hash d.events (d.run later).events →
      ((∃ x ∈ heard, x.report.hash = hash ∧ x.Frees r) ↔
        ∃ a f, Refused hash (d.momentsOver later) a f ∧ a.Current r) ∧
      (∀ x older, x :: older <:+ heard → x.Fair hash r older ∧
        (x.report.hash = hash → x.Frees r → ∀ y ∈ older, y.report.hash = hash → ¬y.Frees r)) ∧
      ((d.run later).allocator.Out r ∨ ∃ x ∈ heard, x.report.hash = hash ∧ x.Frees r) ∧
      ∀ x ∈ heard, ∀ t : Tracking,
        t.enqueued.get? x.report.hash = x.tracking.enqueued.get? x.report.hash →
          (t.report x.allocator x.report).2 = x.after := by
  intro d heard hq hn
  have hentrusted : Entrusted r [] d :=
    (Entrusted.fresh r terms tip baseFee capacity tracker).run hl.left
  have hbegins : Accounted hash r [] d := by
    refine ⟨.recorded hq hentrusted (by simp [Unanswered]), fun x older hs => ?_⟩
    simp at hs
  have hends : Accounted hash r heard (d.run later) := by
    have hrun := hbegins.run hl.right hn
    rwa [List.append_nil] at hrun
  have hfreed := hends.freed_iff
  rw [hearingsOver_moments] at hfreed
  exact ⟨hfreed, fun x older hs => ⟨hends.fair x older hs, hends.freed_once hs⟩,
    hends.out_or_freed, fun x _ t ht => Tracking.allocator_report_congr x.allocator ht⟩

/-- A transaction of which a confirmation is reported first, and then two failures. -/
def failedTwice : List Label :=
  [.report (.confirmed (Sample.signed 0).hash),
    .report (.failed (Sample.signed 0).hash (.internal "underpriced")),
    .report (.failed (Sample.signed 0).hash (.internal "underpriced"))]

theorem freed_iff_refused_after_confirmation :
    let d := (fresh Sample.terms Sample.fees Sample.fees 4 {}).run (Sample.first 1 .sync 0)
    let r : Reservation := ⟨Sample.signer.address, 0, 1⟩
    ∃ x ∈ d.hearingsOver failedTwice, x.report.hash = (Sample.signed 0).hash ∧ x.Frees r := by
  intro d r
  have hlabels : (fresh Sample.terms Sample.fees Sample.fees 4 {}).Untouched r
      (Sample.first 1 .sync 0 ++ failedTwice) := by
    apply Untouched.of_not_mem
    simp [Sample.first, Sample.begin, failedTwice]
  have hq : d.tracking.enqueued.get? (Sample.signed 0).hash = some r :=
    Keyed.get?_put_self [] _ _
  have hn : Unoffered (Sample.signed 0).hash d.events (d.run failedTwice).events := by
    apply unoffered_run
    simp [failedTwice, Label.isPassive]
  obtain ⟨hiff, -⟩ := freed_iff_refused Sample.terms Sample.fees Sample.fees 4 {}
    (Sample.first 1 .sync 0) failedTwice (Sample.signed 0).hash r hlabels hq hn
  have hs : d.allocator.entries.get? Sample.signer.address = some ⟨1, [], 1⟩ := rfl
  apply hiff.mpr
  refine ⟨d.allocator, .internal "underpriced", ?_, ⟨⟨1, [], 1⟩, hs, rfl⟩⟩
  exact ⟨[⟨_, .failed _ _⟩], [⟨d.allocator, .confirmed _⟩], rfl, by simp [Unanswered]⟩

end Dispatch

end Outbox
