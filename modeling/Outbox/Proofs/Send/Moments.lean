import Outbox.Proofs.Send.Vigil

namespace Outbox

open Nonce

/-- A report, and the numbers as it finds them. -/
structure Moment where
  allocator : Allocator
  report : Report

/-- Reports that follow one another, newest first. -/
def Tracking.moments (t : Tracking) (a : Allocator) : List Report → List Moment
  | [] => []
  | r :: rs => moments (t.report a r).1 (t.report a r).2 rs ++ [⟨a, r⟩]

namespace Memory

/-- What is remembered of a hash after a report. -/
def hears (hash : Hash) (x : Moment) (m : Memory) : Memory :=
  if hash = x.report.hash then m.told x.allocator x.report else m

def after (m : Memory) (hash : Hash) (heard : List Moment) : Memory := heard.foldr (hears hash) m

theorem after_append (m : Memory) (hash : Hash) (new old : List Moment) :
    m.after hash (new ++ old) = (m.after hash old).after hash new := by
  simp only [after]
  rw [List.foldr_append]

end Memory

namespace Dispatch

variable {d d' : Dispatch} {k : SendId}

/-- The reports that a crew makes at its next work. -/
def crewMoments (d : Dispatch) (f : Confirmer → Confirmer × List Report) : List Moment :=
  match d.tracker.confirmer with
  | none => []
  | some c => d.tracking.moments d.allocator (f c).2

/-- The reports that a step brings, newest first. -/
def momentsOf (d : Dispatch) : Label → List Moment
  | .take i => d.crewMoments fun c => c.take i
  | .workerAnswer i a => d.crewMoments fun c => c.answer i a
  | .verdict i v => d.crewMoments fun c => c.verdict i v
  | .drain => d.crewMoments Confirmer.drain
  | .report r => d.tracking.moments d.allocator [r]
  | _ => []

/-- The reports of a run, newest first. -/
def momentsOver (d : Dispatch) : List Label → List Moment
  | [] => []
  | l :: labels => (d.step l).momentsOver labels ++ d.momentsOf l

/-- From `d` to `d'` these reports have come, and nothing else was done to what is tracked. -/
structure Hears (d : Dispatch) (heard : List Moment) (d' : Dispatch) : Prop where
  memory : ∀ g, d'.tracking.memory g = (d.tracking.memory g).after g heard
  told : reports d'.events = heard.map Moment.report ++ reports d.events

namespace Hears

theorem silent (ht : d'.tracking = d.tracking) (he : reports d'.events = reports d.events) :
    Hears d [] d' := by
  refine ⟨fun g => ?_, he⟩
  rw [ht]
  rfl

theorem reportAll (d : Dispatch) (rs : List Report) :
    Hears d (d.tracking.moments d.allocator rs) (d.reportAll rs) := by
  induction rs generalizing d with
  | nil => exact silent rfl rfl
  | cons r rs ih =>
    obtain ⟨hm, hr⟩ := ih (d.report r)
    refine ⟨fun g => ?_, ?_⟩
    · show ((d.report r).reportAll rs).tracking.memory g = _
      rw [hm g, memory_report, Tracking.moments, Memory.after_append]
      rfl
    · show Dispatch.reports ((d.report r).reportAll rs).events = _
      rw [hr, Tracking.moments, List.map_append, List.append_assoc]
      rfl

theorem withConfirmer (d : Dispatch) (f : Confirmer → Confirmer × List Report) :
    Hears d (d.crewMoments f) (d.withConfirmer f) := by
  simp only [crewMoments]
  cases hc : d.tracker.confirmer with
  | none =>
    rw [withConfirmer_none hc]
    exact silent rfl rfl
  | some c =>
    rw [withConfirmer_some hc]
    obtain ⟨hm, hr⟩ :=
      reportAll { d with tracker := { d.tracker with confirmer := some (f c).1 } } (f c).2
    exact ⟨hm, hr⟩

/-- Work of which nothing is told. -/
theorem quietly (d : Dispatch) (f : Confirmer → Confirmer) :
    Hears d [] (d.withConfirmer fun c => (f c, [])) := by
  have h := withConfirmer d fun c => (f c, [])
  have hnone : (d.crewMoments fun c => (f c, [])) = [] := by
    simp only [crewMoments]
    split <;> rfl
  rw [hnone] at h
  exact h

theorem verdict (d : Dispatch) (i : Nat) (v : Except Failure Unit) :
    Hears d (d.crewMoments fun c => c.verdict i v) (d.verdict i v) := by
  simp only [Dispatch.verdict, crewMoments]
  cases hc : d.tracker.confirmer with
  | none => exact silent rfl rfl
  | some c =>
    cases hi : c.inHand? i with
    | none =>
      have hv : (c.verdict i v).2 = [] := by
        simp only [Confirmer.inHand?] at hi
        simp only [Confirmer.verdict]
        split at hi
        · simp at hi
        · rfl
      simp only [hi, hv]
      exact silent rfl rfl
    | some g =>
      have h := withConfirmer (d.log (.checked g c.depth)) fun c => c.verdict i v
      simp only [crewMoments] at h
      rw [show (d.log (.checked g c.depth)).tracker.confirmer = some c from hc] at h
      simp only [hi]
      exact ⟨h.memory, h.told⟩

theorem track (d : Dispatch) (g : Hash) : Hears d [] (d.track g).2 := by
  simp only [Dispatch.track]
  rw [meddle_eq]
  split
  · exact silent rfl rfl
  · next e hp =>
    obtain ⟨c, rfl, -⟩ := push_ok hp
    exact silent rfl rfl

/-- All that a step does to what is tracked, if it is not about a send, it does by reports. -/
theorem step (d : Dispatch) {l : Label} (hl : l.send? = none) :
    Hears d (d.momentsOf l) (d.step l) := by
  cases l with
  | call k mode signer request => simp [Label.send?] at hl
  | answer k a now => simp [Label.send?] at hl
  | turn k now => simp [Label.send?] at hl
  | poll k => simp [Label.send?] at hl
  | expire k => simp [Label.send?] at hl
  | cancel k => simp [Label.send?] at hl
  | start =>
    obtain ⟨hm, hr⟩ := quietly { d with started := true } Confirmer.start
    exact ⟨hm, hr⟩
  | take i => exact withConfirmer d _
  | workerAnswer i a => exact withConfirmer d _
  | verdict i v => exact verdict d i v
  | tick i => exact quietly d fun c => c.tick i
  | leave i => exact quietly d fun c => c.leave i
  | stop => exact quietly d Confirmer.stop
  | drain => exact withConfirmer d _
  | report r => exact reportAll d [r]
  | track g => exact track d g
  | reset who n => exact silent rfl rfl
  | release who n => exact silent rfl rfl

end Hears

theorem momentsOf_send {l : Label} (hl : l.send? = some k) : d.momentsOf l = [] := by
  cases l <;> first | rfl | simp [Label.send?] at hl

/-- A send reports nothing. -/
theorem Effect.reports (h : Effect (some k) d d') : reports d'.events = reports d.events := by
  cases h with
  | hears e asides rs ha _ _ he hr =>
    obtain rfl : rs = [] := hr.resolve_left (by simp)
    show Dispatch.reports e.events = _
    rw [he, reports_asides ha]
  | offers _ g _ n _ _ _ _ _ he =>
    rw [he]
    rfl
  | withdraws _ g n _ _ _ _ _ he =>
    rw [he]
    rfl
  | leaves _ g _ _ _ _ he => rw [he]

theorem reports_run (d : Dispatch) (labels : List Label) :
    reports (d.run labels).events = (d.momentsOver labels).map Moment.report ++ reports d.events := by
  induction labels generalizing d with
  | nil => rfl
  | cons l labels ih =>
    have hstep : reports (d.step l).events =
        (d.momentsOf l).map Moment.report ++ reports d.events := by
      cases hl : l.send? with
      | none => exact (Hears.step d hl).told
      | some k =>
        rw [momentsOf_send hl]
        exact Effect.reports (hl ▸ step_effect d l)
    rw [run_cons, ih (d.step l), hstep, momentsOver, List.map_append, List.append_assoc]

end Dispatch

end Outbox
