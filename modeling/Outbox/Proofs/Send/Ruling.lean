import Outbox.Proofs.Send.Moments

namespace Outbox

open Nonce

/-- Reported sent, and its end after the last such report. The reports stand newest first. -/
def Report.Ended (hash : Hash) (reports : List Report) : Prop :=
  ∃ later earlier, reports = later ++ .sent hash :: earlier ∧ .sent hash ∉ later ∧
    ∃ r ∈ later, r.hash = hash ∧ r.isTerminal = true

/-- Reported neither sent nor failed. -/
def Unanswered (hash : Hash) (heard : List Moment) : Prop :=
  ∀ x ∈ heard, x.report ≠ .sent hash ∧ ∀ f, x.report ≠ .failed hash f

/-- The first report that is not a confirmation is the failure `f`, and finds the numbers as in
`a`. -/
def Refused (hash : Hash) (heard : List Moment) (a : Allocator) (f : Failure) : Prop :=
  ∃ later earlier, heard = later ++ ⟨a, .failed hash f⟩ :: earlier ∧ Unanswered hash earlier

/-- What the reports of a transaction, recorded with the number `q`, entitle its send to be told. A
failure before the first sending is told together with a failed return of the number. -/
inductive Ruling (hash : Hash) (q : Reservation) (heard : List Moment) :
    Except Fault Send.Outcome → Prop where
  | refused (a : Allocator) (f : Failure) (h : Refused hash heard a f) :
      Ruling hash q heard (.error (.failed (f.withRelease (Tracking.releaseError a q))))
  | ended (hr : ∀ a f, ¬Refused hash heard a f)
      (h : Report.Ended hash (heard.map Moment.report)) : Ruling hash q heard (.ok (.hash hash))

section Reports

variable {hash : Hash} {q : Reservation} {heard : List Moment} {x : Moment} {a b : Allocator} {f g : Failure}

theorem Report.Ended.sent_mem {reports : List Report} (h : Report.Ended hash reports) :
    .sent hash ∈ reports := by
  obtain ⟨later, earlier, rfl, -, -⟩ := h
  exact List.mem_append_right _ List.mem_cons_self

theorem ended_cons {r : Report} {reports : List Report} :
    Report.Ended hash (r :: reports) ↔
      if r.hash = hash then r.isTerminal = true ∧ .sent hash ∈ reports
      else Report.Ended hash reports := by
  constructor
  · rintro ⟨later, earlier, h, hs, e, he, heh, het⟩
    cases later with
    | nil => simp at he
    | cons y later =>
      obtain ⟨rfl, rfl⟩ := List.cons.inj h
      split
      · next hr =>
        refine ⟨?_, List.mem_append_right _ List.mem_cons_self⟩
        by_contra hn
        have hsent := eq_sent_of_isTerminal (Bool.eq_false_iff.mpr hn)
        rw [hr] at hsent
        exact hs (hsent ▸ List.mem_cons_self)
      · next hr =>
        have hel : e ∈ later := by
          rcases List.mem_cons.mp he with rfl | he
          · exact absurd heh hr
          · exact he
        exact ⟨later, earlier, rfl, fun hm => hs (List.mem_cons_of_mem _ hm), e, hel, heh, het⟩
  · split
    · next hr =>
      rintro ⟨ht, hs⟩
      obtain ⟨later, earlier, rfl, hl⟩ := List.eq_append_cons_of_mem hs
      refine ⟨r :: later, earlier, rfl, fun hm => ?_, r, List.mem_cons_self, hr, ht⟩
      rcases List.mem_cons.mp hm with rfl | hm
      · simp [Report.isTerminal] at ht
      · exact hl hm
    · next hr =>
      rintro ⟨later, earlier, rfl, hs, e, he, heh, het⟩
      refine ⟨r :: later, earlier, rfl, fun hm => ?_, e, List.mem_cons_of_mem _ he, heh, het⟩
      rcases List.mem_cons.mp hm with rfl | hm
      · exact hr rfl
      · exact hs hm

theorem Unanswered.cons (h : Unanswered hash heard)
    (hx : x.report ≠ .sent hash ∧ ∀ f, x.report ≠ .failed hash f) :
    Unanswered hash (x :: heard) := by
  intro y hy
  rcases List.mem_cons.mp hy with rfl | hy
  · exact hx
  · exact h y hy

theorem Refused.not_unanswered (h : Refused hash heard a f) : ¬Unanswered hash heard := by
  obtain ⟨later, earlier, rfl, -⟩ := h
  intro hu
  exact (hu _ (List.mem_append_right _ List.mem_cons_self)).2 f rfl

theorem refused_cons :
    Refused hash (x :: heard) a f ↔
      Refused hash heard a f ∨ x = ⟨a, .failed hash f⟩ ∧ Unanswered hash heard := by
  constructor
  · rintro ⟨later, earlier, h, he⟩
    cases later with
    | nil =>
      obtain ⟨rfl, rfl⟩ := List.cons.inj h
      exact .inr ⟨rfl, he⟩
    | cons y later =>
      obtain ⟨rfl, rfl⟩ := List.cons.inj h
      exact .inl ⟨later, earlier, rfl, he⟩
  · rintro (⟨later, earlier, rfl, he⟩ | ⟨rfl, hu⟩)
    · exact ⟨x :: later, earlier, rfl, he⟩
    · exact ⟨[], heard, rfl, hu⟩

/-- There is only one first failure. -/
theorem Refused.unique (h : Refused hash heard a f) (hg : Refused hash heard b g) :
    a = b ∧ f = g := by
  induction heard with
  | nil =>
    obtain ⟨later, earlier, h, -⟩ := h
    simp at h
  | cons x heard ih =>
    rcases refused_cons.mp h with h | ⟨hx, hu⟩
    · rcases refused_cons.mp hg with hg | ⟨-, hu⟩
      · exact ih h hg
      · exact absurd hu h.not_unanswered
    · rcases refused_cons.mp hg with hg | ⟨hy, -⟩
      · exact absurd hu hg.not_unanswered
      · have hm := Moment.mk.inj (hx.symm.trans hy)
        exact ⟨hm.1, (Report.failed.inj hm.2).2⟩

theorem not_ruling (hu : Unanswered hash heard) (R : Except Fault Send.Outcome) :
    ¬Ruling hash q heard R := by
  intro hR
  cases hR with
  | refused a f hf => exact hf.not_unanswered hu
  | ended _ he =>
    obtain ⟨y, hy, hys⟩ := List.mem_map.mp he.sent_mem
    exact (hu y hy).1 hys

end Reports

namespace Memory

variable {m : Memory} {hash : Hash} {q : Reservation} {heard : List Moment} {x : Moment}

/-- What a look finds out: a kept failure goes before the end. -/
def answer? (m : Memory) (hash : Hash) : Option (Except Fault Send.Outcome) :=
  match m.rejection with
  | some f => some (.error (.failed f))
  | none => if m.sent && !m.unconfirmed then some (.ok (.hash hash)) else none

/-- What is remembered of a hash for which one send waits, whose number was recorded as `q`. -/
inductive Standing (hash : Hash) (q : Reservation) (heard : List Moment) : Memory → Prop where
  | unanswered (h : Unanswered hash heard) : Standing hash q heard ⟨some q, true, none, false, false⟩
  | refused (a : Allocator) (f : Failure) (sent unconfirmed : Bool) (h : Refused hash heard a f) :
      Standing hash q heard
        ⟨none, true, some (f.withRelease (Tracking.releaseError a q)), sent, unconfirmed⟩
  | sent (unconfirmed : Bool) (hs : .sent hash ∈ heard.map Moment.report)
      (hr : ∀ a f, ¬Refused hash heard a f)
      (hu : unconfirmed = false ↔ Report.Ended hash (heard.map Moment.report)) :
      Standing hash q heard ⟨none, true, none, true, unconfirmed⟩

namespace Standing

/-- Reports of other transactions do not matter. -/
theorem other (h : m.Standing hash q heard) (hx : x.report.hash ≠ hash) :
    m.Standing hash q (x :: heard) := by
  have hnot : x.report ≠ .sent hash ∧ ∀ f, x.report ≠ .failed hash f := by
    refine ⟨fun hs => hx ?_, fun f hf => hx ?_⟩
    · rw [hs]
      rfl
    · rw [hf]
      rfl
  cases h with
  | unanswered h => exact .unanswered (h.cons hnot)
  | refused a f s u h => exact .refused a f s u (refused_cons.mpr (.inl h))
  | sent u hs hr hu =>
    refine .sent u (List.mem_cons_of_mem _ hs) (fun a f hf => ?_) ?_
    · rcases refused_cons.mp hf with hf | ⟨rfl, -⟩
      · exact hr a f hf
      · exact hnot.2 f rfl
    · rw [List.map_cons, ended_cons, if_neg hx]
      exact hu

theorem told (h : m.Standing hash q heard) (hx : x.report.hash = hash) :
    (m.told x.allocator x.report).Standing hash q (x :: heard) := by
  obtain ⟨a, r⟩ := x
  have hr : r.hash = hash := hx
  cases h with
  | unanswered h =>
    cases r with
    | sent j =>
      obtain rfl : j = hash := hr
      refine .sent true List.mem_cons_self (fun b f hf => ?_) ?_
      · rcases refused_cons.mp hf with hf | ⟨hf, -⟩
        · exact hf.not_unanswered h
        · simp at hf
      · rw [List.map_cons, ended_cons, if_pos hx]
        simp [Report.isTerminal]
    | confirmed j => exact .unanswered (h.cons ⟨by simp, by simp⟩)
    | failed j f =>
      obtain rfl : j = hash := hr
      rw [told_recorded rfl]
      exact .refused a f _ _ (refused_cons.mpr (.inr ⟨rfl, h⟩))
  | refused b f s u h =>
    have hkeeps : Refused hash (⟨a, r⟩ :: heard) b f := refused_cons.mpr (.inl h)
    cases r with
    | sent j => exact .refused b f _ _ hkeeps
    | confirmed j => exact .refused b f _ _ hkeeps
    | failed j g =>
      rw [told_unrecorded rfl]
      exact .refused b f _ _ hkeeps
  | sent u hs hn hu =>
    have hsent : .sent hash ∈ (Moment.mk a r :: heard).map Moment.report :=
      List.mem_cons_of_mem _ hs
    have hnever : ∀ b f, ¬Refused hash (⟨a, r⟩ :: heard) b f := by
      intro b f hf
      rcases refused_cons.mp hf with hf | ⟨-, hun⟩
      · exact hn b f hf
      · obtain ⟨y, hy, hys⟩ := List.mem_map.mp hs
        exact (hun y hy).1 hys
    have hend : (Report.Ended hash ((Moment.mk a r :: heard).map Moment.report)) ↔
        r.isTerminal = true := by
      rw [List.map_cons, ended_cons, if_pos hr]
      exact and_iff_left hs
    cases r with
    | sent j => exact .sent true hsent hnever (by rw [hend]; simp [Report.isTerminal])
    | confirmed j => exact .sent false hsent hnever (by rw [hend]; simp [Report.isTerminal])
    | failed j g =>
      rw [told_unrecorded rfl]
      exact .sent false hsent hnever (by rw [hend]; simp [Report.isTerminal])

theorem hears (h : m.Standing hash q heard) (x : Moment) :
    (m.hears hash x).Standing hash q (x :: heard) := by
  simp only [Memory.hears]
  split
  · next hx => exact h.told hx.symm
  · next hx => exact h.other (Ne.symm hx)

theorem after (h : m.Standing hash q heard) (new : List Moment) :
    (m.after hash new).Standing hash q (new ++ heard) := by
  induction new with
  | nil => exact h
  | cons x new ih => exact ih.hears x

/-- A look finds out what the reports rule, and nothing as long as they do not. -/
theorem answer?_iff (h : m.Standing hash q heard) (R : Except Fault Send.Outcome) :
    m.answer? hash = some R ↔ Ruling hash q heard R := by
  cases h with
  | unanswered h =>
    exact iff_of_false (by simp [answer?]) (not_ruling h R)
  | refused a f s u h =>
    constructor
    · intro hR
      obtain rfl := Option.some.inj hR
      exact .refused a f h
    · intro hR
      cases hR with
      | refused b g hg =>
        obtain ⟨rfl, rfl⟩ := h.unique hg
        rfl
      | ended hr _ => exact absurd h (hr a f)
  | sent u hs hn hu =>
    constructor
    · intro hR
      cases u with
      | false =>
        obtain rfl := Option.some.inj hR
        exact .ended hn (hu.mp rfl)
      | true => simp [answer?] at hR
    · intro hR
      cases hR with
      | refused b g hg => exact absurd hg (hn b g)
      | ended _ he =>
        obtain rfl := hu.mpr he
        rfl

end Standing

end Memory

end Outbox
