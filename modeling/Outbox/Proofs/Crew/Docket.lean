import Mathlib.Data.List.Basic
import Mathlib.Data.List.Nodup
import Outbox.Proofs.Confirmer

namespace Outbox

def Job.hash : Job → Hash
  | .submit tx => tx.hash
  | .track hash => hash

/-- What happens to a job. -/
inductive Mark where
  /-- Taken from the queue by a worker, or by the end of a stop. -/
  | taken (worker : Option Nat)
  | submitted (tx : Signed)
  /-- The ledger took the transaction, or did not. -/
  | answered (failure : Option Failure)
  | told (report : Report)

namespace Mark

def report? : Mark → Option Report
  | .told r => some r
  | _ => none

def isSubmission : Mark → Bool
  | .submitted _ => true
  | _ => false

theorem reports_told (rs : List Report) : (rs.map Mark.told).filterMap report? = rs := by
  induction rs with
  | nil => rfl
  | cons r rs ih => exact congrArg (r :: ·) ih

end Mark

/-- What a worker does with a job. -/
inductive Spot where
  | submission
  | watch
deriving DecidableEq

inductive Place where
  | queued
  | desk (worker : Nat) (spot : Spot)
  | gone
deriving DecidableEq

/-- The tickets of what a worker submits and of what it watches. -/
structure Desk where
  hand : Option Nat := none
  watch : List Nat := []

namespace Desk

def tickets (d : Desk) : List Nat := d.hand.toList ++ d.watch

/-- A transaction is submitted first, a hash only watched. -/
def receive (d : Desk) (n : Nat) : Job → Desk
  | .submit _ => { d with hand := some n }
  | .track _ => { d with watch := d.watch ++ [n] }

def Holds (d : Desk) (n : Nat) : Spot → Prop
  | .submission => d.hand = some n
  | .watch => n ∈ d.watch

/-- The worker is at what its desk says. -/
structure Fits (d : Desk) (jobs : List Job) (w : Worker) : Prop where
  hand : d.hand.toList.map (fun n => jobs[n]?) = w.submits.map fun tx => some (.submit tx)
  watch : d.watch.map (fun n => jobs[n]?.map Job.hash) = w.watches.map some
  /-- During a pass all watched hashes belong to it. -/
  pass : w.activity.checks ≠ [] → w.watching = []

variable {d : Desk} {n : Nat}

theorem mem_tickets : n ∈ d.tickets ↔ ∃ s, d.Holds n s := by
  rw [tickets, List.mem_append, Option.mem_toList]
  constructor
  · rintro (h | h)
    · exact ⟨.submission, h⟩
    · exact ⟨.watch, h⟩
  · rintro ⟨s, h⟩
    cases s with
    | submission => exact .inl h
    | watch => exact .inr h

theorem spot_unique (hn : d.tickets.Nodup) {s s' : Spot} (h : d.Holds n s) (h' : d.Holds n s') :
    s = s' := by
  have hboth : ∀ {m}, d.hand = some m → m ∉ d.watch := by
    intro m hm hw
    rw [tickets, hm] at hn
    exact (List.nodup_cons.mp hn).1 hw
  cases s with
  | submission =>
    cases s' with
    | submission => rfl
    | watch => exact absurd h' (hboth h)
  | watch =>
    cases s' with
    | submission => exact absurd h (hboth h')
    | watch => rfl

end Desk

structure Docket where
  /-- All accepted jobs, in the order of acceptance. -/
  jobs : List Job := []
  /-- How many of them have left the queue. -/
  taken : Nat := 0
  desks : List Desk := []
  /-- Newest first. -/
  log : List (Nat × Mark) := []

namespace Docket

/-- Notes down what happens to a ticket, one thing after the other. -/
def note (D : Docket) (n : Nat) (ms : List Mark) : Docket :=
  { D with log := (ms.map fun m => (n, m)).reverse ++ D.log }

/-- What has happened to a ticket so far. -/
def marks (D : Docket) (n : Nat) : List Mark :=
  (D.log.filterMap fun e => if e.1 = n then some e.2 else none).reverse

/-- Every report that was made, newest first. -/
def told (D : Docket) : List Report := D.log.filterMap fun e => e.2.report?

/-- The tickets that were submitted, newest first. -/
def asked (D : Docket) : List Nat := (D.log.filter fun e => e.2.isSubmission).map Prod.fst

def tickets (D : Docket) : List Nat := D.desks.flatMap Desk.tickets

/-- Where a ticket is. -/
inductive At (D : Docket) (n : Nat) : Place → Prop where
  | queued (h : D.taken ≤ n) : At D n .queued
  | desk (i : Nat) (d : Desk) (s : Spot) (hd : D.desks[i]? = some d) (hs : d.Holds n s) :
      At D n (.desk i s)
  | gone (h : n < D.taken) (hd : n ∉ D.tickets) : At D n .gone

/-- Worker `i` is done with one thing that it did with ticket `n`. -/
def turn (D : Docket) (i : Nat) (d : Desk) (n : Nat) (ms : List Mark) : Docket :=
  { D with desks := D.desks.set i d }.note n ms

variable {D : Docket} {i n m : Nat} {d d' : Desk} {s : Spot} {p p' : Place} {ms : List Mark}

theorem marks_note_self : (D.note n ms).marks n = D.marks n ++ ms := by
  have hnew : (ms.map fun x => (n, x)).reverse.filterMap
      (fun e => if e.1 = n then some e.2 else none) = ms.reverse := by
    rw [← List.map_reverse, List.filterMap_map]
    simp
  simp only [marks, note]
  rw [List.filterMap_append, hnew, List.reverse_append, List.reverse_reverse]

theorem marks_note_of_ne (h : m ≠ n) : (D.note n ms).marks m = D.marks m := by
  have hnew : (ms.map fun x => (n, x)).reverse.filterMap
      (fun e => if e.1 = m then some e.2 else none) = [] := by
    rw [← List.map_reverse, List.filterMap_map]
    simp [Ne.symm h]
  simp only [marks, note]
  rw [List.filterMap_append, hnew, List.nil_append]

theorem told_note : (D.note n ms).told = (ms.filterMap Mark.report?).reverse ++ D.told := by
  simp only [told, note]
  rw [List.filterMap_append, ← List.map_reverse, List.filterMap_map, ← List.filterMap_reverse]
  rfl

theorem asked_note : (D.note n ms).asked = (ms.filter Mark.isSubmission).map (fun _ => n) ++
    D.asked := by
  simp only [asked, note]
  rw [List.filter_append, List.map_append, ← List.map_reverse, List.filter_map, List.map_map,
    List.filter_reverse]
  simp [Function.comp_def]

theorem marks_eq_nil (h : ∀ e ∈ D.log, e.1 ≠ n) : D.marks n = [] := by
  simp only [marks, List.reverse_eq_nil_iff, List.filterMap_eq_nil_iff]
  intro e he
  rw [if_neg (h e he)]

theorem mem_tickets :
    n ∈ D.tickets ↔ ∃ (i : Nat) (d : Desk) (s : Spot), D.desks[i]? = some d ∧ d.Holds n s := by
  simp only [tickets, List.mem_flatMap]
  constructor
  · rintro ⟨d, hd, hn⟩
    obtain ⟨i, hi⟩ := List.mem_iff_getElem?.mp hd
    obtain ⟨s, hs⟩ := Desk.mem_tickets.mp hn
    exact ⟨i, d, s, hi, hs⟩
  · rintro ⟨i, d, s, hi, hs⟩
    exact ⟨d, List.mem_of_getElem? hi, Desk.mem_tickets.mpr ⟨s, hs⟩⟩

/-- No ticket lies on two desks. -/
theorem desk_unique (hn : D.tickets.Nodup) {j : Nat} (hd : D.desks[i]? = some d)
    (hd' : D.desks[j]? = some d') (h : n ∈ d.tickets) (h' : n ∈ d'.tickets) : i = j := by
  obtain ⟨hi, rfl⟩ := List.getElem?_eq_some_iff.mp hd
  obtain ⟨hj, rfl⟩ := List.getElem?_eq_some_iff.mp hd'
  have hdisjoint := (List.nodup_flatMap.mp hn).2
  rw [List.pairwise_iff_getElem] at hdisjoint
  rcases Nat.lt_trichotomy i j with hlt | heq | hlt
  · exact absurd h' (hdisjoint i j hi hj hlt h)
  · exact heq
  · exact absurd h (hdisjoint j i hj hi hlt h')

theorem At.unique (hn : D.tickets.Nodup) (ht : ∀ m ∈ D.tickets, m < D.taken) (h : D.At n p)
    (h' : D.At n p') : p = p' := by
  have hdesk : ∀ {i : Nat} {d : Desk} {s : Spot}, D.desks[i]? = some d → d.Holds n s →
      n ∈ D.tickets := fun hd hs =>
    mem_tickets.mpr ⟨_, _, _, hd, hs⟩
  cases h with
  | queued h =>
    cases h' with
    | queued _ => rfl
    | desk j d s hd hs => exact absurd (ht n (hdesk hd hs)) (Nat.not_lt.mpr h)
    | gone h' _ => exact absurd h' (Nat.not_lt.mpr h)
  | desk i d s hd hs =>
    cases h' with
    | queued h => exact absurd (ht n (hdesk hd hs)) (Nat.not_lt.mpr h)
    | desk j d' s' hd' hs' =>
      obtain rfl := desk_unique hn hd hd' (Desk.mem_tickets.mpr ⟨s, hs⟩)
        (Desk.mem_tickets.mpr ⟨s', hs'⟩)
      obtain rfl : d = d' := Option.some.inj (hd.symm.trans hd')
      have hmine : d.tickets.Nodup := (List.nodup_flatMap.mp hn).1 d (List.mem_of_getElem? hd)
      rw [Desk.spot_unique hmine hs hs']
    | gone _ hnot => exact absurd (hdesk hd hs) hnot
  | gone h hnot =>
    cases h' with
    | queued h' => exact absurd h (Nat.not_lt.mpr h')
    | desk j d s hd hs => exact absurd (hdesk hd hs) hnot
    | gone _ _ => rfl

end Docket

/-- What can have happened to a job at the place where it is. Watching ends without a report only
when the crew is over. -/
inductive Job.Story (shut : Prop) : Job → Place → List Mark → Prop where
  | queued (job : Job) : Story shut job .queued []
  | submitted (tx : Signed) (i : Nat) :
      Story shut (.submit tx) (.desk i .submission) [.taken (some i), .submitted tx]
  | refused (tx : Signed) (i : Nat) (f : Failure) (message : String) (release : Option String)
      (hf : f.asSubmission = .submission message release) :
      Story shut (.submit tx) .gone
        [.taken (some i), .submitted tx, .answered (some f),
          .told (.failed tx.hash (.submission message release))]
  | sent (tx : Signed) (i : Nat) :
      Story shut (.submit tx) (.desk i .watch)
        [.taken (some i), .submitted tx, .answered none, .told (.sent tx.hash)]
  | tracked (hash : Hash) (i : Nat) :
      Story shut (.track hash) (.desk i .watch) [.taken (some i), .told (.sent hash)]
  | ended (job : Job) (i : Nat) (ms : List Mark) (r : Report)
      (h : Story shut job (.desk i .watch) ms) (hash : r.hash = job.hash)
      (terminal : r.isTerminal = true) : Story shut job .gone (ms ++ [.told r])
  | unwatched (job : Job) (i : Nat) (ms : List Mark) (h : Story shut job (.desk i .watch) ms)
      (ho : shut) : Story shut job .gone ms
  | dropped (tx : Signed) (ho : shut) :
      Story shut (.submit tx) .gone
        [.taken none, .told (.failed tx.hash (.submission "confirmer stopped" none))]
  | forgotten (hash : Hash) (ho : shut) : Story shut (.track hash) .gone [.taken none]

namespace Job.Story

variable {shut shut' : Prop} {job : Job} {p : Place} {ms : List Mark}

theorem mono (h : job.Story shut p ms) (ho : shut → shut') : job.Story shut' p ms := by
  induction h with
  | queued job => exact .queued job
  | submitted tx i => exact .submitted tx i
  | refused tx i f message release hf => exact .refused tx i f message release hf
  | sent tx i => exact .sent tx i
  | tracked hash i => exact .tracked hash i
  | ended job i ms r _ hash terminal ih => exact .ended job i ms r ih hash terminal
  | unwatched job i ms _ hover ih => exact .unwatched job i ms ih (ho hover)
  | dropped tx hover => exact .dropped tx (ho hover)
  | forgotten hash hover => exact .forgotten hash (ho hover)

/-- Of a transaction that is gone something has been reported. -/
theorem reported {tx : Signed} (h : (Job.submit tx).Story shut .gone ms) :
    ∃ r, .told r ∈ ms ∧ r.hash = tx.hash := by
  have hwatched : ∀ {i ms}, (Job.submit tx).Story shut (.desk i .watch) ms →
      .told (.sent tx.hash) ∈ ms := by
    intro i ms hs
    cases hs with
    | sent _ _ => simp
  cases h with
  | refused _ i f message release _ =>
    exact ⟨.failed tx.hash (.submission message release), by simp, rfl⟩
  | ended _ i ms r hs hash _ => exact ⟨r, by simp, hash⟩
  | unwatched _ i ms hs _ => exact ⟨.sent tx.hash, hwatched hs, rfl⟩
  | dropped _ _ => exact ⟨.failed tx.hash (.submission "confirmer stopped" none), by simp, rfl⟩

end Job.Story

end Outbox
