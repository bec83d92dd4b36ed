import Outbox.Proofs.Send.Effect

namespace Outbox

open Nonce

/-- Reported sent, and no end of it since the last such report. The reports stand newest first. -/
def Report.Unended (hash : Hash) (heard : List Report) : Prop :=
  ∃ later earlier, heard = later ++ .sent hash :: earlier ∧ .sent hash ∉ later ∧
    ∀ r ∈ later, r.hash = hash → r.isTerminal = false

open Report (Unended)

section Reports

variable {hash : Hash} {heard : List Report} {r : Report}

theorem not_unended_nil : ¬Unended hash [] := by
  rintro ⟨later, earlier, h, -, -⟩
  simp at h

theorem eq_sent_of_isTerminal (h : r.isTerminal = false) : r = .sent r.hash := by
  cases r with
  | sent j => rfl
  | confirmed j => simp [Report.isTerminal] at h
  | failed j f => simp [Report.isTerminal] at h

theorem unended_cons :
    Unended hash (r :: heard) ↔ if r.hash = hash then r = .sent hash else Unended hash heard := by
  split
  · next hr =>
    constructor
    · rintro ⟨later, earlier, h, hs, hl⟩
      cases later with
      | nil => exact (List.cons.inj h).1
      | cons x later =>
        obtain ⟨rfl, -⟩ := List.cons.inj h
        have hx := eq_sent_of_isTerminal (hl r List.mem_cons_self hr)
        rw [hr] at hx
        exact absurd (hx ▸ List.mem_cons_self) hs
    · rintro rfl
      exact ⟨[], heard, rfl, by simp, by simp⟩
  · next hr =>
    constructor
    · rintro ⟨later, earlier, h, hs, hl⟩
      cases later with
      | nil =>
        obtain ⟨rfl, -⟩ := List.cons.inj h
        exact absurd rfl hr
      | cons x later =>
        obtain ⟨rfl, htail⟩ := List.cons.inj h
        exact ⟨later, earlier, htail, fun hm => hs (List.mem_cons_of_mem _ hm),
          fun y hy => hl y (List.mem_cons_of_mem _ hy)⟩
    · rintro ⟨later, earlier, rfl, hs, hl⟩
      refine ⟨r :: later, earlier, rfl, fun hm => ?_, fun y hy hyh => ?_⟩
      · rcases List.mem_cons.mp hm with rfl | hm
        · exact hr rfl
        · exact hs hm
      · rcases List.mem_cons.mp hy with rfl | hy
        · exact absurd hyh hr
        · exact hl y hy hyh

theorem Report.Unended.sent_mem (h : Unended hash heard) : .sent hash ∈ heard := by
  obtain ⟨later, earlier, rfl, -, -⟩ := h
  exact List.mem_append_right _ List.mem_cons_self

end Reports

/-- What is remembered of a hash is remembered for a send that is there to be told, or of a
transaction whose end has not been reported. -/
structure Memory.Tidy (m : Memory) (running unended : Prop) : Prop where
  rejection : m.waited = false → m.rejection = none
  waiter : m.waited = true → running
  sent : m.sent = true → m.waited = false → m.unconfirmed = true
  unconfirmed : m.unconfirmed = true ↔ unended

namespace Memory

variable {m : Memory} {running unended : Prop}

theorem Tidy.imp {running' unended' : Prop} (h : m.Tidy running unended) (hr : running → running')
    (hu : unended ↔ unended') : m.Tidy running' unended' :=
  ⟨h.rejection, fun hw => hr (h.waiter hw), h.sent, h.unconfirmed.trans hu⟩

theorem Tidy.settled (h : m.Tidy running unended) : m.settled.Tidy running False where
  rejection := h.rejection
  waiter := h.waiter
  sent := by
    intro hs hw
    have hw' : m.waited = false := hw
    simp [Memory.settled, hw'] at hs
  unconfirmed := by simp [Memory.settled]

theorem Tidy.told (h : m.Tidy running unended) (a : Allocator) (r : Report) :
    (m.told a r).Tidy running (r = .sent r.hash) := by
  cases r with
  | sent j => exact ⟨h.rejection, h.waiter, fun _ _ => rfl, iff_of_true rfl rfl⟩
  | confirmed j => exact h.settled.imp id (by simp)
  | failed j f =>
    cases hq : m.record with
    | none =>
      rw [told_unrecorded hq]
      exact h.settled.imp id (by simp)
    | some q =>
      rw [told_recorded hq]
      obtain ⟨hrej, hwait, hsent, hopen⟩ := h.settled
      refine ⟨fun hw => ?_, hwait, hsent, hopen.trans (by simp)⟩
      have hw' : m.waited = false := hw
      simp only [hw']
      exact h.rejection hw'

end Memory

namespace Tracking

variable {t : Tracking} {running : Hash → Prop} {heard : List Report}

/-- Nothing is kept longer than it is needed. -/
structure LeakFree (t : Tracking) (running : Hash → Prop) (heard : List Report) : Prop where
  rejected : ∀ h, t.rejected.has h → h ∈ t.waiters
  waiters : ∀ h ∈ t.waiters, running h
  sent : ∀ h ∈ t.pending.sent, h ∉ t.waiters → h ∈ t.pending.unconfirmed
  unconfirmed : ∀ h, h ∈ t.pending.unconfirmed ↔ Unended h heard
  idle : (∀ h, ¬running h) → t.waiters = [] ∧ t.rejected = []
  ended : (∀ h, ¬running h) → (∀ h, .sent h ∈ heard → ¬Unended h heard) →
    t.pending.sent = [] ∧ t.pending.unconfirmed = []

theorem memory_waited {h : Hash} : (t.memory h).waited = true ↔ h ∈ t.waiters := by
  simp [memory, isWaiting]

theorem memory_sent {h : Hash} : (t.memory h).sent = true ↔ h ∈ t.pending.sent := by
  simp [memory, Pending.isSent]

theorem memory_unconfirmed {h : Hash} :
    (t.memory h).unconfirmed = true ↔ h ∈ t.pending.unconfirmed := by
  simp [memory, Pending.isUnconfirmed]

theorem leakFree (hm : ∀ h, (t.memory h).Tidy (running h) (Unended h heard)) :
    t.LeakFree running heard := by
  have hunwaited : ∀ {h}, h ∉ t.waiters → (t.memory h).waited = false := fun hw =>
    Bool.eq_false_iff.mpr fun htrue => hw (memory_waited.mp htrue)
  have hwaiters : ∀ h ∈ t.waiters, running h := fun h hw => (hm h).waiter (memory_waited.mpr hw)
  have hrejected : ∀ h, t.rejected.has h → h ∈ t.waiters := by
    intro h hr
    by_contra hw
    have hnone : t.rejected.get? h = none := (hm h).rejection (hunwaited hw)
    simp [Keyed.has, hnone] at hr
  have hsent : ∀ h ∈ t.pending.sent, h ∉ t.waiters → h ∈ t.pending.unconfirmed := fun h hs hw =>
    memory_unconfirmed.mp ((hm h).sent (memory_sent.mpr hs) (hunwaited hw))
  have hopen : ∀ h, h ∈ t.pending.unconfirmed ↔ Unended h heard := fun h =>
    memory_unconfirmed.symm.trans (hm h).unconfirmed
  refine ⟨hrejected, hwaiters, hsent, hopen, fun hidle => ⟨?_, ?_⟩, fun hidle hall => ?_⟩
  · exact List.eq_nil_iff_forall_not_mem.mpr fun h hw => hidle h (hwaiters h hw)
  · cases hr : t.rejected with
    | nil => rfl
    | cons e rest =>
      have hhas : t.rejected.has e.1 = true := by simp [Keyed.has, Keyed.get?, hr]
      exact absurd (hwaiters _ (hrejected _ hhas)) (hidle _)
  · have hnone : ∀ h, h ∉ t.pending.unconfirmed := fun h hu => by
      have hun := (hopen h).mp hu
      exact hall h hun.sent_mem hun
    refine ⟨List.eq_nil_iff_forall_not_mem.mpr fun h hs => ?_,
      List.eq_nil_iff_forall_not_mem.mpr hnone⟩
    exact hnone h (hsent h hs fun hw => hidle h (hwaiters h hw))

theorem memory_addWaiter (t : Tracking) (h j : Hash) :
    (t.addWaiter h).memory j =
      if j = h then { t.memory j with waited := true } else t.memory j := by
  by_cases hj : j = h <;> simp [memory, addWaiter, isWaiting, hj]

theorem memory_recordEnqueued (t : Tracking) (h : Hash) (q : Reservation) (j : Hash) :
    (t.recordEnqueued h q).memory j =
      if j = h then { t.memory j with record := some q } else t.memory j := by
  by_cases hj : j = h <;> simp [memory, recordEnqueued, isWaiting, hj, Keyed.get?_put]

theorem memory_takeRejection (t : Tracking) (h j : Hash) :
    (t.takeRejection h).2.memory j =
      if j = h then { t.memory j with rejection := none } else t.memory j := by
  by_cases hj : j = h <;> simp [memory, takeRejection, isWaiting, hj, Keyed.get?_erase]

theorem memory_clearSent (t : Tracking) (h j : Hash) :
    ({ t with pending := t.pending.clearSent h } : Tracking).memory j =
      if j = h then { t.memory j with sent := false } else t.memory j := by
  by_cases hj : j = h <;>
    simp [memory, isWaiting, hj, Pending.isSent_clearSent, Pending.isUnconfirmed_clearSent]

end Tracking

/-- What is tracked, and who waits. -/
structure Vigil where
  tracking : Tracking := {}
  /-- Sends that have begun to wait and are not gone yet, and the hash of each. -/
  running : Keyed SendId Hash := []
  /-- Newest first. -/
  heard : List Report := []

namespace Vigil

/-- A single thing that a send that waits, or somebody who reports, does to what is tracked. -/
inductive Act where
  | begins (k : SendId) (hash : Hash)
  | records (k : SendId) (r : Reservation)
  /-- The hand-over was refused. -/
  | forgets (k : SendId)
  /-- Takes the failure that is kept for it, if there is one. -/
  | takes (k : SendId)
  /-- Has seen the end of its transaction. -/
  | clears (k : SendId)
  /-- The send returns, runs out of time, is given up, or could not hand over. -/
  | ends (k : SendId)
  /-- A report that finds the numbers in this state. -/
  | hears (a : Allocator) (r : Report)

/-- Does something for the hash that send `k` waits for. -/
def touch (v : Vigil) (k : SendId) (f : Tracking → Hash → Tracking) : Vigil :=
  match v.running.get? k with
  | none => v
  | some hash => { v with tracking := f v.tracking hash }

def step (v : Vigil) : Act → Vigil
  | .begins k hash =>
    if v.running.has k then v
    else { v with tracking := v.tracking.addWaiter hash, running := v.running.put k hash }
  | .records k r => v.touch k fun t hash => t.recordEnqueued hash r
  | .forgets k => v.touch k Tracking.forgetEnqueued
  | .takes k => v.touch k fun t hash => (t.takeRejection hash).2
  | .clears k => v.touch k fun t hash => { t with pending := t.pending.clearSent hash }
  | .ends k => { v.touch k Tracking.removeWaiter with running := v.running.erase k }
  | .hears a r => { v with tracking := (v.tracking.report a r).1, heard := r :: v.heard }

def run (v : Vigil) (acts : List Act) : Vigil := acts.foldl step v

def Waits (v : Vigil) (hash : Hash) : Prop := ∃ k, v.running.get? k = some hash

/-- Every hash is remembered tidily. -/
def Tidy (v : Vigil) : Prop :=
  ∀ h, (v.tracking.memory h).Tidy (v.Waits h) (Unended h v.heard)

variable {v : Vigil} {k : SendId} {hash : Hash}

theorem tidy_fresh : Tidy {} := by
  intro h
  refine ⟨fun _ => rfl, fun hw => ?_, fun hs => ?_, iff_of_false ?_ not_unended_nil⟩
  · simp [Tracking.memory, Tracking.isWaiting] at hw
  · simp [Tracking.memory, Pending.isSent] at hs
  · simp [Tracking.memory, Pending.isUnconfirmed]

/-- What is done for one hash, and neither brings nor takes a waiting send, needs a look at that
hash only. -/
theorem Tidy.touch (hv : v.Tidy) (k : SendId) {f : Tracking → Hash → Tracking} (g : Memory → Memory)
    (hf : ∀ t h j, (f t h).memory j = if j = h then g (t.memory j) else t.memory j)
    (hg : ∀ {m running unended}, m.Tidy running unended → (g m).Tidy running unended) :
    (v.touch k f).Tidy := by
  unfold Vigil.touch
  split
  · exact hv
  · next hash _ =>
    intro j
    have hj := hv j
    rw [hf v.tracking hash j]
    split
    · exact hg hj
    · exact hj

theorem Tidy.begins (hv : v.Tidy) (k : SendId) (hash : Hash) : (v.step (.begins k hash)).Tidy := by
  simp only [Vigil.step]
  split
  · exact hv
  · next hk =>
    have hnone : v.running.get? k = none := by simpa [Keyed.has] using hk
    intro j
    have hmono : v.Waits j → ∃ i, (v.running.put k hash).get? i = some j := by
      rintro ⟨i, hi⟩
      have hne : i ≠ k := by
        rintro rfl
        rw [hnone] at hi
        simp at hi
      exact ⟨i, (Keyed.get?_put_of_ne _ _ hne).trans hi⟩
    have hj := (hv j).imp hmono Iff.rfl
    show ((v.tracking.addWaiter hash).memory j).Tidy _ _
    rw [Tracking.memory_addWaiter]
    split
    · next heq =>
      refine ⟨by simp, fun _ => ⟨k, ?_⟩, by simp, hj.unconfirmed⟩
      rw [heq]
      exact Keyed.get?_put_self _ _ _
    · exact hj

theorem Tidy.ends (hv : v.Tidy) (k : SendId) : (v.step (.ends k)).Tidy := by
  intro j
  have hj := hv j
  simp only [Vigil.step, Vigil.touch]
  cases hk : v.running.get? k with
  | none =>
    simp only
    rw [Keyed.erase_of_get?_none hk]
    exact hj
  | some hash =>
    show ((v.tracking.removeWaiter hash).memory j).Tidy _ _
    rw [Tracking.memory_removeWaiter]
    split
    · exact ⟨fun _ => rfl, by simp, by simp, hj.unconfirmed⟩
    · next hne =>
      refine hj.imp ?_ Iff.rfl
      rintro ⟨i, hi⟩
      have hik : i ≠ k := by
        rintro rfl
        rw [hk] at hi
        exact hne (Option.some.inj hi).symm
      exact ⟨i, (Keyed.get?_erase_of_ne _ hik).trans hi⟩

theorem Tidy.hears (hv : v.Tidy) (a : Allocator) (r : Report) : (v.step (.hears a r)).Tidy := by
  intro j
  have hj := hv j
  show ((v.tracking.report a r).1.memory j).Tidy (v.Waits j) (Unended j (r :: v.heard))
  rw [Tracking.memory_report, unended_cons]
  by_cases hr : j = r.hash
  · subst hr
    simp only [if_true]
    exact hj.told a r
  · simp only [if_neg hr, if_neg (Ne.symm hr)]
    exact hj

theorem Tidy.step (hv : v.Tidy) (x : Act) : (v.step x).Tidy := by
  cases x with
  | begins k hash => exact hv.begins k hash
  | records k r =>
    exact hv.touch k (fun m => { m with record := some r })
      (fun t h j => t.memory_recordEnqueued h r j) fun h =>
      ⟨h.rejection, h.waiter, h.sent, h.unconfirmed⟩
  | forgets k =>
    exact hv.touch k (fun m => { m with record := none }) Tracking.memory_forgetEnqueued fun h =>
      ⟨h.rejection, h.waiter, h.sent, h.unconfirmed⟩
  | takes k =>
    exact hv.touch k (fun m => { m with rejection := none }) Tracking.memory_takeRejection fun h =>
      ⟨fun _ => rfl, h.waiter, h.sent, h.unconfirmed⟩
  | clears k =>
    exact hv.touch k (fun m => { m with sent := false }) Tracking.memory_clearSent fun h =>
      ⟨h.rejection, h.waiter, by simp, h.unconfirmed⟩
  | ends k => exact hv.ends k
  | hears a r => exact hv.hears a r

theorem Tidy.run (hv : v.Tidy) (acts : List Act) : (v.run acts).Tidy := by
  induction acts generalizing v with
  | nil => exact hv
  | cons x acts ih => exact ih (hv.step x)

theorem run_append (v : Vigil) (xs ys : List Act) : v.run (xs ++ ys) = (v.run xs).run ys :=
  List.foldl_append

end Vigil

namespace Dispatch

open Vigil (Act)

/-- What has been reported, newest first. -/
def reports (events : List Event) : List Report :=
  events.filterMap fun
    | .reported r => some r
    | _ => none

/-- The sends of `d` that wait, and what they and reports have done to what is tracked. -/
structure Mirrors (v : Vigil) (d : Dispatch) : Prop where
  tracking : v.tracking = d.tracking
  running : ∀ k hash, v.running.get? k = some hash ↔ d.Waits k hash
  heard : v.heard = reports d.events

variable {v : Vigil} {d d' : Dispatch} {k : SendId} {hash : Hash}

theorem reports_asides {asides : List Event} (h : ∀ x ∈ asides, x.Aside) (events : List Event) :
    reports (asides ++ events) = reports events := by
  induction asides with
  | nil => rfl
  | cons x asides ih =>
    have hx := h x List.mem_cons_self
    have hrest := ih fun y hy => h y (List.mem_cons_of_mem _ hy)
    cases x with
    | tracked j => exact hrest
    | checked j n => exact hrest
    | enqueued j n => exact absurd hx id
    | reported r => exact absurd hx id

theorem Mirrors.absent (h : Mirrors v d) (hk : ∀ g, ¬d.Waits k g) : v.running.get? k = none := by
  cases hg : v.running.get? k with
  | none => rfl
  | some g => exact absurd ((h.running k g).mp hg) (hk g)

theorem Mirrors.reportAll (h : Mirrors v d) (rs : List Report) :
    ∃ acts, Mirrors (v.run acts) (d.reportAll rs) := by
  induction rs generalizing v d with
  | nil => exact ⟨[], h⟩
  | cons r rs ih =>
    have hr : Mirrors (v.step (.hears d.allocator r)) (d.report r) := by
      refine ⟨?_, h.running, ?_⟩
      · show (v.tracking.report d.allocator r).1 = _
        rw [h.tracking]
        rfl
      · show r :: v.heard = _
        rw [h.heard]
        rfl
    obtain ⟨acts, hacts⟩ := ih hr
    exact ⟨.hears d.allocator r :: acts, hacts⟩

/-- A send that begins to wait for a hash that it records. -/
theorem Mirrors.offers (h : Mirrors v d) (hk : ∀ g, ¬d.Waits k g) (hash : Hash) (r : Reservation) :
    v.run [.begins k hash, .records k r] =
      { v with
        tracking := (d.tracking.addWaiter hash).recordEnqueued hash r
        running := v.running.put k hash } := by
  have hnone := h.absent hk
  have hbegins : v.step (.begins k hash) =
      { v with tracking := v.tracking.addWaiter hash, running := v.running.put k hash } := by
    simp [Vigil.step, Keyed.has, hnone]
  show (v.step (.begins k hash)).step (.records k r) = _
  rw [hbegins]
  simp only [Vigil.step, Vigil.touch, Keyed.get?_put_self]
  rw [h.tracking]

theorem Mirrors.effect (h : Mirrors v d) {o : Option SendId} (he : Effect o d d') :
    ∃ acts, Mirrors (v.run acts) d' := by
  cases he with
  | hears e asides rs ha ht hw hev _ =>
    have hmid : Mirrors v e := by
      refine ⟨h.tracking.trans ht.symm, fun k g => (h.running k g).trans (hw k g).symm, ?_⟩
      rw [h.heard, hev, reports_asides ha]
    exact hmid.reportAll rs
  | offers k hash r n d' _ hk ht hw hev =>
    refine ⟨[.begins k hash, .records k r], ?_⟩
    rw [h.offers hk hash r]
    refine ⟨ht.symm, fun j g => ?_, ?_⟩
    · show (v.running.put k hash).get? j = some g ↔ _
      rw [Keyed.get?_put, hw j g, ← h.running j g]
      by_cases hj : j = k
      · subst hj
        simp [h.absent hk, eq_comm]
      · simp [hj]
    · show v.heard = _
      rw [h.heard, hev]
      rfl
  | withdraws k hash n d' _ hk ht hw hev =>
    obtain ⟨r, ht⟩ := ht
    have herase : (v.running.put k hash).erase k = v.running := by
      have hnone := h.absent hk
      simp only [Keyed.put, Keyed.erase, List.filter_cons]
      simp only [ne_eq, not_true_eq_false, decide_false, Bool.false_eq_true, if_false]
      exact (congrArg _ (Keyed.erase_of_get?_none hnone)).trans (Keyed.erase_of_get?_none hnone)
    have hend : ∀ t : Tracking, t = d'.tracking →
        Mirrors { v with tracking := t, running := v.running } d' := by
      rintro t rfl
      refine ⟨rfl, fun j g => (h.running j g).trans (hw j g).symm, ?_⟩
      show v.heard = _
      rw [h.heard, hev]
      rfl
    rcases ht with ht | ht
    · refine ⟨[.begins k hash, .records k r] ++ [.ends k], ?_⟩
      rw [Vigil.run_append, h.offers hk hash r]
      simp only [Vigil.run, List.foldl_cons, List.foldl_nil, Vigil.step, Vigil.touch,
        Keyed.get?_put_self, herase]
      exact hend _ ht.symm
    · refine ⟨[.begins k hash, .records k r] ++ [.forgets k, .ends k], ?_⟩
      rw [Vigil.run_append, h.offers hk hash r]
      simp only [Vigil.run, List.foldl_cons, List.foldl_nil, Vigil.step, Vigil.touch,
        Keyed.get?_put_self, herase]
      exact hend _ ht.symm
  | leaves k hash d' hk ht hw hev =>
    refine ⟨[.ends k], ?_⟩
    have hrun := (h.running k hash).mpr hk
    simp only [Vigil.run, List.foldl_cons, List.foldl_nil, Vigil.step, Vigil.touch, hrun]
    refine ⟨?_, fun j g => ?_, ?_⟩
    · show v.tracking.removeWaiter hash = _
      rw [h.tracking, ht]
    · show (v.running.erase k).get? j = some g ↔ _
      rw [Keyed.get?_erase, hw j g, ← h.running j g]
      by_cases hj : j = k <;> simp [hj]
    · show v.heard = _
      rw [h.heard, hev]

theorem Mirrors.run (h : Mirrors v d) (labels : List Label) :
    ∃ acts, Mirrors (v.run acts) (d.run labels) := by
  induction labels generalizing v d with
  | nil => exact ⟨[], h⟩
  | cons l labels ih =>
    obtain ⟨acts, hacts⟩ := h.effect (step_effect d l)
    obtain ⟨more, hmore⟩ := ih hacts
    refine ⟨acts ++ more, ?_⟩
    rw [Vigil.run_append]
    exact hmore

/-- What a dispatch tracks comes about by single acts of sends that wait and of those who report. -/
theorem mirrors_run (terms : Terms) (tip baseFee : Fee.Shared SendId) (capacity : Nat)
    (tracker : Tracker) (labels : List Label) :
    ∃ acts, Mirrors (({} : Vigil).run acts)
      ((fresh terms tip baseFee capacity tracker).run labels) := by
  refine Mirrors.run ⟨rfl, fun k hash => ?_, rfl⟩ labels
  refine iff_of_false (by simp [Keyed.get?]) ?_
  rintro ⟨s, hs, -⟩
  simp [fresh, Keyed.get?] at hs

theorem tidy_run (terms : Terms) (tip baseFee : Fee.Shared SendId) (capacity : Nat)
    (tracker : Tracker) (labels : List Label) (h : Hash) :
    let d := (fresh terms tip baseFee capacity tracker).run labels
    (d.tracking.memory h).Tidy (∃ k, d.Waits k h) (Unended h (reports d.events)) := by
  intro d
  obtain ⟨acts, hm⟩ := mirrors_run terms tip baseFee capacity tracker labels
  have ht := Vigil.tidy_fresh.run acts h
  rw [hm.tracking, hm.heard] at ht
  exact ht.imp (fun ⟨k, hk⟩ => ⟨k, (hm.running k h).mp hk⟩) Iff.rfl

/-- However sends come to wait and go, and whatever is reported in between: nothing is kept longer
than somebody waits for it or its end is due. This holds of the single acts in any order, and of a
dispatch after any steps. -/
theorem nothing_kept_for_nobody :
    (∀ acts : List Act,
      let v := ({} : Vigil).run acts
      v.tracking.LeakFree v.Waits v.heard) ∧
    ∀ (terms : Terms) (tip baseFee : Fee.Shared SendId) (capacity : Nat) (tracker : Tracker)
      (labels : List Label),
      let d := (fresh terms tip baseFee capacity tracker).run labels
      d.tracking.LeakFree (fun h => ∃ k, d.Waits k h) (reports d.events) := by
  refine ⟨fun acts => ?_, fun terms tip baseFee capacity tracker labels => ?_⟩
  · exact Tracking.leakFree (Vigil.tidy_fresh.run acts)
  · exact Tracking.leakFree (tidy_run terms tip baseFee capacity tracker labels)

end Dispatch

end Outbox
