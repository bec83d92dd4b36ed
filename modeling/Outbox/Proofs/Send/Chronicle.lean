import Outbox.Proofs.Send.Crewed

namespace Outbox

open Ledger Nonce

/-- A dispatch, and what has happened in it to `who`'s numbers. -/
structure Chronicle where
  dispatch : Dispatch
  /-- The first number of the identity's state. -/
  start? : Option Nat := none
  /-- What the ledger took, newest first. -/
  accepted : List Signed := []
  handed : List HandOver := []
  /-- A stop has come to its end. -/
  stopped : Bool := false

namespace Chronicle

open Dispatch

def step (who : Address) (c : Chronicle) (l : Label) : Chronicle where
  dispatch := c.dispatch.step l
  start? := c.start?.or (c.dispatch.opening who l)
  accepted := c.dispatch.takenBy l ++ c.accepted
  handed := c.dispatch.handedBy l ++ c.handed
  stopped := c.stopped || c.dispatch.stops l

def run (who : Address) (c : Chronicle) (labels : List Label) : Chronicle :=
  labels.foldl (step who) c

/-- No send yet, and a crew just started. -/
def fresh (terms : Terms) (tip baseFee : Fee.Shared SendId) (capacity : Nat) (crew : Confirmer) :
    Chronicle :=
  { dispatch :=
      { Dispatch.fresh terms tip baseFee capacity { confirmer := some crew.start } with
        started := true } }

/-- Each number of `who` is in one place. -/
structure InOnePlace (who : Address) (c : Chronicle) : Prop where
  /-- Accepted, carried by a send that submits by itself, recorded, or free again: these are, each
  once, the numbers from the state's first one up to the next. -/
  places : ∀ s, c.dispatch.allocator.entries.get? who = some s →
    ∃ start, c.start? = some start ∧ start ≤ s.next ∧
      (numbersFrom who c.accepted ++ (carried c.dispatch.sends who).map (·.nonce) ++
        (deposited c.dispatch.tracking.enqueued who).map (·.nonce) ++ s.reclaimed).Perm
          (List.range' start (s.next - start))
  absent : c.dispatch.allocator.entries.get? who = none →
    numbersFrom who c.accepted = [] ∧ carried c.dispatch.sends who = [] ∧
      deposited c.dispatch.tracking.enqueued who = []
  accepted : (numbersFrom who c.accepted).Nodup
  /-- The records are those of the jobs that wait in the queue or are being submitted. -/
  jobs : ∀ crew, c.dispatch.tracker.confirmer = some crew →
    (noted c.dispatch.tracking.enqueued who).Perm (due crew.unsubmitted who)
  stopped : c.stopped = true → deposited c.dispatch.tracking.enqueued who = []

variable {who : Address} {all : List HandOver} {c : Chronicle} {crew : Confirmer}

theorem evictions_run (who : Address) (c : Chronicle) (labels : List Label) :
    c.dispatch.allocator.evictions <:+ (c.run who labels).dispatch.allocator.evictions := by
  induction labels generalizing c with
  | nil => exact List.suffix_rfl
  | cons l labels ih => exact (step_moves c.dispatch l).evictions.trans (ih (c.step who l))

theorem handed_run (who : Address) (c : Chronicle) (labels : List Label) :
    ∀ x ∈ c.handed, x ∈ (c.run who labels).handed := by
  induction labels generalizing c with
  | nil => exact fun x hx => hx
  | cons l labels ih => exact fun x hx => ih (c.step who l) x (List.mem_append_right _ hx)

/-- What a run preserves; `all` is what it hands over up to its end. -/
theorem custody_run (h : InCustody who all c.start? c.accepted [] [] crew c.dispatch)
    (hs : c.stopped = true → crew.Closed)
    (hinj : ∀ x ∈ all, ∀ y ∈ all, x.hash = y.hash → x = y) (labels : List Label)
    (hl : ∀ l ∈ labels, l.Usual who)
    (he : ¬(c.run who labels).dispatch.allocator.Evicted who)
    (hall : ∀ x ∈ (c.run who labels).handed, x ∈ all)
    (htrack : ∀ hash, .track hash ∈ labels → ∀ x ∈ all, x.hash ≠ hash) :
    ∃ crew', InCustody who all (c.run who labels).start? (c.run who labels).accepted [] [] crew'
        (c.run who labels).dispatch ∧ ((c.run who labels).stopped = true → crew'.Closed) := by
  induction labels generalizing c crew with
  | nil => exact ⟨crew, h, hs⟩
  | cons l labels ih =>
    have hev : ¬(c.dispatch.step l).allocator.Evicted who := fun hev =>
      he (hev.mono (evictions_run who (c.step who l) labels))
    have hnew : ∀ x ∈ c.dispatch.handedBy l, x ∈ all := fun x hx =>
      hall x (handed_run who (c.step who l) labels x (List.mem_append_left _ hx))
    have htr : ∀ hash, l = .track hash → ∀ x ∈ all, x.hash ≠ hash := fun hash hl' =>
      htrack hash (hl' ▸ List.mem_cons_self)
    obtain ⟨crew', hin, hcl, hst⟩ := h.step hinj l (hl l List.mem_cons_self) hev hnew htr
    refine ih (c := c.step who l) hin (fun hstop => ?_)
      (fun l' hm => hl l' (List.mem_cons_of_mem _ hm)) he hall
      fun hash hm => htrack hash (List.mem_cons_of_mem _ hm)
    rcases Bool.or_eq_true_iff.mp hstop with hstop | hstop
    · exact hcl (hs hstop)
    · exact hst hstop

theorem inOnePlace (h : InCustody who all c.start? c.accepted [] [] crew c.dispatch)
    (hs : c.stopped = true → crew.Closed) : c.InOnePlace who := by
  have howes := h.custody.holdings.owes
  rw [List.nil_append] at howes
  refine ⟨fun s hres => ?_, fun hres => ?_, (List.nodup_append.mp howes.nodup).1, fun crew' hc => ?_,
    fun hstop => ?_⟩
  · obtain ⟨start, h0, hacc, _⟩ := (Allocator.owes_some hres).mp howes
    refine ⟨start, h0, hacc.start_le, List.Perm.trans ?_ hacc.perm⟩
    refine List.perm_iff_count.mpr fun n => ?_
    simp only [List.map_append, List.count_append]
    omega
  · obtain ⟨_, hacc, hrest⟩ := (Allocator.owes_none hres).mp howes
    obtain ⟨hdep, hcar⟩ := List.append_eq_nil_iff.mp hrest
    exact ⟨hacc, hcar, hdep⟩
  · obtain rfl : crew = crew' := Option.some.inj (h.crew.symm.trans hc)
    exact h.custody.matched
  · have hm := h.custody.matched
    rw [(hs hstop).2] at hm
    have hn := congrArg (List.map Prod.snd) hm.eq_nil
    rw [map_snd_noted, List.map_nil] at hn
    exact List.map_eq_nil_iff.mp hn

theorem custody_fresh (who : Address) (all : List HandOver) (terms : Terms)
    (tip baseFee : Fee.Shared SendId) (capacity size crew interval : Nat) (depth : Option Nat)
    (chainId : Nat) :
    InCustody who all none [] [] [] (Confirmer.ofSettings size crew interval depth chainId).start
      (fresh terms tip baseFee capacity
        (.ofSettings size crew interval depth chainId)).dispatch := by
  generalize hc : Confirmer.ofSettings size crew interval depth chainId = c
  have hempty : c.unsubmitted = [] ∧ c.watched = [] ∧ c.tracks = [] := by
    rw [← hc]
    exact ⟨rfl, rfl, rfl⟩
  have hstarted : c.start.started = true := by
    rw [← hc]
    rfl
  have hidle : c.start.unsubmitted = [] ∧ c.start.watched = [] ∧ c.start.tracks = [] := by
    cases c.handles_start with
    | watches _ _ keeps jobs watched tracks reports =>
      rw [hempty.1] at jobs
      rw [hempty.2.1, hempty.2.2] at watched
      rw [hempty.2.2] at tracks
      exact ⟨jobs.eq_nil, List.eq_nil_iff_forall_not_mem.mpr fun h hm => by simpa using watched h hm,
        List.eq_nil_iff_forall_not_mem.mpr fun h hm => by simpa using tracks h hm⟩
  refine ⟨rfl, hstarted, rfl, by simp [fresh, Dispatch.fresh, Keyed.get?], ?_⟩
  rw [hidle.1, hidle.2.1, hidle.2.2]
  exact ⟨.empty who capacity, List.nodup_nil, by simp [fresh, Dispatch.fresh, Keyed.get?], by simp,
    .refl _, by simp, by simp⟩

/-- After any steps of sends, of a crew and of the ledger, each number of an identity that was
neither reset nor evicted is in one place, if different numbers have different hashes and no hash
that was handed over was also given to be tracked. The counter is endless: the last number of 64
bits could not be given back (`State.release_last`). -/
theorem numbers_in_one_place (terms : Terms) (tip baseFee : Fee.Shared SendId)
    (capacity size crew interval : Nat) (depth : Option Nat) (chainId : Nat) (who : Address)
    (labels : List Label) (hl : ∀ l ∈ labels, l.Usual who) :
    let c := (fresh terms tip baseFee capacity
      (.ofSettings size crew interval depth chainId)).run who labels
    ¬c.dispatch.allocator.Evicted who →
      (∀ x ∈ c.handed, ∀ y ∈ c.handed, x.hash = y.hash → x = y) →
      (∀ hash, .track hash ∈ labels → ∀ x ∈ c.handed, x.hash ≠ hash) → c.InOnePlace who := by
  intro c he hinj htrack
  obtain ⟨crew', hin, hs⟩ := custody_run
    (custody_fresh who c.handed terms tip baseFee capacity size crew interval depth chainId)
    (fun hs => by simp [fresh] at hs) hinj labels hl he (fun x hx => hx) htrack
  exact inOnePlace hin hs

/-- The ledger takes the first transaction and refuses the second one, whose number goes to the third
send. A fourth send is cancelled, and a fifth one hands over. -/
def busy : List Label :=
  Sample.first 1 .async 0 ++ [.answer 1 (.ok (.accepted (Sample.signed 0).hash)) 0] ++
    Sample.begin 2 .async ++ [.answer 2 (.error (.submission "refused" none)) 0] ++
    Sample.begin 3 .async ++ Sample.begin 4 .async ++ Sample.begin 5 .sync ++ [.cancel 4]

/-- The crew is stopped while it submits what was handed over. -/
def closing : List Label :=
  [.take 0, .stop, .workerAnswer 0 (.ok (.accepted (Sample.signed 3).hash)), .drain]

theorem busy_in_one_place :
    let who := Sample.signer.address
    let begun := fresh Sample.terms Sample.fees Sample.fees 4 (.ofSettings 2 1 1000 none 1)
    let c := begun.run who busy
    let e := begun.run who (busy ++ closing)
    numbersFrom who c.accepted = [0] ∧ (carried c.dispatch.sends who).map (·.nonce) = [1] ∧
      (deposited c.dispatch.tracking.enqueued who).map (·.nonce) = [3] ∧
      c.dispatch.allocator.entries.get? who = some ⟨4, [2], 1⟩ ∧ c.InOnePlace who ∧
      numbersFrom who e.accepted = [3, 0] ∧ (carried e.dispatch.sends who).map (·.nonce) = [1] ∧
      deposited e.dispatch.tracking.enqueued who = [] ∧
      e.dispatch.allocator.entries.get? who = some ⟨4, [2], 1⟩ ∧ e.stopped = true ∧
      e.InOnePlace who := by
  intro who begun c e
  have husual : ∀ l ∈ busy ++ closing, l.Usual who := by
    intro l hl
    simp only [busy, closing, Sample.first, Sample.begin, List.mem_append, List.mem_cons,
      List.not_mem_nil, or_false] at hl
    casesm* _ ∨ _ <;> subst l <;> simp [Label.Usual]
  have hplaced : ∀ labels, labels <+: busy ++ closing →
      (begun.run who labels).dispatch.allocator.evictions = [] →
      (begun.run who labels).handed.length = 1 → (begun.run who labels).InOnePlace who := by
    intro labels hearlier hevictions hhanded
    refine numbers_in_one_place Sample.terms Sample.fees Sample.fees 4 2 1 1000 none 1 who labels
      (fun l hl => husual l (hearlier.subset hl)) ?_ ?_ ?_
    · rintro ⟨v, hv, -⟩
      change v ∈ (begun.run who labels).dispatch.allocator.evictions at hv
      rw [hevictions] at hv
      simp at hv
    · obtain ⟨h, hone⟩ := List.length_eq_one_iff.mp hhanded
      intro x hx y hy _
      change x ∈ (begun.run who labels).handed at hx
      change y ∈ (begun.run who labels).handed at hy
      rw [hone, List.mem_singleton] at hx hy
      rw [hx, hy]
    · intro hash hm
      have htrack := hearlier.subset hm
      simp [busy, closing, Sample.first, Sample.begin] at htrack
  have hc : c.InOnePlace who := by
    apply hplaced busy (List.prefix_append _ _)
    · decide +kernel
    · decide +kernel
  have he : e.InOnePlace who := by
    apply hplaced (busy ++ closing) List.prefix_rfl
    · decide +kernel
    · decide +kernel
  have hstopped : e.stopped = true := by decide +kernel
  refine ⟨?_, ?_, ?_, ?_, hc, ?_, ?_, he.stopped hstopped, ?_, hstopped, he⟩ <;> decide +kernel

end Chronicle

end Outbox
