import Outbox.Proofs.Nonce.History

namespace Outbox.Nonce

/-- The mark of a number that is given back, if the state that is there takes it. -/
def releaseMarks (a : Allocator) (who : Address) (n : Nat) (generation : Option Nat) : List Mark :=
  match a.entries.get? who, (a.release who n generation).1 with
  | some s, .ok () => [.returned ⟨who, n, s.generation⟩]
  | _, _ => []

section ReleaseMarks

variable {a : Allocator} {who : Address} {n : Nat} {generation : Option Nat}

theorem mem_releaseMarks {m : Mark} (h : m ∈ releaseMarks a who n generation) :
    ∃ g, m = .returned ⟨who, n, g⟩ := by
  simp only [releaseMarks] at h
  split at h
  · exact ⟨_, List.mem_singleton.mp h⟩
  · simp at h

theorem releaseMarks_of_refused {e : Refusal}
    (h : (a.release who n generation).1 = .error e) : releaseMarks a who n generation = [] := by
  simp only [releaseMarks, h]
  cases a.entries.get? who <;> rfl

theorem releaseMarks_of_taken {s : State} (hs : a.entries.get? who = some s)
    (h : (a.release who n generation).1 = .ok ()) :
    releaseMarks a who n generation = [.returned ⟨who, n, s.generation⟩] := by
  simp only [releaseMarks, hs, h]

end ReleaseMarks

/-- One dealing with an allocator, and the marks it leaves. -/
inductive Dealing [Counter] : Allocator → List Mark → Allocator → Prop where
  | issues {a a' : Allocator} {who : Address} {r : Reservation} (h : a.take? who = some (r, a')) :
      Dealing a [.issued r] a'
  | creates (a : Allocator) (who : Address) (n : Nat) :
      Dealing a [.created who (a.generations + 1) n] (a.reset who n)
  | returns (a : Allocator) (who : Address) (n : Nat) (generation : Option Nat) :
      Dealing a (releaseMarks a who n generation) (a.release who n generation).2

/-- Dealings one after the other; the marks stand newest first. -/
inductive Dealings [Counter] : Allocator → List Mark → Allocator → Prop where
  | none (a : Allocator) : Dealings a [] a
  | more {a b c : Allocator} {older newer : List Mark} (h : Dealings a older b)
      (hx : Dealing b newer c) : Dealings a (newer ++ older) c

namespace Dealings

variable {a b c : Allocator} {older newer marks : List Mark} {r : Reservation} {who : Address}

theorem one [Counter] (h : Dealing a marks b) : Dealings a marks b := by
  have hmore := (none a).more h
  rwa [List.append_nil] at hmore

theorem trans [Counter] (h : Dealings a older b) (g : Dealings b newer c) :
    Dealings a (newer ++ older) c := by
  induction g with
  | none => exact h
  | more _ hx ih =>
    rw [List.append_assoc]
    exact ih.more hx

/-- What every dealing keeps is kept. -/
theorem keep [Counter] {P : Allocator → List Mark → Prop}
    (hP : ∀ {a b newer older}, Dealing a newer b → P a older → P b (newer ++ older))
    (h : Dealings a newer b) (ha : P a older) : P b (newer ++ older) := by
  induction h with
  | none => exact ha
  | more _ hx ih =>
    rw [List.append_assoc]
    exact hP hx ih

/-- An answer of the ledger creates a state first, unless there is one. -/
theorem install [Counter] (a : Allocator) (who : Address) (n : Nat) :
    Dealings a (installMarks a who n) (a.install who n).2 := by
  simp only [installMarks]
  cases ht : a.take? who with
  | some p =>
    rw [Allocator.install_of_take? ht]
    exact one (.issues ht)
  | none =>
    have hnew := Allocator.install_of_absent (Allocator.take?_eq_none.mp ht) n
    exact (one (.creates a who n)).more (.issues hnew)

theorem giveBackMarks_eq (a : Allocator) (r : Reservation) :
    giveBackMarks a r = releaseMarks a r.identity r.nonce (some r.generation) := by
  simp only [giveBackMarks, releaseMarks, Allocator.giveBack]
  cases hs : a.entries.get? r.identity with
  | none => simp [Allocator.release, hs]
  | some s =>
    by_cases hg : r.generation = s.generation
    · cases (a.release r.identity r.nonce (some r.generation)).1 with
      | error e => rfl
      | ok u => simp [← hg]
    · simp [Allocator.release, hs, hg]

theorem giveBack [Counter] (a : Allocator) (r : Reservation) :
    Dealings a (giveBackMarks a r) (a.giveBack r).2 := by
  rw [giveBackMarks_eq]
  exact one (.returns a r.identity r.nonce (some r.generation))

end Dealings

namespace Book

variable {κ : Type} [DecidableEq κ]

/-- A book in which nothing has happened. -/
def opened (capacity : Nat) : Book κ := { allocator := .ofCapacity capacity }

def run [Counter] (b : Book κ) (acts : List (Act κ)) : Book κ := acts.foldl act b

/-- The marks of an act, and of a number that comes back without its reservation. -/
def record [Counter] (b : Book κ) : Act κ → List Mark
  | .release who n => releaseMarks b.allocator who n none
  | x => b.marks x

/-- The record of a run, newest first. -/
def recordAll [Counter] (b : Book κ) : List (Act κ) → List Mark
  | [] => []
  | x :: acts => (b.act x).recordAll acts ++ b.record x

theorem hold_dealings [Counter] (b : Book κ) (k : κ) (r : Reservation) (a : Allocator) :
    Dealings a (b.displaced k a) ({ b with allocator := a }.hold k r).allocator := by
  unfold Book.hold Book.displaced
  simp only
  cases b.held.get? k with
  | none => exact .none a
  | some old => exact .giveBack a old

theorem displaced_dealings [Counter] (b : Book κ) (k : κ) {a : Allocator}
    (hn : b.held.get? k = none → a = b.allocator)
    (hs : ∀ r, b.held.get? k = some r → a = (b.allocator.giveBack r).2) :
    Dealings b.allocator (b.displaced k b.allocator) a := by
  simp only [Book.displaced]
  cases hk : b.held.get? k with
  | none =>
    rw [hn hk]
    exact .none _
  | some r =>
    rw [hs r hk]
    exact .giveBack _ r

theorem act_dealings [Counter] (b : Book κ) (x : Act κ) :
    Dealings b.allocator (b.record x) (b.act x).allocator := by
  cases x with
  | reserve k who =>
    simp only [act, record, marks, reserve?]
    cases ht : b.allocator.take? who with
    | none => exact .none _
    | some p =>
      obtain ⟨r, a⟩ := p
      exact (Dealings.one (.issues ht)).trans (b.hold_dealings k r a)
  | allocate k who =>
    simp only [act, record, marks]
    cases ht : b.allocator.take? who with
    | none => exact .none _
    | some p => exact .one (.issues ht)
  | reserved k n =>
    simp only [act, record, marks]
    cases b.waiting.get? k with
    | none => exact .none _
    | some who =>
      exact (Dealings.install b.allocator who n).trans ((b.unpark k).hold_dealings k _ _)
  | allocated k n =>
    simp only [act, record, marks]
    cases b.waiting.get? k with
    | none => exact .none _
    | some who => exact .install b.allocator who n
  | abandon k => exact .none _
  | commit k =>
    simp only [act, record, marks, commit?]
    cases b.held.get? k <;> exact .none _
  | giveBack k =>
    refine b.displaced_dealings k (fun hk => ?_) (fun r hk => ?_)
    · simp [act, giveBack?, hk]
    · simp [act, giveBack?, hk]
  | drop k =>
    refine b.displaced_dealings k (fun hk => ?_) (fun r hk => ?_)
    · simp [act, drop?, hk]
    · simp [act, drop?, hk, dropQuietly]
  | reset who n => exact .one (.creates _ who n)
  | release who n => exact .one (.returns _ who n none)

theorem run_dealings [Counter] (b : Book κ) (acts : List (Act κ)) :
    Dealings b.allocator (b.recordAll acts) (b.run acts).allocator := by
  induction acts generalizing b with
  | nil => exact .none _
  | cons x acts ih => exact (b.act_dealings x).trans (ih (b.act x))

end Book

end Outbox.Nonce
