import Outbox.Proofs.Nonce.Floor
import Outbox.Proofs.Nonce.Resync
import Outbox.Proofs.Nonce.Row

namespace Outbox.Nonce

section Peek

variable {a : Allocator} {s : State} {who : Address}

end Peek

section Fallen

variable {a b c : Allocator} {who : Address} {e : Eviction}

theorem fallen_eq {lost : List Eviction} (h : lost ++ a.evictions = b.evictions) :
    fallen a b = lost := by
  simp [fallen, ← h]

theorem mem_fallen (h : b.evictions = e :: a.evictions) : e ∈ fallen a b := by
  simp [fallen, h]

theorem fallen_append (h : a.evictions <:+ b.evictions) (h' : b.evictions <:+ c.evictions) :
    fallen a c = fallen b c ++ fallen a b := by
  obtain ⟨lost, hb⟩ := h
  obtain ⟨more, hc⟩ := h'
  have hboth : (more ++ lost) ++ a.evictions = c.evictions := by
    rw [List.append_assoc, hb, hc]
  rw [fallen_eq hboth, fallen_eq hc, fallen_eq hb]

/-- A state stays as it is while another one is written, unless it is pushed out. -/
theorem Allocator.get?_store_of_kept {w : Address} (s : State) (hw : who ≠ w)
    (hkept : ∀ e ∈ fallen a (a.store w s), e.identity ≠ who) :
    (a.store w s).entries.get? who = a.entries.get? who := by
  rcases Allocator.store_leaves a s hw with heq | ⟨hgone, -⟩
  · exact heq
  · cases ht : a.entries.get? who with
    | none => exact hgone
    | some t =>
      have hlost := Allocator.store_lost a hw ht hgone
      exact absurd rfl (hkept _ (mem_fallen hlost))

end Fallen

/-- What a mark makes of the state of its identity. -/
def replay [Counter] : Mark → Option State → Option State
  | .created _ g n, _ => some (.start n g)
  | .issued _, s => s.map fun s => s.assign.2
  | .returned r, s => s.map fun s => s.after (.release r.nonce)

/-- The marks of one identity. -/
def marksOf (who : Address) (log : List Mark) : List Mark := log.filter fun m => m.identity = who

section Replay

variable {a b : Allocator} {newer : List Mark} {who : Address}

theorem marksOf_append (who : Address) (newer older : List Mark) :
    marksOf who (newer ++ older) = marksOf who newer ++ marksOf who older := by
  simp [marksOf]

theorem marksOf_eq_nil {log : List Mark} (h : ∀ m ∈ log, m.identity ≠ who) :
    marksOf who log = [] :=
  List.filter_eq_nil_iff.mpr fun m hm => by simpa using h m hm

theorem Dealing.evictions [Counter] (h : Dealing a newer b) : a.evictions <:+ b.evictions := by
  cases h with
  | issues ht =>
    obtain ⟨s, hi⟩ := Allocator.take?_issued ht
    exact hi.evictions
  | creates who n => exact Allocator.evictions_reset a who n
  | returns who n generation =>
    exact ⟨[], (Allocator.evictions_release a who n generation).symm⟩

theorem Dealings.evictions [Counter] (h : Dealings a newer b) : a.evictions <:+ b.evictions := by
  induction h with
  | none => exact List.suffix_rfl
  | more _ hx ih => exact ih.trans hx.evictions

theorem Dealing.replayed [Counter] (h : Dealing a newer b)
    (hkept : ∀ e ∈ fallen a b, e.identity ≠ who) :
    b.entries.get? who = (marksOf who newer).foldr replay (a.entries.get? who) := by
  cases h with
  | @issues _ w r ht =>
    obtain ⟨s, hs, heq⟩ := Option.map_eq_some_iff.mp ht
    rw [Allocator.issue_eq] at heq
    obtain ⟨rfl, rfl⟩ := Prod.mk.inj heq
    by_cases hw : w = who
    · subst hw
      have hself : (a.store w s.assign.2).entries.get? w = some s.assign.2 :=
        Allocator.get?_store_self _ _ _
      simp [marksOf, Mark.identity, replay, hs, hself]
    · have hsame := Allocator.get?_store_of_kept s.assign.2 (Ne.symm hw) hkept
      simpa [marksOf, Mark.identity, hw] using hsame
  | creates w n =>
    by_cases hw : w = who
    · subst hw
      simp [marksOf, Mark.identity, replay, Allocator.get?_reset_self]
    · have hsame : (a.reset w n).entries.get? who = a.entries.get? who :=
        Allocator.get?_store_of_kept (a := { a with generations := a.generations + 1 }) _
          (Ne.symm hw) hkept
      simpa [marksOf, Mark.identity, hw] using hsame
  | returns w n generation =>
    by_cases hw : w = who
    · subst hw
      cases hres : (a.release w n generation).1 with
      | error e =>
        rw [releaseMarks_of_refused hres]
        cases hs : a.entries.get? w with
        | none => simp [Allocator.release, hs, marksOf]
        | some s => exact State.get?_of_release_error hs hres
      | ok u =>
        obtain ⟨s, s', hs, hr, hafter⟩ := Allocator.release_ok hres
        have hself : (a.entries.put w s').get? w = some s' := Keyed.get?_put_self _ _ _
        rw [releaseMarks_of_taken hs hres]
        simp [hafter, hself, hs, marksOf, Mark.identity, replay, State.after, hr]
    · rw [Allocator.get?_release_of_ne a n generation (Ne.symm hw)]
      have hm : marksOf who (releaseMarks a w n generation) = [] := by
        refine marksOf_eq_nil fun m hm => ?_
        obtain ⟨g, rfl⟩ := mem_releaseMarks hm
        exact hw
      rw [hm]
      rfl

/-- The state of an identity can be told from its marks, as long as it is not pushed out. -/
theorem Dealings.replayed [Counter] (h : Dealings a newer b)
    (hkept : ∀ e ∈ fallen a b, e.identity ≠ who) :
    b.entries.get? who = (marksOf who newer).foldr replay (a.entries.get? who) := by
  induction h with
  | none => rfl
  | more h hx ih =>
    simp only [fallen_append h.evictions hx.evictions, List.mem_append] at hkept
    have hfirst := ih fun e he => hkept e (.inr he)
    rw [hx.replayed fun e he => hkept e (.inl he), hfirst, marksOf_append, List.foldr_append]

/-- Every state that is there is canonical. -/
def Allocator.Canonical (a : Allocator) : Prop :=
  ∀ who s, a.entries.get? who = some s → s.Canonical

theorem Allocator.Canonical.release (h : a.Canonical) (who : Address) (n : Nat)
    (generation : Option Nat) : (a.release who n generation).2.Canonical := by
  intro w t ht
  by_cases hw : w = who
  · subst hw
    cases hres : (a.release w n generation).1 with
    | error e =>
      cases hs : a.entries.get? w with
      | none =>
        simp only [Allocator.release, hs] at ht
        simp at ht
      | some s =>
        rw [State.get?_of_release_error hs hres] at ht
        obtain rfl := Option.some.inj ht
        exact h w s hs
    | ok u =>
      obtain ⟨s, s', hs, hr, hafter⟩ := Allocator.release_ok hres
      rw [hafter] at ht
      obtain rfl := Option.some.inj ((Keyed.get?_put_self _ _ _).symm.trans ht)
      exact ((h w s hs).release hr).1
  · rw [Allocator.get?_release_of_ne a n generation hw] at ht
    exact h w t ht

theorem Dealing.canonical [Counter] (h : Dealing a newer b) (ha : a.Canonical) : b.Canonical := by
  cases h with
  | @issues _ v r ht =>
    obtain ⟨s, hi⟩ := Allocator.take?_issued ht
    intro w t hw
    by_cases hwv : w = v
    · subst hwv
      obtain rfl := Option.some.inj (hi.rest.symm.trans hw)
      exact (ha w s hi.source).assign
    · exact ha w t ((hi.others w hwv).get? hw)
  | creates v n =>
    intro w t hw
    by_cases hwv : w = v
    · subst hwv
      obtain rfl := Option.some.inj ((Allocator.get?_reset_self a w n).symm.trans hw)
      exact State.canonical_start n _
    · exact ha w t ((Allocator.reset_leaves a n hwv).get? hw)
  | returns v n generation => exact ha.release v n generation

theorem Dealings.canonical [Counter] (h : Dealings a newer b) (ha : a.Canonical) :
    b.Canonical := by
  induction h with
  | none => exact ha
  | more _ hx ih => exact hx.canonical ih

end Replay

namespace Book

variable {κ : Type} [DecidableEq κ]

/-- Whom an act serves, and with what. -/
def told? [Counter] (b : Book κ) : Act κ → Option (κ × Reservation)
  | .reserve k who => (b.allocator.take? who).map fun p => (k, p.1)
  | .allocate k who => (b.allocator.take? who).map fun p => (k, p.1)
  | .reserved k n => (b.waiting.get? k).map fun who => (k, (b.allocator.install who n).1)
  | .allocated k n => (b.waiting.get? k).map fun who => (k, (b.allocator.install who n).1)
  | _ => none

/-- The caller that an act serves with a number of `who`, and the number. -/
def served? [Counter] (b : Book κ) (who : Address) (x : Act κ) : Option (κ × Nat) :=
  ((b.told? x).filter fun p => p.2.identity = who).map fun p => (p.1, p.2.nonce)

/-- The callers that were made to wait, and for whose number. -/
def queries [Counter] (b : Book κ) : List (Act κ) → List (κ × Address)
  | [] => []
  | x :: acts => (b.asks? x).toList ++ (b.act x).queries acts

structure Calm [Counter] (b : Book κ) (who : Address) (x : Act κ) : Prop where
  kept : ∀ r, .returned r ∈ b.record x → r.identity ≠ who
  unset : ∀ n, x ≠ .reset who n
  resident : ∀ e ∈ fallen b.allocator (b.act x).allocator, e.identity ≠ who

variable {b : Book κ} {who : Address} {x : Act κ} {acts : List (Act κ)}

/-- What an act is to the callers of `who`: nothing, the next number of the state, or the answer
that makes the state. -/
inductive Turn [Counter] (b : Book κ) (who : Address) (x : Act κ) : Prop where
  | idle (hserved : b.served? who x = none) (hmarks : marksOf who (b.record x) = [])
  | next (k : κ) (s : State) (hs : b.allocator.entries.get? who = some s)
      (hserved : b.served? who x = some (k, s.assign.1))
      (hmarks : marksOf who (b.record x) = [.issued ⟨who, s.assign.1, s.generation⟩])
  | first (k : κ) (n g : Nat) (hs : b.allocator.entries.get? who = none)
      (hreply : b.reply? x = some ⟨k, who, n⟩) (hserved : b.served? who x = some (k, n))
      (hmarks : marksOf who (b.record x) = [.issued ⟨who, n, g⟩, .created who g n])

theorem marksOf_displaced {k : κ} {a : Allocator}
    (h : ∀ r, .returned r ∈ b.displaced k a → r.identity ≠ who) :
    marksOf who (b.displaced k a) = [] := by
  refine marksOf_eq_nil fun m hm => ?_
  obtain ⟨r, rfl, -⟩ := mem_displaced hm
  exact h r hm

theorem turn_of_take [Counter] {k : κ} {w : Address} {r : Reservation} {a : Allocator}
    {older : List Mark} (ht : b.allocator.take? w = some (r, a)) (htold : b.told? x = some (k, r))
    (hrec : b.record x = older ++ [.issued r]) (holder : marksOf who older = []) :
    b.Turn who x := by
  obtain ⟨s, hi⟩ := Allocator.take?_issued ht
  obtain rfl := hi.reservation
  by_cases hw : w = who
  · subst hw
    refine .next k s hi.source (by simp [served?, htold]) ?_
    rw [hrec, marksOf_append, holder]
    simp [marksOf, Mark.identity]
  · refine .idle (by simp [served?, htold, hw]) ?_
    rw [hrec, marksOf_append, holder]
    simp [marksOf, Mark.identity, hw]

theorem turn_of_install [Counter] {k : κ} {w : Address} {n : Nat} {older : List Mark}
    (hreply : b.reply? x = some ⟨k, w, n⟩)
    (htold : b.told? x = some (k, (b.allocator.install w n).1))
    (hrec : b.record x = older ++ installMarks b.allocator w n) (holder : marksOf who older = []) :
    b.Turn who x := by
  cases ht : b.allocator.take? w with
  | some p =>
    rw [Allocator.install_of_take? ht] at htold
    refine turn_of_take ht htold ?_ holder
    rw [hrec, installMarks, ht]
  | none =>
    have hnone := Allocator.take?_eq_none.mp ht
    have hnew := (Allocator.install_started hnone n).1
    rw [hnew] at htold
    have hmarks : b.record x = older ++
        [.issued ⟨w, n, b.allocator.generations + 1⟩, .created w (b.allocator.generations + 1) n] := by
      rw [hrec, installMarks, ht, hnew]
    by_cases hw : w = who
    · subst hw
      refine .first k n (b.allocator.generations + 1) hnone hreply (by simp [served?, htold]) ?_
      rw [hmarks, marksOf_append, holder]
      simp [marksOf, Mark.identity]
    · refine .idle (by simp [served?, htold, hw]) ?_
      rw [hmarks, marksOf_append, holder]
      simp [marksOf, Mark.identity, hw]

theorem Calm.turn [Counter] (h : b.Calm who x) : b.Turn who x := by
  cases x with
  | reserve k w =>
    cases ht : b.allocator.take? w with
    | none => exact .idle (by simp [served?, told?, ht]) (by simp [record, marks, ht, marksOf])
    | some p =>
      have hrec : b.record (.reserve k w) = b.displaced k p.2 ++ [.issued p.1] := by
        simp [record, marks, ht]
      refine turn_of_take (k := k) ht (by simp [told?, ht]) hrec
        (marksOf_displaced fun r hr => h.kept r ?_)
      rw [hrec]
      exact List.mem_append_left _ hr
  | allocate k w =>
    cases ht : b.allocator.take? w with
    | none => exact .idle (by simp [served?, told?, ht]) (by simp [record, marks, ht, marksOf])
    | some p =>
      have hrec : b.record (.allocate k w) = [] ++ [.issued p.1] := by simp [record, marks, ht]
      exact turn_of_take (k := k) ht (by simp [told?, ht]) hrec rfl
  | reserved k n =>
    cases hk : b.waiting.get? k with
    | none => exact .idle (by simp [served?, told?, hk]) (by simp [record, marks, hk, marksOf])
    | some w =>
      have hrec : b.record (.reserved k n) =
          b.displaced k (b.allocator.install w n).2 ++ installMarks b.allocator w n := by
        simp [record, marks, hk]
      refine turn_of_install (k := k) (by simp [reply?, hk]) (by simp [told?, hk]) hrec
        (marksOf_displaced fun r hr => h.kept r ?_)
      rw [hrec]
      exact List.mem_append_left _ hr
  | allocated k n =>
    cases hk : b.waiting.get? k with
    | none => exact .idle (by simp [served?, told?, hk]) (by simp [record, marks, hk, marksOf])
    | some w =>
      have hrec : b.record (.allocated k n) = [] ++ installMarks b.allocator w n := by
        simp [record, marks, hk]
      exact turn_of_install (k := k) (by simp [reply?, hk]) (by simp [told?, hk]) hrec rfl
  | abandon k => exact .idle rfl rfl
  | commit k => exact .idle rfl rfl
  | giveBack k => exact .idle rfl (marksOf_displaced fun r hr => h.kept r hr)
  | drop k => exact .idle rfl (marksOf_displaced fun r hr => h.kept r hr)
  | reset w n =>
    have hw : w ≠ who := by
      rintro rfl
      exact h.unset n rfl
    exact .idle rfl (by simp [record, marks, marksOf, Mark.identity, hw])
  | release w n =>
    refine .idle rfl (marksOf_eq_nil fun m hm => ?_)
    obtain ⟨g, rfl⟩ := mem_releaseMarks hm
    exact h.kept _ hm

theorem Calm.replayed [Counter] (h : b.Calm who x) : (b.act x).allocator.entries.get? who =
    (marksOf who (b.record x)).foldr replay (b.allocator.entries.get? who) :=
  (b.act_dealings x).replayed h.resident

theorem canonical_run [Counter] (capacity : Nat) (acts : List (Act κ)) :
    ((opened capacity : Book κ).run acts).allocator.Canonical := by
  apply (run_dealings _ acts).canonical
  intro who s hs
  simp [opened, Allocator.ofCapacity, Keyed.get?] at hs

end Book

end Outbox.Nonce
