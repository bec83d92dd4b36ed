import Mathlib.Data.List.Perm.Subperm
import Outbox.Proofs.Nonce.FreeSet
import Outbox.Proofs.Nonce.Residents

namespace Outbox.Nonce

namespace Allocator

/-- The state that issued `r` is still there. -/
def Current (a : Allocator) (r : Reservation) : Prop :=
  ∃ s, a.entries.get? r.identity = some s ∧ s.generation = r.generation

/-- The number of `r` is not free in the state that issued it, if that is still there. -/
def Out (a : Allocator) (r : Reservation) : Prop :=
  ∀ s, a.entries.get? r.identity = some s → s.generation = r.generation → r.nonce ∉ s.free

variable {a : Allocator} {r : Reservation} {who : Address} {s : State}

/-- A resident state either takes the number back, being of the generation that is named, or stays
as it is. -/
theorem release_cases (hs : a.entries.get? who = some s) (n : Nat) (generation : Option Nat) :
    (a.release who n generation).2.entries.get? who = some s ∨
      ∃ s', s.release n = .ok s' ∧ (∀ g ∈ generation, g = s.generation) ∧
        (a.release who n generation).2.entries.get? who = some s' := by
  cases he : (a.release who n generation).1 with
  | error e => exact .inl (State.get?_of_release_error hs he)
  | ok u =>
    unfold release at he ⊢
    simp only [hs] at he ⊢
    split at he
    · simp at he
    · next hfit =>
      rw [if_neg hfit]
      cases hr : s.release n with
      | error e => simp [hr] at he
      | ok s' =>
        refine .inr ⟨s', rfl, fun g hg => ?_, Keyed.get?_put_self _ _ _⟩
        obtain rfl : generation = some g := hg
        simpa using hfit

theorem generation_of_release {s' : State} {n : Nat} (hr : s.release n = .ok s') :
    s'.generation = s.generation := by
  unfold State.release at hr
  split at hr
  · simp at hr
  · split at hr
    · simp at hr
    · obtain rfl := Except.ok.inj hr
      rfl

/-- A number that is out can be given back as long as its state is there, and is free then. -/
theorem Out.giveBack (h : a.Out r) (hc : a.Current r) : ¬(a.giveBack r).2.Out r := by
  obtain ⟨s, hs, hg⟩ := hc
  obtain ⟨s', hr⟩ := (State.release_isOk s r.nonce).mpr (h s hs hg)
  have hback := giveBack_of_resident hs hg hr
  have hs' : (a.giveBack r).2.entries.get? r.identity = some s' := by
    rw [hback]
    exact Keyed.get?_put_self _ _ _
  have hg' : s'.generation = r.generation := (generation_of_release hr).trans hg
  have hfree : r.nonce ∈ s'.free := by
    rw [State.free_release hr]
    exact Set.mem_insert _ _
  exact fun hout => hout s' hs' hg' hfree

/-- Giving back another reservation leaves the number out. -/
theorem Out.giveBack_of_ne {q : Reservation} (h : a.Out r) (hne : q ≠ r) :
    (a.giveBack q).2.Out r := by
  intro t ht hg
  by_cases hw : r.identity = q.identity
  · cases hs : a.entries.get? q.identity with
    | none =>
      have hsame : (a.giveBack q).2 = a := by simp only [Allocator.giveBack, release, hs]
      rw [hsame] at ht
      exact h t ht hg
    | some s =>
      rcases release_cases hs q.nonce (some q.generation) with hkept | ⟨s', hr, hfit, hs'⟩
      · rw [hw] at ht
        obtain rfl := Option.some.inj (hkept.symm.trans ht)
        exact h s (hw ▸ hs) hg
      · rw [hw] at ht
        obtain rfl := Option.some.inj (hs'.symm.trans ht)
        have hgen : s'.generation = s.generation := generation_of_release hr
        have hfresh : r.nonce ≠ q.nonce := by
          intro hn
          have hq : q.generation = r.generation := (hfit _ rfl).trans (hgen.symm.trans hg)
          apply hne
          cases q
          cases r
          simp_all
        rw [State.free_release hr]
        rintro (heq | hin)
        · exact hfresh heq
        · exact h s (hw ▸ hs) (hgen.symm.trans hg) hin
  · rw [Allocator.giveBack, get?_release_of_ne a _ _ hw] at ht
    exact h t ht hg

end Allocator

/-- At most one of `held` is `r`, and if one is, its number is out. -/
structure Sole (r : Reservation) (a : Allocator) (held : List Reservation) : Prop where
  once : held.count r ≤ 1
  known : r ∈ held → r.generation ≤ a.generations
  out : r ∈ held → a.Out r
  resident : ∀ s, a.entries.get? r.identity = some s →
    s.generation ≤ a.generations ∧ s.Canonical

namespace Sole

variable {r q : Reservation} {a a' : Allocator} {held held' : List Reservation} {who : Address}
  {n : Nat} {generation : Option Nat} {s : State}

theorem opened (r : Reservation) (capacity : Nat) : Sole r (.ofCapacity capacity) [] := by
  refine ⟨Nat.zero_le _, by simp, by simp, fun s hs => ?_⟩
  simp [Allocator.ofCapacity, Keyed.get?] at hs

theorem of_subperm (h : Sole r a held) (hs : held'.Subperm held) : Sole r a held' :=
  ⟨(hs.count_le r).trans h.once, fun hr => h.known (hs.subset hr), fun hr => h.out (hs.subset hr),
    h.resident⟩

/-- A change that leaves the generations and the state in question alone. -/
theorem of_get?_eq (h : Sole r a held)
    (he : a'.entries.get? r.identity = a.entries.get? r.identity)
    (hg : a'.generations = a.generations) : Sole r a' held := by
  refine ⟨h.once, ?_, fun hr s hs => ?_, fun s hs => ?_⟩
  · rw [hg]
    exact h.known
  · rw [he] at hs
    exact h.out hr s hs
  · rw [he] at hs
    rw [hg]
    exact h.resident s hs

/-- The first holder does not have `r`, or nobody else does. -/
theorem not_mem_tail (h : Sole r a (r :: held)) : r ∉ held := by
  have honce := h.once
  rw [List.count_cons_self] at honce
  exact List.count_eq_zero.mp (by omega)

/-- A state that is created is of no generation that was there before. -/
theorem created (h : Sole r a held) (who : Address) (n : Nat) : Sole r (a.reset who n) held := by
  have hgen := Allocator.generations_reset a who n
  refine ⟨h.once, fun hr => ?_, fun hr t ht => ?_, fun t ht => ?_⟩
  · have hknown := h.known hr
    omega
  · intro hg
    by_cases hw : r.identity = who
    · subst hw
      rw [Allocator.get?_reset_self] at ht
      obtain rfl := Option.some.inj ht
      have hknown := h.known hr
      simp only [State.start] at hg
      omega
    · exact h.out hr t ((Allocator.reset_leaves a n hw).get? ht) hg
  · by_cases hw : r.identity = who
    · subst hw
      rw [Allocator.get?_reset_self] at ht
      obtain rfl := Option.some.inj ht
      exact ⟨Nat.le_of_eq hgen.symm, State.canonical_start _ _⟩
    · obtain ⟨hle, hc⟩ := h.resident t ((Allocator.reset_leaves a n hw).get? ht)
      exact ⟨by omega, hc⟩

/-- Only a free number is issued, so that what is issued was held by nobody. -/
theorem issued (h : Sole r a held) (hi : a.Issued who s q a') : Sole r a' (q :: held) := by
  have hq := hi.reservation
  have hfree : ∀ t, a'.entries.get? r.identity = some t → t.generation = r.generation →
      ∃ u, a.entries.get? r.identity = some u ∧ u.generation = r.generation ∧
        (r.nonce ∉ u.free ∨ r = q → r.nonce ∉ t.free) := by
    intro t ht hg
    by_cases hw : r.identity = who
    · subst hw
      rw [hi.rest] at ht
      obtain rfl := Option.some.inj ht
      rw [State.assign_generation] at hg
      have hc := (h.resident s hi.source).2
      refine ⟨s, hi.source, hg, ?_⟩
      rw [hc.free_assign]
      rintro (hout | heq) hm
      · exact hout hm.1
      · exact hm.2 (by rw [heq, hq]; rfl)
    · refine ⟨t, (hi.others _ hw).get? ht, hg, ?_⟩
      rintro (hout | heq)
      · exact hout
      · exact absurd (by rw [heq, hq]) hw
  have hnew : r = q → r ∉ held := by
    rintro rfl hr
    have hs : a.entries.get? r.identity = some s := by
      rw [hq]
      exact hi.source
    have hleast := State.peek_isLeast (h.resident s hs).2
    refine h.out hr s hs (by rw [hq]) ?_
    rw [hq, State.assign_fst]
    exact hleast.1
  refine ⟨?_, fun hr => ?_, fun hr t ht hg => ?_, fun t ht => ?_⟩
  · by_cases heq : r = q
    · subst heq
      rw [List.count_cons_self, List.count_eq_zero.mpr (hnew rfl)]
    · rw [List.count_cons_of_ne (Ne.symm heq)]
      exact h.once
  · rw [hi.generations]
    rcases List.mem_cons.mp hr with heq | hr
    · have hs : a.entries.get? r.identity = some s := by
        rw [heq, hq]
        exact hi.source
      have hgen : s.generation = r.generation := by rw [heq, hq]
      exact hgen ▸ (h.resident s hs).1
    · exact h.known hr
  · obtain ⟨u, hu, hgu, hstays⟩ := hfree t ht hg
    rcases List.mem_cons.mp hr with heq | hr
    · exact hstays (.inr heq)
    · exact hstays (.inl (h.out hr u hu hgu))
  · rw [hi.generations]
    by_cases hw : r.identity = who
    · subst hw
      rw [hi.rest] at ht
      obtain rfl := Option.some.inj ht
      obtain ⟨hle, hc⟩ := h.resident s hi.source
      rw [State.assign_generation]
      exact ⟨hle, hc.assign⟩
    · exact h.resident t ((hi.others _ hw).get? ht)

theorem install (h : Sole r a held) (who : Address) (onChain : Nat) :
    Sole r (a.install who onChain).2 ((a.install who onChain).1 :: held) := by
  cases hs : a.entries.get? who with
  | some s => exact h.issued (Allocator.install_issued hs onChain)
  | none =>
    obtain ⟨s, hi⟩ := Allocator.take?_issued (Allocator.install_of_absent hs onChain)
    exact (h.created who onChain).issued hi

/-- Somebody gives a number back that is not the one of `r`, as far as the state can tell. -/
theorem release (h : Sole r a held)
    (hne : r ∈ held → a.Current r → who = r.identity → n = r.nonce →
      ∃ g, generation = some g ∧ g ≠ r.generation) :
    Sole r (a.release who n generation).2 held := by
  have hgen := Allocator.generations_release a who n generation
  by_cases hw : r.identity = who
  · cases hs : a.entries.get? who with
    | none =>
      have hsame : (a.release who n generation).2 = a := by simp only [Allocator.release, hs]
      rw [hsame]
      exact h
    | some s =>
      subst hw
      rcases Allocator.release_cases hs n generation with hkept | ⟨s', hr, hfit, hs'⟩
      · exact h.of_get?_eq (hkept.trans hs.symm) hgen
      · obtain ⟨hle, hc⟩ := h.resident s hs
        obtain ⟨hc', hfree, hg'⟩ := hc.release hr
        refine ⟨h.once, hgen ▸ h.known, fun hm t ht hg hin => ?_, fun t ht => ?_⟩
        · obtain rfl := Option.some.inj (hs'.symm.trans ht)
          have hsame : s.generation = r.generation := hg'.symm.trans hg
          rw [hfree] at hin
          rcases hin with heq | hin
          · obtain ⟨g, hnamed, hother⟩ := hne hm ⟨s, hs, hsame⟩ rfl heq.symm
            exact hother ((hfit g hnamed).trans hsame)
          · exact h.out hm s hs hsame hin
        · obtain rfl := Option.some.inj (hs'.symm.trans ht)
          rw [hgen, hg']
          exact ⟨hle, hc'⟩
  · exact h.of_get?_eq (Allocator.get?_release_of_ne a n generation hw) hgen

/-- A holder gives back what it holds. -/
theorem giveBack (h : Sole r a (q :: held)) : Sole r (a.giveBack q).2 held := by
  have hrest : Sole r a held := h.of_subperm (List.sublist_cons_self q held).subperm
  refine hrest.release fun hr _ hw hn => ⟨q.generation, rfl, fun hg => ?_⟩
  obtain rfl : q = r := by
    cases q
    cases r
    simp_all
  exact h.not_mem_tail hr

/-- What its state no longer takes back is out as before, though nobody is to hold it again. -/
theorem giveBack_stale (h : Sole r a held) (hc : ¬a.Current r) : Sole r (a.giveBack r).2 held := by
  have hstale : ∀ s, a.entries.get? r.identity = some s → s.generation ≠ r.generation :=
    fun s hs hg => hc ⟨s, hs, hg⟩
  have hkept := (Allocator.giveBack_of_stale hstale).2 r.identity
  exact h.of_get?_eq hkept (Allocator.generations_release a _ _ _)

end Sole

end Outbox.Nonce
