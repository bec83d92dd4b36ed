import Outbox.Nonce.Allocator
import Outbox.Proofs.Keyed
import Outbox.Proofs.Nonce.Accounts

namespace Outbox.Nonce.Allocator

def Evicted (a : Allocator) (who : Address) : Prop := ∃ e ∈ a.evictions, e.identity = who

/-- `who` keeps its state from `a` to `a'` or loses it with a notice. -/
def Leaves (a a' : Allocator) (who : Address) : Prop :=
  a'.entries.get? who = a.entries.get? who ∨ a'.entries.get? who = none ∧ a'.Evicted who

theorem Evicted.mono {a a' : Allocator} {who : Address} (h : a.Evicted who)
    (he : a.evictions <:+ a'.evictions) : a'.Evicted who := by
  obtain ⟨e, hm, hw⟩ := h
  exact ⟨e, he.subset hm, hw⟩

/-- A state that is there afterwards was there before. -/
theorem Leaves.get? {a a' : Allocator} {who : Address} {s : State} (h : a.Leaves a' who)
    (hs : a'.entries.get? who = some s) : a.entries.get? who = some s := by
  rcases h with hk | ⟨hgone, _⟩
  · rw [← hk, hs]
  · rw [hgone] at hs
    simp at hs

theorem get?_store_self (a : Allocator) (who : Address) (s : State) :
    (a.store who s).entries.get? who = some s := by
  simp only [store]
  split
  · exact Keyed.get?_put_self _ _ _
  · split <;> simp [Keyed.get?]

theorem store_leaves (a : Allocator) {who other : Address} (s : State) (h : other ≠ who) :
    a.Leaves (a.store who s) other := by
  simp only [store]
  split
  · exact .inl (Keyed.get?_put_of_ne _ _ h)
  · split
    · next hl =>
      have hn : a.entries = [] := List.getLast?_eq_none_iff.mp hl
      refine .inl ?_
      simp [Keyed.get?, hn, Ne.symm h]
    · next victim lost hl =>
      have hk : Keyed.get? ((who, s) :: a.entries.dropLast) other =
          Keyed.get? a.entries.dropLast other := by
        simp [Keyed.get?, Ne.symm h]
      simp only [Leaves, hk]
      rcases Keyed.get?_dropLast_or (k := other) hl with hd | ⟨hv, hd⟩
      · exact .inl hd
      · exact .inr ⟨hd, _, List.mem_cons_self, hv.symm⟩

/-- The notice of an eviction says what was lost. -/
theorem store_lost (a : Allocator) {who other : Address} {s t : State} (h : other ≠ who)
    (hs : a.entries.get? other = some s) (hn : (a.store who t).entries.get? other = none) :
    (a.store who t).evictions = ⟨other, s.next, s.reclaimed.length⟩ :: a.evictions := by
  have hsome : ∀ {m : Keyed Address State}, m.get? other = some s → m.get? other ≠ none := by
    intro m hm
    simp [hm]
  unfold store at hn ⊢
  split at hn
  · exact absurd ((Keyed.get?_put_of_ne _ _ h).symm.trans hn) (hsome hs)
  · next hfull =>
    rw [if_neg hfull]
    cases hl : a.entries.getLast? with
    | none =>
      rw [List.getLast?_eq_none_iff.mp hl] at hs
      simp [Keyed.get?] at hs
    | some e =>
      obtain ⟨victim, lost⟩ := e
      have hk : Keyed.get? ((who, t) :: a.entries.dropLast) other =
          Keyed.get? a.entries.dropLast other := by
        simp [Keyed.get?, Ne.symm h]
      rw [hl] at hn
      have hgone := hk.symm.trans hn
      rcases Keyed.get?_dropLast_or (k := other) hl with hd | ⟨rfl, -⟩
      · exact absurd (hd.symm.trans hgone) (hsome hs)
      · obtain rfl : lost = s :=
          Option.some.inj ((Keyed.get?_of_dropLast_eq_none hl hgone).symm.trans hs)
        rfl

theorem evictions_store (a : Allocator) (who : Address) (s : State) :
    a.evictions <:+ (a.store who s).evictions := by
  simp only [store]
  split
  · exact List.suffix_rfl
  · split
    · exact List.suffix_rfl
    · exact List.suffix_cons _ _

theorem generations_store (a : Allocator) (who : Address) (s : State) :
    (a.store who s).generations = a.generations := by
  simp only [store]
  split
  · rfl
  · split <;> rfl

/-- A state written over at once was never there. -/
theorem store_store (a : Allocator) (who : Address) (s s' : State) :
    (a.store who s).store who s' = a.store who s' := by
  have hself : ∀ m : Keyed Address State, Keyed.erase ((who, s) :: m) who = Keyed.erase m who := by
    intro m
    simp [Keyed.erase]
  have hhas : (a.store who s).entries.has who = true := by
    simp [Keyed.has, get?_store_self]
  have hw : (a.store who s).store who s' =
      { a.store who s with entries := (a.store who s).entries.put who s' } := by
    rw [store, if_pos (.inl hhas)]
  rw [hw]
  by_cases hroom : a.entries.has who = true ∨ a.entries.length < a.capacity
  · rw [store, store, if_pos hroom, if_pos hroom]
    simp only [Keyed.put, hself]
    simp [Keyed.erase]
  · rw [store, store, if_neg hroom, if_neg hroom]
    cases hl : a.entries.getLast? with
    | none => simp [Keyed.put, Keyed.erase]
    | some e =>
      have habs : Keyed.get? a.entries who = none := by
        have hh := (not_or.mp hroom).1
        simpa [Keyed.has] using hh
      have hgone : Keyed.get? a.entries.dropLast who = none := by
        cases hg : Keyed.get? a.entries.dropLast who with
        | none => rfl
        | some t => rw [Keyed.get?_dropLast hg] at habs; simp at habs
      simp only [Keyed.put, hself, Keyed.erase_of_get?_none hgone]

theorem issue_eq [Counter] (a : Allocator) (who : Address) (s : State) :
    a.issue who s = (⟨who, s.assign.1, s.generation⟩,
      { a.store who s.assign.2 with allocated := a.allocated + 1 }) := rfl

section Operations

variable {a a' : Allocator} {who other : Address} {r : Reservation} {s : State}

/-- `r` holds the smallest free number of `s`, and `a'` keeps what is left of `s`. -/
structure Issued [Counter] (a : Allocator) (who : Address) (s : State) (r : Reservation)
    (a' : Allocator) : Prop where
  reservation : r = ⟨who, s.assign.1, s.generation⟩
  source : a.entries.get? who = some s
  rest : a'.entries.get? who = some s.assign.2
  others : ∀ other, other ≠ who → a.Leaves a' other
  evictions : a.evictions <:+ a'.evictions
  generations : a'.generations = a.generations

theorem take?_issued [Counter] (h : a.take? who = some (r, a')) : ∃ s, Issued a who s r a' := by
  obtain ⟨s, hs, hi⟩ := Option.map_eq_some_iff.mp h
  obtain ⟨rfl, rfl⟩ := Prod.mk.inj hi
  exact ⟨s, rfl, hs, get?_store_self _ _ _, fun _ ho => store_leaves a _ ho,
    evictions_store _ _ _, generations_store _ _ _⟩

theorem take?_eq_none [Counter] : a.take? who = none ↔ a.entries.get? who = none := by
  simp [take?]

theorem install_of_take? [Counter] {n : Nat} (h : a.take? who = some (r, a')) :
    a.install who n = (r, a') := by
  simp only [install]
  rw [h]

theorem install_leaves [Counter] (a : Allocator) (n : Nat) (h : other ≠ who) :
    a.Leaves (a.install who n).2 other := by
  simp only [install]
  cases ht : a.take? who with
  | none => exact store_leaves { a with generations := a.generations + 1 } _ h
  | some p =>
    obtain ⟨s, hi⟩ := take?_issued ht
    exact hi.others other h

theorem install_lost [Counter] {n : Nat} (h : other ≠ who) (hs : a.entries.get? other = some s)
    (hn : (a.install who n).2.entries.get? other = none) :
    (a.install who n).2.evictions = ⟨other, s.next, s.reclaimed.length⟩ :: a.evictions := by
  simp only [install] at hn ⊢
  cases ht : a.take? who with
  | none =>
    rw [ht] at hn
    exact store_lost { a with generations := a.generations + 1 } h hs hn
  | some p =>
    rw [ht] at hn
    obtain ⟨t, hres, rfl⟩ := Option.map_eq_some_iff.mp ht
    exact store_lost a h hs hn

theorem evictions_install [Counter] (a : Allocator) (who : Address) (n : Nat) :
    a.evictions <:+ (a.install who n).2.evictions := by
  simp only [install]
  cases ht : a.take? who with
  | none => exact evictions_store { a with generations := a.generations + 1 } _ _
  | some p =>
    obtain ⟨s, hi⟩ := take?_issued ht
    exact hi.evictions

/-- A resident identity is served from its state, whatever the ledger answers. -/
theorem install_issued [Counter] (h : a.entries.get? who = some s) (n : Nat) :
    Issued a who s (a.install who n).1 (a.install who n).2 := by
  have ht : a.take? who = some (a.issue who s) := by
    simp only [take?]
    rw [h, Option.map_some]
  obtain ⟨t, hi⟩ := take?_issued ht
  obtain rfl : s = t := Option.some.inj (h.symm.trans hi.source)
  rw [install_of_take? ht]
  exact hi

/-- A new state issues the ledger's answer. -/
theorem install_started [Counter] (h : a.entries.get? who = none) (n : Nat) :
    (a.install who n).1 = ⟨who, n, a.generations + 1⟩ ∧
      (a.install who n).2.entries.get? who = some (State.start n (a.generations + 1)).assign.2 := by
  simp only [install]
  rw [take?_eq_none.mpr h]
  exact ⟨rfl, get?_store_self _ _ _⟩

theorem install_identity [Counter] (a : Allocator) (who : Address) (n : Nat) :
    (a.install who n).1.identity = who := by
  simp only [install]
  cases ht : a.take? who with
  | none => rfl
  | some p =>
    obtain ⟨s, hi⟩ := take?_issued ht
    rw [hi.reservation]

theorem get?_reset_self (a : Allocator) (who : Address) (n : Nat) :
    (a.reset who n).entries.get? who = some (State.start n (a.generations + 1)) :=
  get?_store_self _ _ _

theorem reset_leaves (a : Allocator) (n : Nat) (h : other ≠ who) :
    a.Leaves (a.reset who n) other :=
  store_leaves { a with generations := a.generations + 1 } _ h

theorem evictions_reset (a : Allocator) (who : Address) (n : Nat) :
    a.evictions <:+ (a.reset who n).evictions :=
  evictions_store { a with generations := a.generations + 1 } _ _

theorem generations_reset (a : Allocator) (who : Address) (n : Nat) :
    (a.reset who n).generations = a.generations + 1 :=
  generations_store _ _ _

/-- An absent identity gets its first number as if its state had been set to the ledger's answer. -/
theorem install_of_absent [Counter] (h : a.entries.get? who = none) (n : Nat) :
    (a.reset who n).take? who = some (a.install who n) := by
  have hi : a.install who n =
      ({ a with generations := a.generations + 1 } : Allocator).issue who
        (State.start n (a.generations + 1)) := by
    simp only [install]
    rw [take?_eq_none.mpr h]
  have hr : a.reset who n =
      ({ a with generations := a.generations + 1 } : Allocator).store who
        (State.start n (a.generations + 1)) := rfl
  have halloc : (a.reset who n).allocated = a.allocated := by
    rw [hr]
    simp only [store]
    split
    · rfl
    · split <;> rfl
  simp only [take?]
  rw [get?_reset_self, hi, Option.map_some]
  rw [issue_eq, issue_eq, halloc, hr, store_store]

theorem giveBack_of_resident {s' : State} (hs : a.entries.get? r.identity = some s)
    (hg : s.generation = r.generation) (hr : s.release r.nonce = .ok s') :
    a.giveBack r =
      (.ok (), { a with entries := a.entries.put r.identity s', released := a.released + 1 }) := by
  simp only [giveBack, release, hs, hr]
  rw [if_neg (by simp [hg])]

/-- A reservation whose state is gone cannot go back, and the attempt changes no number. -/
theorem giveBack_of_stale (h : ∀ s, a.entries.get? r.identity = some s →
    s.generation ≠ r.generation) :
    (∃ e, (a.giveBack r).1 = .error e) ∧
      ∀ who, (a.giveBack r).2.entries.get? who = a.entries.get? who := by
  simp only [giveBack, release]
  cases hs : Keyed.get? a.entries r.identity with
  | none => exact ⟨⟨_, rfl⟩, fun _ => rfl⟩
  | some s =>
    have hst : (some r.generation).any (fun g => decide (g ≠ s.generation)) = true := by
      simpa using Ne.symm (h s hs)
    simp only [hst, if_true]
    refine ⟨⟨_, rfl⟩, fun who => ?_⟩
    rw [Keyed.get?_put]
    split
    · next hw => rw [hw, hs]
    · rfl

theorem get?_release_of_ne (a : Allocator) (n : Nat) (g : Option Nat) (h : other ≠ who) :
    (a.release who n g).2.entries.get? other = a.entries.get? other := by
  simp only [release]
  split
  · rfl
  · split
    · exact Keyed.get?_put_of_ne _ _ h
    · split
      · exact Keyed.get?_put_of_ne _ _ h
      · exact Keyed.get?_put_of_ne _ _ h

/-- Giving back neither makes nor removes a state. -/
theorem generation_release (a : Allocator) (who other : Address) (n : Nat) (g : Option Nat) :
    ((a.release who n g).2.entries.get? other).map State.generation =
      (a.entries.get? other).map State.generation := by
  by_cases h : other = who
  · subst h
    simp only [release]
    cases hs : a.entries.get? other with
    | none => simp [hs]
    | some s =>
      have hput : ∀ t : State, t.generation = s.generation →
          ((a.entries.put other t).get? other).map State.generation = some s.generation := by
        intro t ht
        rw [Keyed.get?_put_self, Option.map_some, ht]
      dsimp only
      split
      · exact hput s rfl
      · cases hr : s.release n with
        | error e => exact hput s rfl
        | ok t =>
          refine hput t ?_
          simp only [State.release] at hr
          split at hr
          · simp at hr
          · split at hr
            · simp at hr
            · obtain rfl := Except.ok.inj hr
              rfl
  · rw [get?_release_of_ne a n g h]

theorem evictions_release (a : Allocator) (who : Address) (n : Nat) (g : Option Nat) :
    (a.release who n g).2.evictions = a.evictions := by
  simp only [release]
  split
  · rfl
  · split
    · rfl
    · split <;> rfl

theorem generations_release (a : Allocator) (who : Address) (n : Nat) (g : Option Nat) :
    (a.release who n g).2.generations = a.generations := by
  simp only [release]
  split
  · rfl
  · split
    · rfl
    · split <;> rfl

end Operations

end Outbox.Nonce.Allocator
