import Outbox.Proofs.Nonce.History

namespace Outbox.Nonce

/-- A caller that is answered: who it is, whose number it asked for, and the answer. -/
structure Reply (κ : Type) where
  caller : κ
  identity : Address
  number : Nat

namespace Book

variable {κ : Type} [DecidableEq κ]

/-- The caller that an act makes wait, and for whose number. -/
def asks? [Counter] (b : Book κ) : Act κ → Option (κ × Address)
  | .reserve k who => if (b.allocator.take? who).isNone then some (k, who) else none
  | .allocate k who => if (b.allocator.take? who).isNone then some (k, who) else none
  | _ => none

def reply? (b : Book κ) : Act κ → Option (Reply κ)
  | .reserved k n => (b.waiting.get? k).map fun who => ⟨k, who, n⟩
  | .allocated k n => (b.waiting.get? k).map fun who => ⟨k, who, n⟩
  | _ => none

/-- The reservations whose number an act uses for good. -/
def uses [Counter] (b : Book κ) : Act κ → List Reservation
  | .allocate _ who => ((b.allocator.take? who).map Prod.fst).toList
  | .allocated k n => ((b.waiting.get? k).map fun who => (b.allocator.install who n).1).toList
  | .commit k => (b.held.get? k).toList
  | _ => []

variable {b : Book κ} {r : Reservation}

theorem issued_of_installMarks [Counter] {a : Allocator} {w : Address} {n : Nat}
    (h : .issued r ∈ installMarks a w n) : r = (a.install w n).1 := by
  simp only [installMarks] at h
  cases ht : a.take? w with
  | some p =>
    rw [ht] at h
    rw [Allocator.install_of_take? ht]
    simpa using h
  | none =>
    rw [ht] at h
    simpa using h

theorem mem_displaced {m : Mark} {k : κ} {a : Allocator} (h : m ∈ b.displaced k a) :
    ∃ r, m = .returned r ∧ b.held.get? k = some r := by
  simp only [displaced] at h
  cases hk : b.held.get? k with
  | none => simp [hk] at h
  | some old =>
    simp only [hk, giveBackMarks] at h
    split at h
    · exact ⟨old, by simpa using h, rfl⟩
    · simp at h

theorem not_issued_of_displaced (b : Book κ) (k : κ) (a : Allocator) :
    .issued r ∉ b.displaced k a := by
  intro h
  obtain ⟨q, hq, -⟩ := mem_displaced h
  simp at hq

/-- Whatever is issued is issued by a state, or as a caller's answer. -/
theorem installed_of_issued [Counter] {x : Act κ} (h : .issued r ∈ b.marks x) :
    ∃ w n, r = (b.allocator.install w n).1 ∧ (b.allocator.entries.get? w = none →
      ∃ p ∈ b.reply? x, p.identity = w ∧ p.number = n) := by
  have htake : ∀ {w a}, b.allocator.take? w = some (r, a) → ∃ w n,
      r = (b.allocator.install w n).1 ∧ (b.allocator.entries.get? w = none →
        ∃ p ∈ b.reply? x, p.identity = w ∧ p.number = n) := by
    intro w a ht
    refine ⟨w, 0, by rw [Allocator.install_of_take? ht], fun hnone => ?_⟩
    rw [Allocator.take?_eq_none.mpr hnone] at ht
    simp at ht
  cases x with
  | reserve k w =>
    simp only [marks] at h
    cases ht : b.allocator.take? w with
    | none => simp [ht] at h
    | some p =>
      obtain ⟨q, a⟩ := p
      rw [ht] at h
      rcases List.mem_append.mp h with h | h
      · exact absurd h (b.not_issued_of_displaced k a)
      · obtain rfl : r = q := by simpa using h
        exact htake ht
  | allocate k w =>
    simp only [marks] at h
    cases ht : b.allocator.take? w with
    | none => simp [ht] at h
    | some p =>
      obtain ⟨q, a⟩ := p
      rw [ht] at h
      obtain rfl : r = q := by simpa using h
      exact htake ht
  | reserved k n =>
    simp only [marks] at h
    cases hk : b.waiting.get? k with
    | none => simp [hk] at h
    | some w =>
      rw [hk] at h
      rcases List.mem_append.mp h with h | h
      · exact absurd h (b.not_issued_of_displaced k _)
      · exact ⟨w, n, issued_of_installMarks h, fun _ => ⟨⟨k, w, n⟩, by simp [reply?, hk], rfl, rfl⟩⟩
  | allocated k n =>
    simp only [marks] at h
    cases hk : b.waiting.get? k with
    | none => simp [hk] at h
    | some w =>
      rw [hk] at h
      exact ⟨w, n, issued_of_installMarks h, fun _ => ⟨⟨k, w, n⟩, by simp [reply?, hk], rfl, rfl⟩⟩
  | giveBack k => exact absurd h (b.not_issued_of_displaced k _)
  | drop k => exact absurd h (b.not_issued_of_displaced k _)
  | _ => simp [marks] at h

theorem waiting_hold (b : Book κ) (k : κ) (r : Reservation) : (b.hold k r).waiting = b.waiting := by
  unfold hold
  cases b.held.get? k <;> rfl

/-- Whoever waits after an act has just asked, or waited before and has not asked again. -/
theorem waiting_act [Counter] {x : Act κ} {k : κ} {who : Address}
    (h : (b.act x).waiting.get? k = some who) :
    b.asks? x = some (k, who) ∨ b.waiting.get? k = some who ∧ ∀ w, b.asks? x ≠ some (k, w) := by
  have hpark : ∀ {j w}, b.asks? x = some (j, w) → (b.park j w).waiting.get? k = some who →
      b.asks? x = some (k, who) ∨ b.waiting.get? k = some who ∧ ∀ w, b.asks? x ≠ some (k, w) := by
    intro j w hx hk
    simp only [park, Keyed.get?_put] at hk
    split at hk
    · next hkj =>
      obtain rfl := Option.some.inj hk
      exact .inl (by rw [hx, hkj])
    · next hkj =>
      refine .inr ⟨hk, fun v hv => hkj ?_⟩
      rw [hx] at hv
      simp at hv
      exact hv.1.symm
  have hleft : ∀ {j}, (b.waiting.erase j).get? k = some who → b.waiting.get? k = some who := by
    intro j hk
    rw [Keyed.get?_erase] at hk
    split at hk
    · simp at hk
    · exact hk
  cases x with
  | reserve j w =>
    simp only [act, reserve?] at h
    cases ht : b.allocator.take? w with
    | none =>
      rw [ht] at h
      exact hpark (by simp [asks?, ht]) h
    | some p =>
      rw [ht] at h
      refine .inr ⟨?_, by simp [asks?, ht]⟩
      simpa [waiting_hold] using h
  | allocate j w =>
    simp only [act] at h
    cases ht : b.allocator.take? w with
    | none =>
      rw [ht] at h
      exact hpark (by simp [asks?, ht]) h
    | some p =>
      rw [ht] at h
      exact .inr ⟨h, by simp [asks?, ht]⟩
  | reserved j n =>
    refine .inr ⟨?_, by simp [asks?]⟩
    simp only [act] at h
    cases hj : b.waiting.get? j with
    | none => rwa [hj] at h
    | some w =>
      rw [hj] at h
      simp only [install, waiting_hold, unpark] at h
      exact hleft h
  | allocated j n =>
    refine .inr ⟨?_, by simp [asks?]⟩
    simp only [act] at h
    cases hj : b.waiting.get? j with
    | none => rwa [hj] at h
    | some w =>
      rw [hj] at h
      exact hleft h
  | abandon j => exact .inr ⟨hleft h, by simp [asks?]⟩
  | commit j =>
    refine .inr ⟨?_, by simp [asks?]⟩
    cases hj : b.held.get? j <;> simpa [act, commit?, hj] using h
  | giveBack j =>
    refine .inr ⟨?_, by simp [asks?]⟩
    cases hj : b.held.get? j <;> simpa [act, giveBack?, hj] using h
  | drop j =>
    refine .inr ⟨?_, by simp [asks?]⟩
    cases hj : b.held.get? j <;> simpa [act, drop?, hj] using h
  | reset w n => exact .inr ⟨h, by simp [asks?]⟩
  | release w n => exact .inr ⟨h, by simp [asks?]⟩

end Book

end Outbox.Nonce
