import Outbox.Proofs.Nonce.FreeSet

namespace Outbox.Nonce

/-- `ns` are the smallest numbers of `pool`, in ascending order. -/
structure Smallest (pool : Set Nat) (ns : List Nat) : Prop where
  ascending : ns.Pairwise (· < ·)
  mem : ∀ n ∈ ns, n ∈ pool
  below : ∀ n ∈ ns, ∀ m ∈ pool, m ∉ ns → n < m

namespace Smallest

variable {pool : Set Nat} {n v : Nat} {ns : List Nat}

theorem nil (pool : Set Nat) : Smallest pool [] := by
  refine ⟨List.Pairwise.nil, ?_, ?_⟩ <;> simp

theorem cons (hn : IsLeast pool n) (h : Smallest (pool \ {n}) ns) : Smallest pool (n :: ns) := by
  have hlt : ∀ m ∈ pool, m ≠ n → n < m := fun m hm hne => Nat.lt_of_le_of_ne (hn.2 hm) hne.symm
  refine ⟨List.pairwise_cons.mpr ⟨fun m hm => ?_, h.ascending⟩, fun m hm => ?_,
    fun p hp m hm hnot => ?_⟩
  · exact hlt m (h.mem m hm).1 (h.mem m hm).2
  · rcases List.mem_cons.mp hm with rfl | hm
    · exact hn.1
    · exact (h.mem m hm).1
  · obtain ⟨hne, hnot⟩ := not_or.mp (List.mem_cons.not.mp hnot)
    rcases List.mem_cons.mp hp with rfl | hp
    · exact hlt m hm hne
    · exact h.below p hp m ⟨hm, hne⟩ hnot

theorem head (h : Smallest pool (n :: ns)) : IsLeast pool n := by
  refine ⟨h.mem n List.mem_cons_self, fun m hm => ?_⟩
  by_cases hin : m ∈ n :: ns
  · rcases List.mem_cons.mp hin with rfl | hin
    · exact Nat.le_refl _
    · exact Nat.le_of_lt ((List.pairwise_cons.mp h.ascending).1 m hin)
  · exact Nat.le_of_lt (h.below n List.mem_cons_self m hm hin)

theorem tail (h : Smallest pool (n :: ns)) : Smallest (pool \ {n}) ns := by
  obtain ⟨hhead, hrest⟩ := List.pairwise_cons.mp h.ascending
  refine ⟨hrest, fun m hm => ⟨h.mem m (List.mem_cons_of_mem _ hm), ?_⟩, fun p hp m hm hnot => ?_⟩
  · exact Nat.ne_of_gt (hhead m hm)
  · refine h.below p (List.mem_cons_of_mem _ hp) m hm.1 fun hin => ?_
    exact (List.mem_cons.mp hin).elim hm.2 hnot

end Smallest

namespace State

/-- What `count` issues in a row give. -/
def numbers [Counter] (s : State) : Nat → List Nat
  | 0 => []
  | count + 1 => s.assign.1 :: s.assign.2.numbers count

/-- The state after `count` issues. -/
def drawn [Counter] (s : State) : Nat → State
  | 0 => s
  | count + 1 => s.assign.2.drawn count

/-- Before the last of `count` issues the counter does not start again. -/
def Reaches [Counter] (s : State) (count : Nat) : Prop :=
  ∀ n, s.next ≤ n → n + 1 < s.next + (count - s.reclaimed.length) → Counter.after n = n + 1

variable {s : State} {count : Nat}

/-- Released numbers go out first, and only when there is none does the counter go on. -/
theorem Reaches.assign [Counter] (h : s.Reaches (count + 2)) :
    (s.reclaimed = [] → Counter.after s.next = s.next + 1) ∧ s.assign.2.Reaches (count + 1) := by
  unfold State.assign
  cases hr : s.reclaimed with
  | nil =>
    have hon : Counter.after s.next = s.next + 1 := by
      apply h s.next (Nat.le_refl _)
      rw [hr, List.length_nil]
      omega
    refine ⟨fun _ => hon, ?_⟩
    intro n hle hlt
    simp only [hon, List.length_nil] at hle hlt
    apply h n (by omega)
    rw [hr, List.length_nil]
    omega
  | cons m rest =>
    refine ⟨by simp, ?_⟩
    intro n hle hlt
    apply h n hle
    rw [hr, List.length_cons]
    simp only at hlt
    omega

theorem Canonical.drawn [Counter] (h : s.Canonical) (count : Nat) : (s.drawn count).Canonical := by
  induction count generalizing s with
  | zero => exact h
  | succ count ih => exact ih h.assign

end State

end Outbox.Nonce
