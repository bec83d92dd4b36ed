import Outbox.Nonce.State
import Mathlib.Data.List.Basic

namespace Outbox.Nonce.State

/-- The numbers from `start` on that were issued so far are those free again and those in `out`. -/
structure Accounts (s : State) (start : Nat) (out : List Nat) : Prop where
  start_le : start ≤ s.next
  perm : (s.reclaimed ++ out).Perm (List.range' start (s.next - start))

theorem accounts_iff {s : State} {start : Nat} {out : List Nat} :
    s.Accounts start out ↔ start ≤ s.next ∧
      ∀ n, s.reclaimed.count n + out.count n = if start ≤ n ∧ n < s.next then 1 else 0 := by
  constructor
  · intro h
    refine ⟨h.start_le, fun n => ?_⟩
    have hn := List.perm_iff_count.mp h.perm n
    rw [List.count_append, List.count_range_1'] at hn
    rw [hn, Nat.add_sub_cancel' h.start_le]
  · rintro ⟨hle, hc⟩
    refine ⟨hle, List.perm_iff_count.mpr fun n => ?_⟩
    rw [List.count_append, List.count_range_1', Nat.add_sub_cancel' hle]
    exact hc n

variable {s : State} {start : Nat} {out : List Nat}

theorem Accounts.of_perm {out' : List Nat} (h : s.Accounts start out) (hp : out.Perm out') :
    s.Accounts start out' :=
  ⟨h.start_le, (hp.append_left _).symm.trans h.perm⟩

theorem accounts_start (next generation : Nat) : (State.start next generation).Accounts next [] :=
  ⟨Nat.le_refl _, by simp [State.start]⟩

theorem Accounts.nodup (h : s.Accounts start out) : (s.reclaimed ++ out).Nodup :=
  h.perm.nodup_iff.mpr List.nodup_range'

theorem Accounts.out_nodup (h : s.Accounts start out) : out.Nodup :=
  (List.nodup_append.mp h.nodup).2.1

/-- A number that is out lies below `next` and is not free. -/
theorem Accounts.out_bounds (h : s.Accounts start out) {n : Nat} (hn : n ∈ out) :
    start ≤ n ∧ n < s.next ∧ n ∉ s.reclaimed := by
  have hr : n ∈ List.range' start (s.next - start) :=
    h.perm.mem_iff.mp (List.mem_append_right _ hn)
  have hle := h.start_le
  rw [List.mem_range'_1] at hr
  refine ⟨hr.1, by omega, fun hf => ?_⟩
  exact (List.nodup_append.mp h.nodup).2.2 n hf n hn rfl

theorem assign_generation [Counter] (s : State) : s.assign.2.generation = s.generation := by
  simp only [assign]
  split <;> rfl

theorem Accounts.assign (h : s.Accounts start out) :
    s.assign.2.Accounts start (s.assign.1 :: out) := by
  obtain ⟨hle, hc⟩ := accounts_iff.mp h
  apply accounts_iff.mpr
  unfold State.assign
  split
  · next hr =>
    refine ⟨Nat.le_succ_of_le hle, fun n => ?_⟩
    have hn := hc n
    rw [hr] at hn ⊢
    simp only [List.count_nil, List.count_cons, beq_iff_eq, Counter.after_endless] at hn ⊢
    split at hn <;> split <;> split <;> omega
  · next m rest hr =>
    refine ⟨hle, fun n => ?_⟩
    have hn := hc n
    rw [hr] at hn
    simp only [List.count_cons, beq_iff_eq] at hn ⊢
    omega

/-- The number issued next is out nowhere. -/
theorem Accounts.assign_fresh (h : s.Accounts start out) : s.assign.1 ∉ out :=
  (List.nodup_cons.mp h.assign.out_nodup).1

theorem count_insertAscending (n m : Nat) (ms : List Nat) :
    (insertAscending n ms).count m = ms.count m + if n = m then 1 else 0 := by
  induction ms with
  | nil => simp [insertAscending, List.count_cons]
  | cons k ks ih =>
    unfold insertAscending
    split
    · simp [List.count_cons]
    · simp only [List.count_cons, ih]
      omega

/-- What the fold takes off the list are exactly the numbers that `next` steps down over. -/
theorem count_foldTail (next : Nat) (ms : List Nat) :
    (foldTail next ms).1 ≤ next ∧
      ∀ m, (foldTail next ms).2.count m +
        (if (foldTail next ms).1 ≤ m ∧ m < next then 1 else 0) = ms.count m := by
  induction ms generalizing next with
  | nil =>
    refine ⟨Nat.le_refl _, fun m => ?_⟩
    have hm : ¬(next ≤ m ∧ m < next) := by omega
    simp [foldTail, hm]
  | cons n below ih =>
    unfold foldTail
    split
    · next hn =>
      obtain ⟨hle, hc⟩ := ih n
      refine ⟨by omega, fun m => ?_⟩
      rw [List.count_cons, ← hc m]
      simp only [beq_iff_eq]
      split <;> split <;> split <;> omega
    · refine ⟨Nat.le_refl _, fun m => ?_⟩
      have hm : ¬(next ≤ m ∧ m < next) := by omega
      simp [hm]

theorem Accounts.fold (h : s.Accounts start out) : s.fold.Accounts start out := by
  obtain ⟨hle, hc⟩ := accounts_iff.mp h
  obtain ⟨hdown, hf⟩ := count_foldTail s.next s.reclaimed.reverse
  simp only [List.count_reverse] at hf
  have hnext : s.fold.next = (foldTail s.next s.reclaimed.reverse).1 := rfl
  have hrec : s.fold.reclaimed = (foldTail s.next s.reclaimed.reverse).2.reverse := rfl
  apply accounts_iff.mpr
  rw [hnext, hrec]
  constructor
  · -- a number that `next` stepped down over was free, and none below `start` is
    by_cases hlow : (foldTail s.next s.reclaimed.reverse).1 < start
    · have h1 := hf (foldTail s.next s.reclaimed.reverse).1
      have h2 := hc (foldTail s.next s.reclaimed.reverse).1
      split at h1 <;> split at h2 <;> omega
    · omega
  · intro n
    have h1 := hf n
    have h2 := hc n
    rw [List.count_reverse]
    split at h1 <;> split at h2 <;> split <;> omega

/-- A number that is out can be given back, and is the only one that comes back. -/
theorem Accounts.release {n : Nat} (h : s.Accounts start (n :: out)) :
    ∃ s', s.release n = .ok s' ∧ s'.generation = s.generation ∧ s'.Accounts start out := by
  obtain ⟨hs, hlt, hfree⟩ := h.out_bounds List.mem_cons_self
  obtain ⟨hle, hc⟩ := accounts_iff.mp h
  have hin : ({ s with reclaimed := insertAscending n s.reclaimed } : State).Accounts start out := by
    refine accounts_iff.mpr ⟨hle, fun m => ?_⟩
    have hm := hc m
    rw [List.count_cons] at hm
    simp only [beq_iff_eq] at hm
    show (insertAscending n s.reclaimed).count m + out.count m = if start ≤ m ∧ m < s.next then 1 else 0
    rw [count_insertAscending]
    omega
  refine ⟨({ s with reclaimed := insertAscending n s.reclaimed } : State).fold, ?_, rfl, hin.fold⟩
  simp only [State.release]
  rw [if_neg (by omega), if_neg hfree]

theorem Accounts.of_release {s' : State} {n : Nat} (h : s.Accounts start (n :: out))
    (hr : s.release n = .ok s') : s'.generation = s.generation ∧ s'.Accounts start out := by
  obtain ⟨t, ht, hg, hacc⟩ := h.release
  rw [hr] at ht
  obtain rfl : s' = t := Except.ok.inj ht
  exact ⟨hg, hacc⟩

end Outbox.Nonce.State
