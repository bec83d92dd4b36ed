import Outbox.Proofs.Nonce.Counters

namespace Outbox.Nonce

theorem Counter.after_word {n : Nat} (h : n + 1 < wordSize) : @after word n = n + 1 :=
  Nat.mod_eq_of_lt h

theorem Unwrapped.word {log : List Mark}
    (h : ∀ r, .issued r ∈ log → r.nonce + 1 < Counter.wordSize) : @Unwrapped .word log := by
  intro r hr
  exact Counter.after_word (h r hr)

/-- The last number of 64 bits is followed by zero, and a state at zero takes nothing back. -/
theorem State.release_last {s : State} (hr : s.reclaimed = [])
    (hn : s.next + 1 = Counter.wordSize) :
    letI := Counter.word
    s.assign = (s.next, { s with next := 0 }) ∧
      s.assign.2.release s.assign.1 = .error (.neverIssued s.next 0) := by
  let := Counter.word
  have hassign : s.assign = (s.next, { s with next := 0 }) := by
    unfold State.assign
    rw [hr]
    have hafter : Counter.after s.next = 0 := by
      show (s.next + 1) % Counter.wordSize = 0
      rw [hn, Nat.mod_self]
    simp only [hafter]
  refine ⟨hassign, ?_⟩
  rw [hassign]
  exact if_pos (Nat.zero_le _)

variable [Counter]

/-- What comes after the numbers that are left makes no difference. -/
theorem State.assign_endless {s : State} (h : Counter.after s.peek = s.peek + 1) :
    s.assign = @State.assign .endless s := by
  unfold State.assign
  cases hr : s.reclaimed with
  | nil =>
    have hpeek : s.peek = s.next := by simp [State.peek, hr]
    rw [hpeek] at h
    simp only [h]
    rfl
  | cons n rest => rfl

namespace Allocator

variable {a : Allocator} {who : Address} {s : State} {n : Nat} {x : Access}

theorem issue_endless (h : Counter.after (a.issue who s).1.nonce = (a.issue who s).1.nonce + 1) :
    a.issue who s = @issue .endless a who s := by
  have hnonce : (a.issue who s).1.nonce = s.peek := s.assign_fst
  rw [hnonce] at h
  have hassign := State.assign_endless h
  unfold issue
  rw [hassign]

theorem take?_endless (h : ∀ r a', a.take? who = some (r, a') →
    Counter.after r.nonce = r.nonce + 1) : a.take? who = @take? .endless a who := by
  unfold take? at h ⊢
  cases hs : a.entries.get? who with
  | none => rfl
  | some s =>
    rw [hs] at h
    have hissue := h (a.issue who s).1 (a.issue who s).2 rfl
    rw [Option.map_some, Option.map_some, issue_endless hissue]

theorem install_endless (h : Counter.after (a.install who n).1.nonce =
    (a.install who n).1.nonce + 1) : a.install who n = @install .endless a who n := by
  have htake : a.take? who = @take? .endless a who := by
    apply take?_endless
    intro r a' ht
    rw [install_of_take? ht] at h
    exact h
  unfold install at h ⊢
  rw [← htake]
  cases ht : a.take? who with
  | some p => rfl
  | none =>
    rw [ht] at h
    exact issue_endless h

/-- What an answer does, and the marks it leaves. -/
theorem installMarks_endless (h : Unwrapped (installMarks a who n)) :
    installMarks a who n = @installMarks .endless a who n ∧
      a.install who n = @install .endless a who n := by
  have htake : a.take? who = @take? .endless a who := by
    apply take?_endless
    intro r a' ht
    apply h
    simp [installMarks, ht]
  have hinstall : a.install who n = @install .endless a who n := by
    apply install_endless
    apply h
    cases ht : a.take? who with
    | some p => simp [installMarks, ht, install_of_take? ht]
    | none => simp [installMarks, ht]
  refine ⟨?_, hinstall⟩
  unfold installMarks
  rw [← htake, ← hinstall]

/-- An access does as it would without an end, unless it issues the last number. -/
theorem access_endless (h : Unwrapped (a.record x)) :
    a.record x = @record .endless a x ∧ a.access x = @access .endless a x := by
  cases x with
  | take who =>
    have htake : a.take? who = @take? .endless a who := by
      apply take?_endless
      intro r a' ht
      apply h
      simp [record, ht]
    simp only [record, access, htake, and_self]
  | install who n =>
    obtain ⟨hmarks, hinstall⟩ := installMarks_endless h
    simp only [record, access, hmarks, hinstall, and_self]
  | reset who n => exact ⟨rfl, rfl⟩
  | release who n generation => exact ⟨rfl, rfl⟩
  | fail who => exact ⟨rfl, rfl⟩
  | peek who => exact ⟨rfl, rfl⟩
  | contains who => exact ⟨rfl, rfl⟩

end Allocator

namespace Book

variable {κ : Type} [DecidableEq κ] {b : Book κ} {x : Act κ}

/-- An act does as it would without an end, unless it issues the last number. -/
theorem act_endless (h : Unwrapped (b.record x)) :
    b.record x = @record κ _ .endless b x ∧ b.act x = @act κ _ .endless b x := by
  cases x with
  | reserve k who =>
    have htake : b.allocator.take? who = @Allocator.take? .endless b.allocator who := by
      apply Allocator.take?_endless
      intro r a ht
      apply h
      simp [record, marks, ht]
    simp only [record, marks, act, reserve?, htake, and_self]
  | allocate k who =>
    have htake : b.allocator.take? who = @Allocator.take? .endless b.allocator who := by
      apply Allocator.take?_endless
      intro r a ht
      apply h
      simp [record, marks, ht]
    simp only [record, marks, act, htake, and_self]
  | reserved k n =>
    simp only [record, marks, act, install] at h ⊢
    cases hk : b.waiting.get? k with
    | none => exact ⟨rfl, rfl⟩
    | some who =>
      rw [hk] at h
      obtain ⟨hmarks, hinstall⟩ := Allocator.installMarks_endless h.of_append.2
      simp only [unpark, hmarks, hinstall, and_self]
  | allocated k n =>
    simp only [record, marks, act] at h ⊢
    cases hk : b.waiting.get? k with
    | none => exact ⟨rfl, rfl⟩
    | some who =>
      rw [hk] at h
      obtain ⟨hmarks, hinstall⟩ := Allocator.installMarks_endless h
      simp only [hmarks, hinstall, and_self]
  | abandon k => exact ⟨rfl, rfl⟩
  | commit k => exact ⟨rfl, rfl⟩
  | giveBack k => exact ⟨rfl, rfl⟩
  | drop k => exact ⟨rfl, rfl⟩
  | reset who n => exact ⟨rfl, rfl⟩
  | release who n => exact ⟨rfl, rfl⟩

/-- As long as no state issues the last number, a book cannot tell that the counter ends. -/
theorem run_endless {acts : List (Act κ)} (h : Unwrapped (b.recordAll acts)) :
    b.recordAll acts = @recordAll κ _ .endless b acts ∧ b.run acts = @run κ _ .endless b acts := by
  induction acts generalizing b with
  | nil => exact ⟨rfl, rfl⟩
  | cons x acts ih =>
    obtain ⟨hlater, hnow⟩ := h.of_append
    obtain ⟨hrecord, hact⟩ := act_endless hnow
    obtain ⟨hrecords, hrun⟩ := ih hlater
    rw [hact] at hrecords hrun
    constructor
    · simp only [recordAll, hact, hrecord, hrecords]
    · exact (congrArg (fun b => run b acts) hact).trans hrun

end Book

end Outbox.Nonce
