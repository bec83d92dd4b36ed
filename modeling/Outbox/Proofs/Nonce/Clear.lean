import Outbox.Proofs.Nonce.History

namespace Outbox.Nonce

/-- What is out of `who` lies apart from what `who` can be issued, now and after any loss. -/
structure Clear (who : Address) (a : Allocator) (marks : List Mark) (lately : List Nat) : Prop where
  balanced : Balanced a marks
  /-- The resident state is the latest. -/
  latest : ∀ s, a.entries.get? who = some s →
    (∀ g n, .created who g n ∈ marks → g ≤ s.generation) ∧
      ∀ r ∈ outstanding marks, r.identity = who → r.generation ≤ s.generation
  /-- A state begins above all that earlier ones have out. -/
  above : ∀ r ∈ outstanding marks, r.identity = who → ∀ g n, .created who g n ∈ marks →
    r.generation < g → r.nonce < n
  /-- While there is no state, so does what the chain may answer. -/
  absent : a.entries.get? who = none → ∀ r ∈ outstanding marks, r.identity = who →
    ∀ n ∈ lately, r.nonce < n

namespace Clear

variable {who w : Address} {a a' : Allocator} {marks marks' : List Mark} {lately lately' : List Nat}
  {r q : Reservation} {s : State} {n : Nat}

theorem empty (who : Address) (capacity : Nat) (lately : List Nat) :
    Clear who (.ofCapacity capacity) [] lately := by
  refine ⟨.empty capacity, ?_, ?_, ?_⟩ <;> simp [outstanding, Allocator.ofCapacity, Keyed.get?]

/-- Whatever is out was issued by the resident state or lies below its first number. -/
theorem out_cases (h : Clear who a marks lately) (hs : a.entries.get? who = some s)
    (hr : r ∈ outstanding marks) (hw : r.identity = who) :
    ∃ start, s.Accounts start (numbersOf (outstanding marks) who s.generation) ∧
      (r.nonce ∈ numbersOf (outstanding marks) who s.generation ∨ r.nonce < start) := by
  obtain ⟨-, start, hc, hacc⟩ := h.balanced.resident who s hs
  refine ⟨start, hacc, ?_⟩
  rcases Nat.lt_or_eq_of_le ((h.latest s hs).2 r hr hw) with hlt | heq
  · exact .inr (h.above r hr hw _ _ ((hc start).mpr rfl) hlt)
  · refine .inl (mem_numbersOf.mpr ?_)
    rw [← hw, ← heq]
    exact hr

theorem below_next (h : Clear who a marks lately) (hs : a.entries.get? who = some s)
    (hr : r ∈ outstanding marks) (hw : r.identity = who) : r.nonce < s.next := by
  obtain ⟨start, hacc, hn | hlt⟩ := h.out_cases hs hr hw
  · exact (hacc.out_bounds hn).2.1
  · exact Nat.lt_of_lt_of_le hlt hacc.start_le

theorem ne_assign (h : Clear who a marks lately) (hs : a.entries.get? who = some s)
    (hr : r ∈ outstanding marks) (hw : r.identity = who) : r.nonce ≠ s.assign.1 := by
  obtain ⟨start, hacc, hn | hlt⟩ := h.out_cases hs hr hw
  · rintro heq
    exact hacc.assign_fresh (heq ▸ hn)
  · have hle := (hacc.assign.out_bounds List.mem_cons_self).1
    omega

/-- The number that `who` is issued next is not out. -/
theorem ne_install (h : Clear who a marks lately)
    (hn : a.entries.get? who = none → n ∈ lately) (hr : r ∈ outstanding marks)
    (hw : r.identity = who) : (a.install who n).1.nonce ≠ r.nonce := by
  cases hs : a.entries.get? who with
  | some s =>
    rw [(Allocator.install_issued hs n).reservation]
    exact (h.ne_assign hs hr hw).symm
  | none =>
    rw [(Allocator.install_started hs n).1]
    exact Nat.ne_of_gt (h.absent hs r hr hw n (hn hs))

theorem anti (h : Clear who a marks lately) (hsub : ∀ n ∈ lately', n ∈ lately) :
    Clear who a marks lately' :=
  ⟨h.balanced, h.latest, h.above, fun hs r hr hw n hn => h.absent hs r hr hw n (hsub n hn)⟩

/-- Nothing is added by a number above one that is there. -/
theorem rise {m : Nat} (h : Clear who a marks lately) (hn : n ∈ lately) (hm : n ≤ m) :
    Clear who a marks (m :: lately) := by
  refine ⟨h.balanced, h.latest, h.above, fun hs r hr hw v hv => ?_⟩
  rcases List.mem_cons.mp hv with rfl | hv
  · exact Nat.lt_of_lt_of_le (h.absent hs r hr hw n hn) hm
  · exact h.absent hs r hr hw v hv

/-- Issuing to the identity itself, from its state or from the chain's answer. -/
theorem install_self (h : Clear who a marks lately)
    (hn : a.entries.get? who = none → n ∈ lately) :
    Clear who (a.install who n).2 (installMarks a who n ++ marks) lately' := by
  have hpast : ∀ g m, .created who g m ∈ marks → g ≤ a.generations :=
    fun g m hm => h.balanced.created_le who g m hm
  cases hs : a.entries.get? who with
  | some s =>
    have hi := Allocator.install_issued hs n
    have hgen : (a.install who n).1.generation = s.generation := by rw [hi.reservation]
    have hcreated : ∀ g m, .created who g m ∈ installMarks a who n ++ marks →
        .created who g m ∈ marks := by
      intro g m hm
      rcases List.mem_append.mp hm with hm | hm
      · have hnone := (created_installMarks hm).2.1
        rw [hs] at hnone
        simp at hnone
      · exact hm
    refine ⟨h.balanced.install who n, fun t ht => ?_, fun r hr hw g m hm hlt => ?_, fun hgone => ?_⟩
    · rw [hi.rest] at ht
      obtain rfl := Option.some.inj ht
      rw [State.assign_generation, outstanding_installMarks]
      refine ⟨fun g m hm => (h.latest s hs).1 g m (hcreated g m hm), fun r hr hw => ?_⟩
      rcases List.mem_cons.mp hr with rfl | hr
      · exact Nat.le_of_eq hgen
      · exact (h.latest s hs).2 r hr hw
    · rw [outstanding_installMarks] at hr
      have hle := (h.latest s hs).1 g m (hcreated g m hm)
      rcases List.mem_cons.mp hr with rfl | hr
      · omega
      · exact h.above r hr hw g m (hcreated g m hm) hlt
    · rw [hi.rest] at hgone
      simp at hgone
  | none =>
    obtain ⟨hfirst, hrest⟩ := Allocator.install_started hs n
    refine ⟨h.balanced.install who n, fun t ht => ?_, fun r hr hw g m hm hlt => ?_, fun hgone => ?_⟩
    · rw [hrest] at ht
      obtain rfl := Option.some.inj ht
      rw [State.assign_generation, outstanding_installMarks, hfirst]
      refine ⟨fun g m hm => ?_, fun r hr hw => ?_⟩
      · rcases List.mem_append.mp hm with hm | hm
        · exact Nat.le_of_eq (created_installMarks hm).2.2.1
        · exact Nat.le_succ_of_le (hpast g m hm)
      · rcases List.mem_cons.mp hr with rfl | hr
        · exact Nat.le_refl _
        · exact Nat.le_succ_of_le (h.balanced.issued_le r hr)
    · rw [outstanding_installMarks, hfirst] at hr
      rcases List.mem_append.mp hm with hm | hm
      · obtain ⟨-, -, rfl, rfl⟩ := created_installMarks hm
        rcases List.mem_cons.mp hr with rfl | hr
        · simp at hlt
        · exact h.absent hs r hr hw m (hn hs)
      · have hle := hpast g m hm
        rcases List.mem_cons.mp hr with rfl | hr
        · simp only at hlt
          omega
        · exact h.above r hr hw g m hm hlt
    · rw [hrest] at hgone
      simp at hgone

/-- Issuing to another identity may cost `who` its state. -/
theorem install_other (h : Clear who a marks lately) (hw : who ≠ w)
    (hsub : ∀ v ∈ lately', v ∈ lately)
    (hlost : ∀ s, a.entries.get? who = some s → (a.install w n).2.entries.get? who = none →
      ∀ v ∈ lately', s.next ≤ v) :
    Clear who (a.install w n).2 (installMarks a w n ++ marks) lately' := by
  have hcreated : ∀ g m, .created who g m ∈ installMarks a w n ++ marks →
      .created who g m ∈ marks := by
    intro g m hm
    rcases List.mem_append.mp hm with hm | hm
    · exact absurd (created_installMarks hm).1 hw
    · exact hm
  have hout : ∀ r ∈ outstanding (installMarks a w n ++ marks), r.identity = who →
      r ∈ outstanding marks := by
    intro r hr hr'
    rw [outstanding_installMarks] at hr
    rcases List.mem_cons.mp hr with rfl | hr
    · exact absurd (hr'.symm.trans (Allocator.install_identity a w n)) hw
    · exact hr
  refine ⟨h.balanced.install w n, fun t ht => ?_, fun r hr hr' g m hm hlt => ?_,
    fun hgone r hr hr' v hv => ?_⟩
  · have hs := (Allocator.install_leaves a n hw).get? ht
    exact ⟨fun g m hm => (h.latest t hs).1 g m (hcreated g m hm),
      fun r hr hr' => (h.latest t hs).2 r (hout r hr hr') hr'⟩
  · exact h.above r (hout r hr hr') hr' g m (hcreated g m hm) hlt
  · cases hs : a.entries.get? who with
    | none => exact h.absent hs r (hout r hr hr') hr' v (hsub v hv)
    | some s =>
      exact Nat.lt_of_lt_of_le (h.below_next hs (hout r hr hr') hr') (hlost s hs hgone v hv)

theorem outstanding_giveBackMarks (h : r ∈ outstanding (giveBackMarks a q ++ marks)) :
    r ∈ outstanding marks := by
  simp only [giveBackMarks] at h
  split at h
  · exact List.mem_of_mem_erase h
  · exact h

theorem giveBack (h : Clear who a marks lately) (hr : r ∈ outstanding marks) :
    Clear who (a.giveBack r).2 (giveBackMarks a r ++ marks) lately := by
  have hcreated : ∀ g m, .created who g m ∈ giveBackMarks a r ++ marks →
      .created who g m ∈ marks := by
    intro g m hm
    rcases List.mem_append.mp hm with hm | hm
    · simp only [giveBackMarks] at hm
      split at hm <;> simp at hm
    · exact hm
  have hgen := Allocator.generation_release a r.identity who r.nonce (some r.generation)
  refine ⟨h.balanced.giveBack hr, fun t ht => ?_, fun q hq hw g m hm hlt => ?_,
    fun hgone q hq hw v hv => ?_⟩
  · rw [Allocator.giveBack] at ht
    rw [ht] at hgen
    obtain ⟨s, hs, hst⟩ := Option.map_eq_some_iff.mp hgen.symm
    rw [← hst]
    exact ⟨fun g m hm => (h.latest s hs).1 g m (hcreated g m hm),
      fun q hq hw => (h.latest s hs).2 q (outstanding_giveBackMarks hq) hw⟩
  · exact h.above q (outstanding_giveBackMarks hq) hw g m (hcreated g m hm) hlt
  · rw [Allocator.giveBack] at hgone
    rw [hgone] at hgen
    have hs := Option.map_eq_none_iff.mp hgen.symm
    exact h.absent hs q (outstanding_giveBackMarks hq) hw v hv

end Clear

/-- Besides, what was used is out for good, and nobody holds it. -/
structure Afloat (who : Address) (a : Allocator) (marks : List Mark) (used held : List Reservation)
    (lately : List Nat) : Prop where
  clear : Clear who a marks lately
  out : (used ++ held).Subperm (outstanding marks)

namespace Afloat

variable {who w : Address} {a : Allocator} {marks : List Mark} {used held rest : List Reservation}
  {lately lately' : List Nat} {r : Reservation} {n : Nat}

theorem anti (h : Afloat who a marks used held lately) (hsub : ∀ n ∈ lately', n ∈ lately) :
    Afloat who a marks used held lately' := ⟨h.clear.anti hsub, h.out⟩

theorem install (h : Afloat who a marks used held lately) (w : Address) (n : Nat)
    (hn : w = who → a.entries.get? who = none → n ∈ lately) (hsub : ∀ v ∈ lately', v ∈ lately)
    (hlost : ∀ s, a.entries.get? who = some s → (a.install w n).2.entries.get? who = none →
      ∀ v ∈ lately', s.next ≤ v) :
    Afloat who (a.install w n).2 (installMarks a w n ++ marks) used ((a.install w n).1 :: held)
      lately' := by
  refine ⟨?_, ?_⟩
  · by_cases hw : w = who
    · subst hw
      exact h.clear.install_self (hn rfl)
    · exact h.clear.install_other (Ne.symm hw) hsub hlost
  · rw [outstanding_installMarks]
    exact List.perm_middle.subperm_right.mpr ((List.subperm_cons _).mpr h.out)

theorem giveBack (h : Afloat who a marks used held lately) (hp : held.Perm (r :: rest)) :
    Afloat who (a.giveBack r).2 (giveBackMarks a r ++ marks) used rest lately := by
  have hout : (r :: (used ++ rest)).Subperm (outstanding marks) :=
    ((hp.append_left used).trans List.perm_middle).subperm_right.mp h.out
  exact ⟨h.clear.giveBack (hout.subset List.mem_cons_self), subperm_giveBackMarks a hout⟩

theorem use (h : Afloat who a marks used held lately) (hp : held.Perm (r :: rest)) :
    Afloat who a marks (r :: used) rest lately :=
  ⟨h.clear, ((hp.append_left used).trans List.perm_middle).subperm_right.mp h.out⟩

end Afloat

end Outbox.Nonce
