import Mathlib.Data.List.Induction
import Outbox.Proofs.Nonce.FreeSet
import Outbox.Proofs.Nonce.Generations
import Outbox.Proofs.Nonce.Replies

namespace Outbox.Nonce

def Mark.identity : Mark → Address
  | .created who _ _ => who
  | .issued r => r.identity
  | .returned r => r.identity

section Outstanding

variable {log : List Mark} {r : Reservation} {m : Mark}

theorem issued_of_outstanding (h : r ∈ outstanding log) : .issued r ∈ log := by
  induction log with
  | nil => simp [outstanding] at h
  | cons m log ih =>
    cases m with
    | created who g n => exact List.mem_cons_of_mem _ (ih h)
    | issued q =>
      rcases List.mem_cons.mp h with rfl | h
      · exact List.mem_cons_self
      · exact List.mem_cons_of_mem _ (ih h)
    | returned q => exact List.mem_cons_of_mem _ (ih (List.mem_of_mem_erase h))

theorem mem_outstanding_of_ne (h : m.identity ≠ r.identity) :
    r ∈ outstanding (m :: log) ↔ r ∈ outstanding log := by
  cases m with
  | created who g n => rfl
  | issued q =>
    have hne : r ≠ q := by
      rintro rfl
      exact h rfl
    simp [outstanding, hne]
  | returned q =>
    have hne : r ≠ q := by
      rintro rfl
      exact h rfl
    exact List.mem_erase_of_ne hne

end Outstanding

/-- The free numbers of `who`'s state `s` can be told from the log: those not out, from `start` on or
given back before. -/
structure Traced (log : List Mark) (who : Address) (s : State) (start : Nat) : Prop where
  canonical : s.Canonical
  created : ∀ n, .created who s.generation n ∈ log ↔ n = start
  free : ∀ n, n ∈ s.free ↔ ⟨who, n, s.generation⟩ ∉ outstanding log ∧
    (start ≤ n ∨ .returned ⟨who, n, s.generation⟩ ∈ log)

namespace Traced

variable {log : List Mark} {who : Address} {s s' : State} {start n : Nat} {m : Mark}

theorem skip (h : Traced log who s start) (hm : m.identity ≠ who) :
    Traced (m :: log) who s start := by
  refine ⟨h.canonical, fun n => ?_, fun n => ?_⟩
  · rw [← h.created n, List.mem_cons]
    refine or_iff_right ?_
    rintro rfl
    exact hm rfl
  · have hr : .returned ⟨who, n, s.generation⟩ ∈ m :: log ↔
        .returned ⟨who, n, s.generation⟩ ∈ log := by
      rw [List.mem_cons]
      refine or_iff_right ?_
      rintro rfl
      exact hm rfl
    rw [h.free n, mem_outstanding_of_ne hm, hr]

theorem assign_mem_free (h : Traced log who s start) : s.assign.1 ∈ s.free := by
  rw [State.assign_fst]
  exact (State.peek_isLeast h.canonical).1

theorem assign (h : Traced log who s start) :
    Traced (.issued ⟨who, s.assign.1, s.generation⟩ :: log) who s.assign.2 start := by
  refine ⟨h.canonical.assign, fun n => ?_, fun n => ?_⟩
  · rw [State.assign_generation, ← h.created n]
    simp
  · rw [State.assign_generation, h.canonical.free_assign, Set.mem_sdiff, Set.mem_singleton_iff,
      h.free n]
    simp only [outstanding, List.mem_cons, Reservation.mk.injEq, true_and, and_true, reduceCtorEq,
      false_or]
    tauto

theorem release (h : Traced log who s start) (hd : (outstanding log).Nodup)
    (hr : s.release n = .ok s') :
    Traced (.returned ⟨who, n, s.generation⟩ :: log) who s' start := by
  obtain ⟨hc, hfree, hg⟩ := h.canonical.release hr
  refine ⟨hc, fun m => ?_, fun m => ?_⟩
  · rw [hg, ← h.created m]
    simp
  · rw [hg, hfree, Set.mem_insert_iff, h.free m]
    simp only [outstanding, hd.mem_erase_iff, List.mem_cons, Mark.returned.injEq,
      Reservation.mk.injEq, true_and, and_true, ne_eq]
    tauto

theorem begun (hg : ∀ m ∈ log, m.generation ≠ s.generation) (who : Address) {n : Nat}
    (hs : s = State.start n s.generation) :
    Traced (.created who s.generation n :: log) who s n := by
  have hnone : ∀ m : Mark, m.generation = s.generation → m ∉ log := fun m hm hin => hg m hin hm
  refine ⟨?_, fun v => ?_, fun v => ?_⟩
  · rw [hs]
    exact State.canonical_start _ _
  · have hv : .created who s.generation v ∉ log := hnone _ rfl
    simp [hv]
  · have hout : (⟨who, v, s.generation⟩ : Reservation) ∉ outstanding log :=
      fun ho => hnone (.issued _) rfl (issued_of_outstanding ho)
    have hback : .returned ⟨who, v, s.generation⟩ ∉ log := hnone _ rfl
    have hfree : v ∈ s.free ↔ n ≤ v := by
      rw [hs, State.mem_free]
      simp [State.start]
    simp [hfree, outstanding, hout, hback]

end Traced

/-- Every resident state can be told from the log. -/
structure Logged (a : Allocator) (log : List Mark) : Prop where
  dated : Dated a log
  nodup : (outstanding log).Nodup
  traced : ∀ who s, a.entries.get? who = some s → ∃ start, Traced log who s start

namespace Allocator

/-- A number that is taken back goes to the state that is there. -/
theorem release_ok {a : Allocator} {who : Address} {n : Nat} {generation : Option Nat}
    (h : (a.release who n generation).1 = .ok ()) :
    ∃ s s', a.entries.get? who = some s ∧ s.release n = .ok s' ∧
      (a.release who n generation).2 =
        { a with entries := a.entries.put who s', released := a.released + 1 } := by
  unfold release at h ⊢
  cases hs : a.entries.get? who with
  | none => simp [hs] at h
  | some s =>
    simp only [hs] at h ⊢
    split at h
    · simp at h
    · next hfit =>
      cases hr : s.release n with
      | error e => simp [hr] at h
      | ok s' =>
        simp only [if_neg hfit]
        exact ⟨s, s', rfl, hr, rfl⟩

end Allocator

namespace Logged

variable {a b : Allocator} {log newer : List Mark} {who : Address} {r : Reservation} {s : State}
  {n : Nat}

theorem opened (capacity : Nat) : Logged (.ofCapacity capacity) [] := by
  refine ⟨.opened capacity, List.nodup_nil, ?_⟩
  simp [Allocator.ofCapacity, Keyed.get?]

theorem issued (h : Logged a log) (hdated : Dated b (.issued r :: log))
    (hi : Allocator.Issued a who s r b) : Logged b (.issued r :: log) := by
  obtain rfl := hi.reservation
  obtain ⟨start, ht⟩ := h.traced who s hi.source
  have hfresh := ((ht.free _).mp ht.assign_mem_free).1
  refine ⟨hdated, List.nodup_cons.mpr ⟨hfresh, h.nodup⟩, fun w t hw => ?_⟩
  by_cases hww : w = who
  · subst hww
    rw [hi.rest] at hw
    obtain rfl := Option.some.inj hw
    exact ⟨start, ht.assign⟩
  · obtain ⟨v, hv⟩ := h.traced w t ((hi.others w hww).get? hw)
    exact ⟨v, hv.skip (Ne.symm hww)⟩

theorem created (h : Logged a log) (who : Address) (n : Nat) :
    Logged (a.reset who n) (.created who (a.generations + 1) n :: log) := by
  refine ⟨h.dated.created who n, h.nodup, fun w t hw => ?_⟩
  by_cases hww : w = who
  · subst hww
    rw [Allocator.get?_reset_self] at hw
    obtain rfl := Option.some.inj hw
    refine ⟨n, Traced.begun (s := .start n (a.generations + 1)) (fun m hm => ?_) w rfl⟩
    exact Nat.ne_of_lt (Nat.lt_succ_of_le (h.dated.bounded m hm))
  · obtain ⟨v, hv⟩ := h.traced w t ((Allocator.reset_leaves a n hww).get? hw)
    exact ⟨v, hv.skip (Ne.symm hww)⟩

theorem returned (h : Logged a log) (who : Address) (n : Nat) (generation : Option Nat) :
    Logged (a.release who n generation).2 (releaseMarks a who n generation ++ log) := by
  have hdated := h.dated.returned who n generation
  cases hres : (a.release who n generation).1 with
  | error e =>
    have hunmoved := Allocator.unmoved_of_refused h.dated.distinct hres
    rw [releaseMarks_of_refused hres] at hdated ⊢
    refine ⟨hdated, h.nodup, fun w t hw => h.traced w t ?_⟩
    rw [← hunmoved.states w, hw]
  | ok u =>
    obtain ⟨s, s', hs, hr, hafter⟩ := Allocator.release_ok hres
    rw [releaseMarks_of_taken hs hres] at hdated ⊢
    refine ⟨hdated, h.nodup.erase _, fun w t hw => ?_⟩
    rw [hafter] at hw
    simp only [Keyed.get?_put] at hw
    by_cases hww : w = who
    · subst hww
      obtain rfl : s' = t := by simpa using hw
      obtain ⟨start, ht⟩ := h.traced w s hs
      exact ⟨start, ht.release h.nodup hr⟩
    · rw [if_neg hww] at hw
      obtain ⟨v, hv⟩ := h.traced w t hw
      exact ⟨v, hv.skip (Ne.symm hww)⟩

theorem dealing (hx : Dealing a newer b) (h : Logged a log) : Logged b (newer ++ log) := by
  have hdated := h.dated.dealing hx
  cases hx with
  | issues ht =>
    obtain ⟨s, hi⟩ := Allocator.take?_issued ht
    exact h.issued hdated hi
  | creates who n => exact h.created who n
  | returns who n generation => exact h.returned who n generation

end Logged

namespace Book

variable {κ : Type} [DecidableEq κ] {b : Book κ} {r : Reservation} {log : List Mark}
  {past : List (Act κ)} {x : Act κ}

theorem not_returned_of_installMarks (a : Allocator) (who : Address) (n : Nat) :
    .returned r ∉ installMarks a who n := by
  simp only [installMarks]
  split <;> simp

theorem mem_installMarks (a : Allocator) (who : Address) (n : Nat) :
    .issued (a.install who n).1 ∈ installMarks a who n := by
  simp only [installMarks]
  cases ht : a.take? who with
  | none => simp
  | some p => simp [Allocator.install_of_take? ht]

/-- What an act records of its own. -/
inductive Own (b : Book κ) (x : Act κ) : List Mark → Prop where
  | nothing : Own b x []
  | installs (who : Address) (n : Nat) : Own b x (installMarks b.allocator who n)
  | creates (who : Address) (n : Nat) : Own b x [.created who (b.allocator.generations + 1) n]
  | frees {who : Address} {n : Nat} (hx : x = .release who n) :
      Own b x (releaseMarks b.allocator who n none)

theorem Own.of_take? {κ : Type} {b : Book κ} {x : Act κ} {p : Reservation × Allocator}
    {who : Address} (h : b.allocator.take? who = some p) : Own b x [.issued p.1] := by
  have hown : Own b x (installMarks b.allocator who 0) := .installs who 0
  simpa only [installMarks, h] using hown

/-- The record of an act is what it does itself, and before that what came back from a holder. -/
structure Recorded (b : Book κ) (x : Act κ) (back own : List Mark) : Prop where
  eq : b.record x = back ++ own
  held : ∀ m ∈ back, ∃ k r, m = .returned r ∧ b.held.get? k = some r
  own : Own b x own

theorem Recorded.of_own {own : List Mark} (heq : b.record x = own) (h : Own b x own) :
    Recorded b x [] own := ⟨heq, by simp, h⟩

theorem Recorded.after_displaced {own : List Mark} {k : κ} {a : Allocator}
    (heq : b.record x = b.displaced k a ++ own) (h : Own b x own) :
    Recorded b x (b.displaced k a) own :=
  ⟨heq, fun _ hm => ⟨k, mem_displaced hm⟩, h⟩

theorem recorded (b : Book κ) (x : Act κ) : ∃ back own, Recorded b x back own := by
  cases x with
  | reserve k who =>
    cases ht : b.allocator.take? who with
    | none => exact ⟨_, _, .of_own (by simp [record, marks, ht]) .nothing⟩
    | some p =>
      have heq : b.record (.reserve k who) = b.displaced k p.2 ++ [.issued p.1] := by
        simp [record, marks, ht]
      exact ⟨_, _, .after_displaced heq (.of_take? ht)⟩
  | allocate k who =>
    cases ht : b.allocator.take? who with
    | none => exact ⟨_, _, .of_own (by simp [record, marks, ht]) .nothing⟩
    | some p => exact ⟨_, _, .of_own (by simp [record, marks, ht]) (.of_take? ht)⟩
  | reserved k n =>
    cases hk : b.waiting.get? k with
    | none => exact ⟨_, _, .of_own (by simp [record, marks, hk]) .nothing⟩
    | some who =>
      have heq : b.record (.reserved k n) =
          b.displaced k (b.allocator.install who n).2 ++ installMarks b.allocator who n := by
        simp [record, marks, hk]
      exact ⟨_, _, .after_displaced heq (.installs who n)⟩
  | allocated k n =>
    cases hk : b.waiting.get? k with
    | none => exact ⟨_, _, .of_own (by simp [record, marks, hk]) .nothing⟩
    | some who => exact ⟨_, _, .of_own (by simp [record, marks, hk]) (.installs who n)⟩
  | abandon k => exact ⟨_, _, .of_own rfl .nothing⟩
  | commit k => exact ⟨_, _, .of_own rfl .nothing⟩
  | giveBack k => exact ⟨_, _, .after_displaced (List.append_nil _).symm .nothing⟩
  | drop k => exact ⟨_, _, .after_displaced (List.append_nil _).symm .nothing⟩
  | reset who n => exact ⟨_, _, .of_own rfl (.creates who n)⟩
  | release who n => exact ⟨_, _, .of_own rfl (.frees rfl)⟩

/-- A number comes back from whoever holds it, or from somebody who may not. -/
theorem returned_cases (h : .returned r ∈ b.record x) :
    x = .release r.identity r.nonce ∨ ∃ k, b.held.get? k = some r := by
  obtain ⟨back, own, hrec⟩ := b.recorded x
  rw [hrec.eq] at h
  rcases List.mem_append.mp h with hback | hown
  · obtain ⟨k, q, hq, hk⟩ := hrec.held _ hback
    obtain rfl := Mark.returned.inj hq
    exact .inr ⟨k, hk⟩
  · cases hrec.own with
    | nothing => simp at hown
    | installs who n => exact absurd hown (not_returned_of_installMarks _ _ _)
    | creates who n => simp at hown
    | frees hx =>
      obtain ⟨g, hg⟩ := mem_releaseMarks hown
      obtain rfl := Mark.returned.inj hg
      exact .inl hx

theorem Recorded.own_of_issued {back own : List Mark} (h : Recorded b x back own)
    (hi : .issued r ∈ b.record x) :
    ∃ who n, own = installMarks b.allocator who n ∧ r = (b.allocator.install who n).1 := by
  rw [h.eq] at hi
  rcases List.mem_append.mp hi with hback | hown
  · obtain ⟨k, q, hq, -⟩ := h.held _ hback
    simp at hq
  · cases h.own with
    | nothing => simp at hown
    | installs who n => exact ⟨who, n, rfl, issued_of_installMarks hown⟩
    | creates who n => simp at hown
    | frees hx =>
      obtain ⟨g, hg⟩ := mem_releaseMarks hown
      simp at hg

/-- Whatever an act creates is of the next generation, and a number that the same act issues from
that generation is its first. -/
theorem created_of_record {who : Address} {g n : Nat} (h : .created who g n ∈ b.record x) :
    g = b.allocator.generations + 1 ∧
      ∀ r, .issued r ∈ b.record x → r.nonce = n := by
  obtain ⟨back, own, hrec⟩ := b.recorded x
  have hown : .created who g n ∈ own := by
    rw [hrec.eq] at h
    refine (List.mem_append.mp h).resolve_left fun hback => ?_
    obtain ⟨k, q, hq, -⟩ := hrec.held _ hback
    simp at hq
  refine ⟨?_, fun r hr => ?_⟩
  · cases hrec.own with
    | nothing => simp at hown
    | installs w v => exact (created_installMarks hown).2.2.1
    | creates w v => exact (Mark.created.inj (List.mem_singleton.mp hown)).2.1
    | frees hx =>
      obtain ⟨g, hg⟩ := mem_releaseMarks hown
      simp at hg
  · obtain ⟨w, v, rfl, rfl⟩ := hrec.own_of_issued hr
    obtain ⟨-, hnone, -, rfl⟩ := created_installMarks hown
    rw [(Allocator.install_started hnone n).1]

theorem held_hold (b : Book κ) (k : κ) (r : Reservation) : (b.hold k r).held = b.held.put k r := by
  unfold hold
  cases b.held.get? k <;> rfl

/-- What an act does to what is held: nothing, one caller holds nothing any more, or one holds what
has just been issued. -/
theorem held_cases (b : Book κ) (x : Act κ) :
    (b.act x).held = b.held ∨ (∃ k, (b.act x).held = b.held.erase k) ∨
      ∃ k r, .issued r ∈ b.record x ∧ (b.act x).held = b.held.put k r := by
  cases x with
  | reserve k who =>
    cases ht : b.allocator.take? who with
    | none => exact .inl (by simp [act, reserve?, ht, park])
    | some p =>
      refine .inr (.inr ⟨k, p.1, by simp [record, marks, ht], ?_⟩)
      simp [act, reserve?, ht, held_hold]
  | allocate k who =>
    refine .inl ?_
    cases ht : b.allocator.take? who <;> simp [act, ht, park]
  | reserved k n =>
    cases hk : b.waiting.get? k with
    | none => exact .inl (by simp [act, hk])
    | some who =>
      refine .inr (.inr ⟨k, (b.allocator.install who n).1, ?_, ?_⟩)
      · simp only [record, marks, hk, List.mem_append]
        exact .inr (mem_installMarks _ _ _)
      · simp [act, hk, install, held_hold, unpark]
  | allocated k n =>
    refine .inl ?_
    cases hk : b.waiting.get? k <;> simp [act, hk, unpark]
  | abandon k => exact .inl rfl
  | commit k =>
    cases hk : b.held.get? k with
    | none => exact .inl (by simp [act, commit?, hk])
    | some r => exact .inr (.inl ⟨k, by simp [act, commit?, hk]⟩)
  | giveBack k =>
    cases hk : b.held.get? k with
    | none => exact .inl (by simp [act, giveBack?, hk])
    | some r => exact .inr (.inl ⟨k, by simp [act, giveBack?, hk]⟩)
  | drop k =>
    cases hk : b.held.get? k with
    | none => exact .inl (by simp [act, drop?, hk])
    | some r => exact .inr (.inl ⟨k, by simp [act, drop?, hk]⟩)
  | reset who n => exact .inl rfl
  | release who n => exact .inl rfl

/-- Whatever is held after an act was held before, or has just been issued. -/
theorem held_act {k : κ} (h : (b.act x).held.get? k = some r) :
    b.held.get? k = some r ∨ .issued r ∈ b.record x := by
  rcases b.held_cases x with heq | ⟨j, heq⟩ | ⟨j, q, hi, heq⟩
  · rw [heq] at h
    exact .inl h
  · rw [heq, Keyed.get?_erase] at h
    split at h
    · simp at h
    · exact .inl h
  · rw [heq, Keyed.get?_put] at h
    split at h
    · obtain rfl := Option.some.inj h
      exact .inr hi
    · exact .inl h

theorem run_append (b : Book κ) (acts : List (Act κ)) (x : Act κ) :
    b.run (acts ++ [x]) = (b.run acts).act x := by
  simp [run]

theorem recordAll_append (b : Book κ) (acts : List (Act κ)) (x : Act κ) :
    b.recordAll (acts ++ [x]) = (b.run acts).record x ++ b.recordAll acts := by
  induction acts generalizing b with
  | nil => simp [recordAll, run]
  | cons y acts ih =>
    simp only [List.cons_append, recordAll, ih (b.act y), List.append_assoc]
    rfl

theorem logged_run (capacity : Nat) (acts : List (Act κ)) :
    Logged ((opened capacity : Book κ).run acts).allocator
      ((opened capacity : Book κ).recordAll acts) := by
  have hkept := ((opened capacity : Book κ).run_dealings acts).keep (P := Logged) Logged.dealing
    (Logged.opened capacity)
  rwa [List.append_nil] at hkept

/-- A number that a state issues lies at or above its first one, or came back below it. -/
theorem floor_of_issued {start : Nat} (h : Logged b.allocator log)
    (hi : .issued r ∈ b.record x) (hc : .created r.identity r.generation start ∈ log) :
    start ≤ r.nonce ∨ .returned r ∈ log := by
  obtain ⟨back, own, hrec⟩ := b.recorded x
  obtain ⟨w, n, -, rfl⟩ := hrec.own_of_issued hi
  rw [Allocator.install_identity] at hc
  cases hs : b.allocator.entries.get? w with
  | none =>
    rw [(Allocator.install_started hs n).1] at hc
    exact absurd (h.dated.bounded _ hc) (Nat.not_succ_le_self _)
  | some s =>
    obtain ⟨v, ht⟩ := h.traced w s hs
    rw [(Allocator.install_issued hs n).reservation] at hc ⊢
    obtain rfl := (ht.created start).mp hc
    exact ((ht.free _).mp ht.assign_mem_free).2

/-- A state that has just begun has issued its first number at most. -/
theorem first_of_created {start : Nat} (h : Logged b.allocator log)
    (hheld : ∀ k r, b.held.get? k = some r → .issued r ∈ log)
    (hc : .created r.identity r.generation start ∈ b.record x)
    (hr : (.issued r ∈ b.record x ∨ .issued r ∈ log) ∨
      (.returned r ∈ b.record x ∨ .returned r ∈ log)) : start = r.nonce := by
  obtain ⟨hg, hfirst⟩ := created_of_record hc
  have hnot : ∀ m ∈ log, m.generation ≠ r.generation := by
    intro m hm
    have hle := h.dated.bounded m hm
    omega
  rcases hr with (hi | hi) | (hback | hback)
  · exact (hfirst r hi).symm
  · exact absurd rfl (hnot _ hi)
  · rcases returned_cases hback with rfl | ⟨k, hk⟩
    · obtain ⟨g, hback⟩ := mem_releaseMarks hc
      simp at hback
    · exact absurd rfl (hnot _ (hheld k r hk))
  · exact absurd rfl (hnot _ hback)

section Rooted

variable {capacity : Nat} {acts : List (Act κ)}

/-- At some point of the acts the number of `r` was not out and was taken back all the same. -/
def Strayed (capacity : Nat) (acts : List (Act κ)) (r : Reservation) : Prop :=
  ∃ earlier later, acts = earlier ++ .release r.identity r.nonce :: later ∧
    .returned r ∈ ((opened capacity : Book κ).run earlier).record (.release r.identity r.nonce) ∧
    r ∉ outstanding ((opened capacity : Book κ).recordAll earlier)

theorem Strayed.append (h : Strayed capacity acts r) (x : Act κ) :
    Strayed capacity (acts ++ [x]) r := by
  obtain ⟨earlier, later, rfl, hback, hout⟩ := h
  exact ⟨earlier, later ++ [x], by simp, hback, hout⟩

/-- Whatever is held was issued, and what moved below the first number of its state has strayed. -/
structure Rooted (capacity : Nat) (acts : List (Act κ)) : Prop where
  held : ∀ k r, ((opened capacity : Book κ).run acts).held.get? k = some r →
    .issued r ∈ (opened capacity : Book κ).recordAll acts
  below : ∀ r, .issued r ∈ (opened capacity : Book κ).recordAll acts ∨
      .returned r ∈ (opened capacity : Book κ).recordAll acts →
    ∀ start, .created r.identity r.generation start ∈ (opened capacity : Book κ).recordAll acts →
      start ≤ r.nonce ∨ Strayed capacity acts r

theorem Rooted.append (h : Rooted capacity acts) (x : Act κ) : Rooted capacity (acts ++ [x]) := by
  have hlogged : Logged ((opened capacity : Book κ).run acts).allocator
      ((opened capacity : Book κ).recordAll acts) := logged_run capacity acts
  have hbefore : ∀ {r start}, .issued r ∈ (opened capacity : Book κ).recordAll acts ∨
      .returned r ∈ (opened capacity : Book κ).recordAll acts →
      .created r.identity r.generation start ∈ (opened capacity : Book κ).recordAll acts →
      start ≤ r.nonce ∨ Strayed capacity (acts ++ [x]) r :=
    fun hr hc => (h.below _ hr _ hc).imp_right fun hs => hs.append x
  refine ⟨fun k r hk => ?_, fun r hr start hc => ?_⟩
  · rw [run_append] at hk
    rw [recordAll_append]
    rcases held_act hk with hk | hi
    · exact List.mem_append_right _ (h.held k r hk)
    · exact List.mem_append_left _ hi
  · rw [recordAll_append, List.mem_append] at hc
    simp only [recordAll_append, List.mem_append] at hr
    rcases hc with hnew | hc
    · exact .inl (Nat.le_of_eq (first_of_created hlogged h.held hnew hr))
    · rcases hr with (hi | hr) | (hback | hr)
      · rcases floor_of_issued hlogged hi hc with hle | hback
        · exact .inl hle
        · exact hbefore (.inr hback) hc
      · exact hbefore (.inl hr) hc
      · rcases returned_cases hback with rfl | ⟨k, hk⟩
        · by_cases hout : r ∈ outstanding ((opened capacity : Book κ).recordAll acts)
          · exact hbefore (.inl (issued_of_outstanding hout)) hc
          · exact .inr ⟨acts, [], rfl, hback, hout⟩
        · exact hbefore (.inl (h.held k r hk)) hc
      · exact hbefore (.inr hr) hc

theorem rooted_run (capacity : Nat) (acts : List (Act κ)) : Rooted capacity acts := by
  induction acts using List.reverseRec with
  | nil => exact ⟨fun k r hk => by simp [run, opened, Keyed.get?] at hk, by simp [recordAll]⟩
  | append_singleton acts x ih => exact ih.append x

/-- After any acts: a number is taken back from somebody who names no generation exactly if it is
out, or lies below the first number of its state and has not come back before. The next number lies
below the first one exactly if one that came back there is not out, and whatever a state issued
below its first number had strayed. The counter is endless: the last number of 64 bits could not be
taken back (`State.release_last`). -/
theorem taken_back_iff_out_or_below (capacity : Nat) (acts : List (Act κ)) :
    let b := (opened capacity : Book κ).run acts
    let log := (opened capacity : Book κ).recordAll acts
    (∀ who n, b.allocator.entries.get? who = none →
      (b.allocator.release who n none).1 = .error (.untracked n)) ∧
    (∀ who s, b.allocator.entries.get? who = some s → ∃ start,
      (∀ n, .created who s.generation n ∈ log ↔ n = start) ∧
      (∀ n, (b.allocator.release who n none).1 = .ok () ↔
        ⟨who, n, s.generation⟩ ∈ outstanding log ∨
          n < start ∧ .returned ⟨who, n, s.generation⟩ ∉ log) ∧
      (∀ n, ⟨who, n, s.generation⟩ ∈ outstanding log →
        .issued ⟨who, n, s.generation⟩ ∈ log ∧ n < s.next ∧ n ∉ s.reclaimed) ∧
      ∀ r a, b.allocator.take? who = some (r, a) → (r.nonce < start ↔
        ∃ n < start, .returned ⟨who, n, s.generation⟩ ∈ log ∧
          ⟨who, n, s.generation⟩ ∉ outstanding log)) ∧
    ∀ r start, .created r.identity r.generation start ∈ log → .issued r ∈ log →
      start ≤ r.nonce ∨ Strayed capacity acts r := by
  intro b log
  have hlogged : Logged b.allocator log := logged_run capacity acts
  refine ⟨fun who n hnone => ?_, fun who s hs => ?_, fun r start hc hi =>
    (rooted_run capacity acts).below r (.inl hi) start hc⟩
  · simp [Allocator.release, hnone]
  obtain ⟨start, ht⟩ := hlogged.traced who s hs
  have hused : ∀ n, n ∉ s.free ↔ n < s.next ∧ n ∉ s.reclaimed := by
    intro n
    rw [State.mem_free, not_or, Nat.not_le, and_comm]
  refine ⟨start, ht.created, fun n => ?_, fun n hout => ?_, fun r a htake => ?_⟩
  · have htaken : (b.allocator.release who n none).1 = .ok () ↔ n ∉ s.free := by
      rw [Allocator.release_isOk, hused]
      simp [hs]
    rw [htaken, ht.free, not_and_or, not_not, not_or, Nat.not_le]
  · have hnot : n ∉ s.free := fun hfree => ((ht.free n).mp hfree).1 hout
    exact ⟨issued_of_outstanding hout, (hused n).mp hnot⟩
  · obtain ⟨t, hissued⟩ := Allocator.take?_issued htake
    obtain rfl : s = t := Option.some.inj (hs.symm.trans hissued.source)
    rw [hissued.reservation]
    constructor
    · intro hlt
      obtain ⟨hout, hback⟩ := (ht.free _).mp ht.assign_mem_free
      exact ⟨_, hlt, hback.resolve_left (Nat.not_le.mpr hlt), hout⟩
    · rintro ⟨n, hlt, hback, hout⟩
      have hle : s.peek ≤ n := (State.peek_isLeast ht.canonical).2 ((ht.free n).mpr ⟨hout, .inr hback⟩)
      rw [State.assign_fst]
      exact Nat.lt_of_le_of_lt hle hlt

/-- The ledger says 5, and somebody gives 2 back. -/
def strayed (x : Address) : List (Act Nat) := [.allocate 0 x, .allocated 0 5, .release x 2]

theorem taken_back_iff_out_or_below_strayed :
    let x := Address.ofNat 1
    let b := (opened 4 : Book Nat).run (strayed x)
    (b.allocator.release x 5 none).1 = .ok () ∧ (b.allocator.release x 3 none).1 = .ok () ∧
      (b.allocator.release x 2 none).1 ≠ .ok () ∧
      ∃ r a, b.allocator.take? x = some (r, a) ∧ r.nonce < 5 ∧
        Strayed 4 (strayed x ++ [.allocate 1 x]) ⟨x, 2, 1⟩ := by
  intro x b
  have hres : b.allocator.entries.get? x = some ⟨6, [2], 1⟩ := by decide
  have hlog : (opened 4 : Book Nat).recordAll (strayed x) =
      [.returned ⟨x, 2, 1⟩, .issued ⟨x, 5, 1⟩, .created x 1 5] := by decide
  obtain ⟨-, hstate, -⟩ := taken_back_iff_out_or_below 4 (strayed x)
  obtain ⟨start, hc, htaken, -, hnext⟩ := hstate x _ hres
  simp only [hlog] at hc htaken hnext
  obtain rfl : 5 = start := (hc 5).mp (by decide)
  obtain ⟨-, -, hbelow⟩ := taken_back_iff_out_or_below 4 (strayed x ++ [.allocate 1 x])
  have hstrayed := (hbelow ⟨x, 2, 1⟩ 5 (by decide) (by decide)).resolve_left (by decide)
  obtain ⟨p, hp⟩ : ∃ p, b.allocator.take? x = some p := ⟨_, rfl⟩
  refine ⟨(htaken 5).mpr (.inl (by decide)), (htaken 3).mpr (.inr ⟨by decide, by decide⟩),
    fun h => absurd ((htaken 2).mp h) (by decide), p.1, p.2, hp,
    (hnext _ _ hp).mpr ⟨2, by decide, by decide, by decide⟩, hstrayed⟩

/-- A number that the state has never issued is taken back, and issued. -/
theorem number_below_start_issued :
    let x := Address.ofNat 1
    let b := (opened 4 : Book Nat).run [.allocate 0 x, .allocated 0 5]
    (opened 4 : Book Nat).recordAll [.allocate 0 x, .allocated 0 5] =
        [.issued ⟨x, 5, 1⟩, .created x 1 5] ∧
      (b.allocator.release x 2 none).1 = .ok () ∧
      ((b.act (.release x 2)).allocator.take? x).map Prod.fst = some ⟨x, 2, 1⟩ ∧
      (b.act (.release x 2)).record (.allocate 1 x) = [.issued ⟨x, 2, 1⟩] := by
  refine ⟨?_, ?_, ?_, ?_⟩ <;> decide

end Rooted

end Book

end Outbox.Nonce
