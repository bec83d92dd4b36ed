import Mathlib.Algebra.BigOperators.Group.Finset.Piecewise
import Mathlib.Algebra.Order.Ring.Int
import Outbox.Proofs.Nonce.Floor
import Outbox.Proofs.Nonce.Residency

namespace Outbox.Nonce

namespace State

variable {s s' : State} {n : Nat}

/-- How far `next` has come, without the numbers that wait below it. -/
def used (s : State) : ℤ := s.next - s.reclaimed.length

theorem length_insertAscending (n : Nat) (ms : List Nat) :
    (insertAscending n ms).length = ms.length + 1 := by
  induction ms with
  | nil => rfl
  | cons m ms ih =>
    unfold insertAscending
    split
    · rfl
    · rw [List.length_cons, ih, List.length_cons]

/-- Where `next` steps down by one, one number leaves the list. -/
theorem used_foldTail (next : Nat) (ms : List Nat) :
    ((foldTail next ms).1 : ℤ) - (foldTail next ms).2.length = next - ms.length := by
  induction ms generalizing next with
  | nil => rfl
  | cons n below ih =>
    unfold foldTail
    split
    · next hn =>
      have hbelow := ih n
      rw [List.length_cons]
      omega
    · rfl

theorem used_fold (s : State) : s.fold.used = s.used := by
  have htail := used_foldTail s.next s.reclaimed.reverse
  rw [List.length_reverse] at htail
  show ((foldTail s.next s.reclaimed.reverse).1 : ℤ) -
    (foldTail s.next s.reclaimed.reverse).2.reverse.length = s.next - s.reclaimed.length
  rw [List.length_reverse]
  exact htail

theorem used_start (next generation : Nat) : (State.start next generation).used = next := by
  simp [used, State.start]

theorem used_assign [Counter] (h : Counter.after s.peek = s.peek + 1) :
    s.assign.2.used = s.used + 1 := by
  unfold used assign
  cases hr : s.reclaimed with
  | nil =>
    have hpeek : s.peek = s.next := by simp [peek, hr]
    rw [hpeek] at h
    simp only [List.length_nil, h]
    omega
  | cons n rest =>
    simp only [List.length_cons]
    omega

theorem used_release (hr : s.release n = .ok s') :
    s'.used = s.used - 1 ∧ s'.generation = s.generation := by
  unfold release at hr
  split at hr
  · simp at hr
  · split at hr
    · simp at hr
    · obtain rfl := Except.ok.inj hr
      refine ⟨?_, rfl⟩
      rw [used_fold]
      have hlength := length_insertAscending n s.reclaimed
      simp only [used]
      omega

end State

section Tally

def Mark.isIssued : Mark → Bool
  | .issued _ => true
  | .created _ _ _ | .returned _ => false

def Mark.isReturned : Mark → Bool
  | .returned _ => true
  | .created _ _ _ | .issued _ => false

/-- The generation that begins. -/
def Mark.begins? : Mark → Option Nat
  | .created _ g _ => some g
  | .issued _ | .returned _ => none

def issues (log : List Mark) : Nat := log.countP Mark.isIssued

def returns (log : List Mark) : Nat := log.countP Mark.isReturned

/-- Issued, less taken back. -/
def tally (log : List Mark) : ℤ := issues log - returns log

def Mark.weight : Mark → ℤ
  | .created _ _ _ => 0
  | .issued _ => 1
  | .returned _ => -1

/-- The state a mark is about. -/
def Mark.subject (m : Mark) : Address × Nat := (m.identity, m.generation)

/-- What is marked of one state. -/
def about (subject : Address × Nat) (log : List Mark) : List Mark :=
  log.filter fun m => m.subject = subject

variable {log : List Mark} {m : Mark} {k : Address × Nat}

theorem tally_cons (m : Mark) (log : List Mark) : tally (m :: log) = m.weight + tally log := by
  simp only [tally, issues, returns, List.countP_cons]
  cases m with
  | created who g n => simp [Mark.isIssued, Mark.isReturned, Mark.weight]
  | issued r =>
    simp only [Mark.isIssued, Mark.isReturned, Mark.weight, if_true, Bool.false_eq_true, if_false]
    omega
  | returned r =>
    simp only [Mark.isIssued, Mark.isReturned, Mark.weight, if_true, Bool.false_eq_true, if_false]
    omega

theorem tally_about_self (h : m.subject = k) :
    tally (about k (m :: log)) = m.weight + tally (about k log) := by
  unfold about
  rw [List.filter_cons_of_pos (by simpa using h), tally_cons]

theorem tally_about_of_ne (h : m.subject ≠ k) :
    tally (about k (m :: log)) = tally (about k log) := by
  unfold about
  rw [List.filter_cons_of_neg (by simpa using h)]

theorem about_append (k : Address × Nat) (newer older : List Mark) :
    about k (newer ++ older) = about k newer ++ about k older := by
  simp [about]

theorem about_eq_nil (h : ∀ m ∈ log, m.subject ≠ k) : about k log = [] := by
  apply List.filter_eq_nil_iff.mpr
  intro m hm
  simpa using h m hm

end Tally

namespace Allocator

variable {a b : Allocator} {x : Access} {m : Mark} {who : Address}

/-- The marks that an access leaves. -/
def record [Counter] (a : Allocator) : Access → List Mark
  | .take who => ((a.take? who).map fun p => Mark.issued p.1).toList
  | .install who onChain => installMarks a who onChain
  | .reset who next => [.created who (a.generations + 1) next]
  | .release who n generation => releaseMarks a who n generation
  | .fail _ | .peek _ | .contains _ => []

theorem access_dealings [Counter] (a : Allocator) (x : Access) :
    Dealings a (a.record x) (a.access x) := by
  cases x with
  | take who =>
    cases ht : a.take? who with
    | none =>
      simp only [record, access, ht]
      exact .none a
    | some p =>
      simp only [record, access, ht]
      exact .one (.issues ht)
  | install who n => exact .install a who n
  | reset who n => exact .one (.creates a who n)
  | release who n generation => exact .one (.returns a who n generation)
  | fail who => exact .none a
  | peek who => exact .none a
  | contains who => exact .none a

/-- Whatever an access does, it does to a state that is there afterwards. -/
theorem resident_of_record [Counter] (hm : m ∈ a.record x) :
    ∃ s, (a.access x).entries.get? m.identity = some s ∧ s.generation = m.generation := by
  cases x with
  | take who =>
    simp only [record, Option.mem_toList, Option.map_eq_some_iff] at hm
    obtain ⟨⟨r, b⟩, ht, rfl⟩ := hm
    obtain ⟨s, hi⟩ := take?_issued ht
    obtain rfl := hi.reservation
    simp only [access, ht]
    exact ⟨_, hi.rest, State.assign_generation s⟩
  | install who n =>
    simp only [record, installMarks] at hm
    cases hs : a.entries.get? who with
    | some s =>
      have hi := install_issued hs n
      simp only [take?, hs, Option.map_some, List.mem_singleton, issue_eq] at hm
      obtain rfl := hm
      exact ⟨_, hi.rest, State.assign_generation s⟩
    | none =>
      obtain ⟨hfirst, hrest⟩ := install_started hs n
      rw [take?_eq_none.mpr hs, hfirst] at hm
      have hsubject : m.identity = who ∧ m.generation = a.generations + 1 := by
        simp only [List.mem_cons, List.not_mem_nil, or_false] at hm
        rcases hm with rfl | rfl <;> exact ⟨rfl, rfl⟩
      rw [hsubject.1, hsubject.2]
      exact ⟨_, hrest, State.assign_generation _⟩
  | reset who n =>
    obtain rfl := List.mem_singleton.mp hm
    exact ⟨_, get?_reset_self a who n, rfl⟩
  | release who n generation =>
    simp only [record, releaseMarks] at hm
    split at hm
    · next s hs _ =>
      obtain rfl := List.mem_singleton.mp hm
      have hsame := generation_release a who who n generation
      rw [hs, Option.map_some] at hsame
      exact Option.map_eq_some_iff.mp hsame
    · simp at hm
  | fail who => simp [record] at hm
  | peek who => simp [record] at hm
  | contains who => simp [record] at hm

/-- Who makes room is not counted. -/
theorem counters_store (a : Allocator) (who : Address) (s : State) :
    (a.store who s).allocated = a.allocated ∧ (a.store who s).released = a.released := by
  unfold store
  split
  · exact ⟨rfl, rfl⟩
  · split <;> exact ⟨rfl, rfl⟩

theorem counters_reset (a : Allocator) (who : Address) (next : Nat) :
    (a.reset who next).allocated = a.allocated ∧ (a.reset who next).released = a.released :=
  counters_store { a with generations := a.generations + 1 } who _

theorem counters_issue [Counter] (a : Allocator) (who : Address) (s : State) :
    (a.issue who s).2.allocated = a.allocated + 1 ∧ (a.issue who s).2.released = a.released :=
  ⟨rfl, (a.counters_store who s.assign.2).2⟩

end Allocator

/-- From every number that was issued the counter goes on to the next one. -/
def Unwrapped [Counter] (log : List Mark) : Prop :=
  ∀ r, .issued r ∈ log → Counter.after r.nonce = r.nonce + 1

namespace Unwrapped

variable {log newer older : List Mark} {m : Mark} {k : Address × Nat}

theorem of_append [Counter] (h : Unwrapped (newer ++ older)) :
    Unwrapped newer ∧ Unwrapped older := by
  constructor
  · intro r hr
    exact h r (List.mem_append_left _ hr)
  · intro r hr
    exact h r (List.mem_append_right _ hr)

theorem about [Counter] (h : Unwrapped log) (k : Address × Nat) : Unwrapped (about k log) := by
  intro r hr
  exact h r (List.mem_of_mem_filter hr)

theorem of_about_cons [Counter] (h : Unwrapped (Nonce.about k (m :: log))) :
    Unwrapped (Nonce.about k log) := by
  intro r hr
  apply h r
  obtain ⟨hin, hsubject⟩ := List.mem_filter.mp hr
  exact List.mem_filter.mpr ⟨List.mem_cons_of_mem _ hin, hsubject⟩

end Unwrapped

/-- Since its first number `who`'s state `s` has moved on by what is marked of it, unless it issued
a number from which the counter does not go on. -/
def Stands [Counter] (log : List Mark) (who : Address) (s : State) (start : Nat) : Prop :=
  Unwrapped (about (who, s.generation) log) →
    s.used = start + tally (about (who, s.generation) log)

namespace Stands

variable {log : List Mark} {who : Address} {s s' : State} {start n g : Nat} {m : Mark}

theorem skip [Counter] (h : Stands log who s start) (hm : m.identity ≠ who) :
    Stands (m :: log) who s start := by
  have hother : m.subject ≠ (who, s.generation) := by
    intro heq
    exact hm (congrArg Prod.fst heq)
  intro hwrap
  rw [tally_about_of_ne hother]
  exact h hwrap.of_about_cons

theorem assign [Counter] (h : Stands log who s start) :
    Stands (.issued ⟨who, s.assign.1, s.generation⟩ :: log) who s.assign.2 start := by
  have hown : (Mark.issued ⟨who, s.assign.1, s.generation⟩).subject = (who, s.generation) := rfl
  intro hwrap
  rw [State.assign_generation] at hwrap ⊢
  have hon : Counter.after s.peek = s.peek + 1 := by
    rw [← s.assign_fst]
    apply hwrap ⟨who, s.assign.1, s.generation⟩
    exact List.mem_filter.mpr ⟨List.mem_cons_self, by simp [hown]⟩
  rw [State.used_assign hon, tally_about_self hown, h hwrap.of_about_cons]
  show _ = (start : ℤ) + (1 + _)
  omega

theorem release [Counter] (h : Stands log who s start) (hr : s.release n = .ok s') :
    Stands (.returned ⟨who, n, s.generation⟩ :: log) who s' start := by
  have hown : (Mark.returned ⟨who, n, s.generation⟩).subject = (who, s.generation) := rfl
  obtain ⟨hused, hg⟩ := State.used_release hr
  intro hwrap
  rw [hg] at hwrap ⊢
  rw [hused, tally_about_self hown, h hwrap.of_about_cons]
  show _ = (start : ℤ) + (-1 + _)
  omega

theorem begun [Counter] (hg : ∀ m ∈ log, m.generation ≠ g) (who : Address) (n : Nat) :
    Stands (.created who g n :: log) who (.start n g) n := by
  have hnone : about (who, g) log = [] := by
    apply about_eq_nil
    intro m hm heq
    exact hg m hm (congrArg Prod.snd heq)
  have hown : (Mark.created who g n).subject = (who, g) := rfl
  intro _
  show (State.start n g).used = n + tally (about (who, g) (.created who g n :: log))
  rw [tally_about_self hown, hnone, State.used_start]
  rfl

end Stands

/-- The counters agree with the marks, and so does every state that is there. -/
structure Tallied [Counter] (a : Allocator) (log : List Mark) : Prop where
  dated : Dated a log
  allocated : a.allocated = issues log
  released : a.released = returns log
  numbered : log.filterMap Mark.begins? = (List.range' 1 a.generations).reverse
  begun : ∀ who s, a.entries.get? who = some s → ∃ start, .created who s.generation start ∈ log
  resident : ∀ who s start, a.entries.get? who = some s →
    .created who s.generation start ∈ log → Stands log who s start

namespace Tallied

variable {a b : Allocator} {log newer : List Mark} {r : Reservation} {who : Address}

theorem opened [Counter] (capacity : Nat) : Tallied (.ofCapacity capacity) [] where
  dated := .opened capacity
  allocated := rfl
  released := rfl
  numbered := rfl
  begun := by simp [Allocator.ofCapacity, Keyed.get?]
  resident := by simp

theorem issued [Counter] (h : Tallied a log) (ht : a.take? who = some (r, b)) :
    Tallied b (.issued r :: log) := by
  have hdated : Dated b (.issued r :: log) := h.dated.dealing (.issues ht)
  obtain ⟨s, hs, heq⟩ := Option.map_eq_some_iff.mp ht
  obtain ⟨hallocated, hreleased⟩ := a.counters_issue who s
  rw [heq] at hallocated hreleased
  rw [Allocator.issue_eq] at heq
  obtain ⟨rfl, rfl⟩ := Prod.mk.inj heq
  have hself := Allocator.get?_store_self a who s.assign.2
  refine ⟨hdated, ?_, ?_, ?_, ?_, ?_⟩
  · rw [hallocated, h.allocated]
    simp [issues, Mark.isIssued, List.countP_cons]
  · rw [hreleased, h.released]
    simp [returns, Mark.isReturned]
  · show _ = (List.range' 1 (a.store who s.assign.2).generations).reverse
    rw [Allocator.generations_store]
    exact h.numbered
  · intro w t hw
    by_cases hww : w = who
    · subst hww
      obtain rfl : s.assign.2 = t := Option.some.inj (hself.symm.trans hw)
      obtain ⟨start, hc⟩ := h.begun w s hs
      rw [State.assign_generation]
      exact ⟨start, List.mem_cons_of_mem _ hc⟩
    · obtain ⟨start, hc⟩ := h.begun w t ((Allocator.store_leaves a _ hww).get? hw)
      exact ⟨start, List.mem_cons_of_mem _ hc⟩
  · intro w t start hw hc
    have hold : .created w t.generation start ∈ log := by simpa using hc
    by_cases hww : w = who
    · subst hww
      obtain rfl : s.assign.2 = t := Option.some.inj (hself.symm.trans hw)
      rw [State.assign_generation] at hold
      have hbefore := h.resident w s start hs hold
      exact hbefore.assign
    · have hbefore := h.resident w t start ((Allocator.store_leaves a _ hww).get? hw) hold
      exact hbefore.skip (Ne.symm hww)

theorem created [Counter] (h : Tallied a log) (who : Address) (n : Nat) :
    Tallied (a.reset who n) (.created who (a.generations + 1) n :: log) := by
  obtain ⟨hallocated, hreleased⟩ := a.counters_reset who n
  have hbound : ∀ m ∈ log, m.generation ≠ a.generations + 1 := by
    intro m hm
    exact Nat.ne_of_lt (Nat.lt_succ_of_le (h.dated.bounded m hm))
  have hself := Allocator.get?_reset_self a who n
  refine ⟨h.dated.created who n, ?_, ?_, ?_, ?_, ?_⟩
  · exact hallocated.trans h.allocated
  · exact hreleased.trans h.released
  · -- the generation that begins is the last of the new range
    rw [Allocator.generations_reset, List.range'_concat, List.reverse_append]
    show (a.generations + 1) :: _ = _
    rw [h.numbered, Nat.one_mul, Nat.add_comm 1]
    rfl
  · intro w t hw
    by_cases hww : w = who
    · subst hww
      obtain rfl := Option.some.inj (hself.symm.trans hw)
      exact ⟨n, List.mem_cons_self⟩
    · obtain ⟨start, hc⟩ := h.begun w t ((Allocator.reset_leaves a n hww).get? hw)
      exact ⟨start, List.mem_cons_of_mem _ hc⟩
  · intro w t start hw hc
    by_cases hww : w = who
    · subst hww
      obtain rfl := Option.some.inj (hself.symm.trans hw)
      have hstart : start = n := by
        rcases List.mem_cons.mp hc with heq | hold
        · exact (Mark.created.inj heq).2.2
        · exact absurd rfl (hbound _ hold)
      rw [hstart]
      exact .begun hbound w n
    · have hold : .created w t.generation start ∈ log := by
        rcases List.mem_cons.mp hc with heq | hold
        · exact absurd (Mark.created.inj heq).1 hww
        · exact hold
      have hbefore := h.resident w t start ((Allocator.reset_leaves a n hww).get? hw) hold
      exact hbefore.skip (Ne.symm hww)

theorem returned [Counter] (h : Tallied a log) (who : Address) (n : Nat)
    (generation : Option Nat) :
    Tallied (a.release who n generation).2 (releaseMarks a who n generation ++ log) := by
  have hdated := h.dated.returned who n generation
  have hgenerations := Allocator.generations_release a who n generation
  cases hres : (a.release who n generation).1 with
  | error e =>
    have hunmoved := Allocator.unmoved_of_refused h.dated.distinct hres
    rw [releaseMarks_of_refused hres] at hdated ⊢
    refine ⟨hdated, hunmoved.allocated.trans h.allocated, hunmoved.released.trans h.released, ?_,
      ?_, ?_⟩
    · rw [hgenerations]
      exact h.numbered
    · intro w t hw
      rw [hunmoved.states w] at hw
      exact h.begun w t hw
    · intro w t start hw hc
      rw [hunmoved.states w] at hw
      exact h.resident w t start hw hc
  | ok u =>
    obtain ⟨s, s', hs, hr, hafter⟩ := Allocator.release_ok hres
    have hg : s'.generation = s.generation := (State.used_release hr).2
    rw [releaseMarks_of_taken hs hres] at hdated ⊢
    rw [hafter] at hdated ⊢
    have hstates : ∀ w t, (a.entries.put who s').get? w = some t →
        w = who ∧ t = s' ∨ w ≠ who ∧ a.entries.get? w = some t := by
      intro w t hw
      rw [Keyed.get?_put] at hw
      split at hw
      · next hww => exact .inl ⟨hww, (Option.some.inj hw).symm⟩
      · next hww => exact .inr ⟨hww, hw⟩
    refine ⟨hdated, ?_, ?_, h.numbered, ?_, ?_⟩
    · show a.allocated = _
      rw [h.allocated]
      simp [issues, Mark.isIssued]
    · show a.released + 1 = _
      rw [h.released]
      simp [returns, Mark.isReturned, List.countP_cons]
    · intro w t hw
      rcases hstates w t hw with ⟨rfl, rfl⟩ | ⟨-, hw⟩
      · obtain ⟨start, hc⟩ := h.begun w s hs
        rw [hg]
        exact ⟨start, List.mem_cons_of_mem _ hc⟩
      · obtain ⟨start, hc⟩ := h.begun w t hw
        exact ⟨start, List.mem_cons_of_mem _ hc⟩
    · intro w t start hw hc
      have hold : .created w t.generation start ∈ log := by simpa using hc
      rcases hstates w t hw with ⟨rfl, rfl⟩ | ⟨hww, hw⟩
      · rw [hg] at hold
        have hbefore := h.resident w s start hs hold
        exact hbefore.release hr
      · have hbefore := h.resident w t start hw hold
        exact hbefore.skip (Ne.symm hww)

theorem dealing [Counter] (hx : Dealing a newer b) (h : Tallied a log) :
    Tallied b (newer ++ log) := by
  cases hx with
  | issues ht => exact h.issued ht
  | creates who n => exact h.created who n
  | returns who n generation => exact h.returned who n generation

theorem access [Counter] (h : Tallied a log) (x : Access) :
    Tallied (a.access x) (a.record x ++ log) :=
  (a.access_dealings x).keep dealing h

end Tallied

end Outbox.Nonce
