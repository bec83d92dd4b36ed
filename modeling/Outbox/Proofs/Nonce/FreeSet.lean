import Mathlib.Data.List.Sort
import Mathlib.Order.Bounds.Basic
import Outbox.Proofs.Nonce.Residents

namespace Outbox.Nonce.State

/-- The numbers that may be issued next: those given back and all from `next` on. -/
def free (s : State) : Set Nat := {n | n ∈ s.reclaimed} ∪ {n | s.next ≤ n}

/-- What can be done to a state. -/
inductive Use where
  | assign
  | release (n : Nat)
deriving DecidableEq

/-- The state after a use. One that is refused leaves it as it is. -/
def after (s : State) : Use → State
  | .assign => s.assign.2
  | .release n =>
    match s.release n with
    | .ok s' => s'
    | .error _ => s

def afterAll (s : State) (uses : List Use) : State := uses.foldl after s

/-- No number is written down that need not be: those given back lie below `next`, in order, and do
not reach up to it. -/
structure Canonical (s : State) : Prop where
  ascending : s.reclaimed.Pairwise (· < ·)
  below : ∀ n ∈ s.reclaimed, n < s.next
  tail : s.next - 1 ∉ s.reclaimed

variable {s s' t : State} {n : Nat}

theorem mem_free : n ∈ s.free ↔ n ∈ s.reclaimed ∨ s.next ≤ n := Iff.rfl

theorem canonical_start (next generation : Nat) : (State.start next generation).Canonical :=
  ⟨List.Pairwise.nil, by simp [State.start], by simp [State.start]⟩

theorem peek_isLeast (h : s.Canonical) : IsLeast s.free s.peek := by
  unfold peek
  cases hr : s.reclaimed with
  | nil =>
    refine ⟨.inr (Nat.le_refl _), fun m hm => ?_⟩
    rw [mem_free, hr] at hm
    simpa using hm
  | cons n rest =>
    have hasc := h.ascending
    have hlow := h.below n (by rw [hr]; exact List.mem_cons_self)
    rw [hr, List.pairwise_cons] at hasc
    have hin : n ∈ s.free := by
      rw [mem_free, hr]
      exact .inl List.mem_cons_self
    refine ⟨hin, fun m hm => ?_⟩
    show n ≤ m
    rw [mem_free, hr, List.mem_cons] at hm
    rcases hm with (rfl | hm) | hm
    · exact Nat.le_refl _
    · exact Nat.le_of_lt (hasc.1 m hm)
    · omega

theorem assign_fst [Counter] (s : State) : s.assign.1 = s.peek := by
  simp only [assign, peek]
  cases s.reclaimed <;> rfl

theorem Canonical.assign [Counter] (h : s.Canonical) : s.assign.2.Canonical := by
  unfold State.assign
  cases hr : s.reclaimed with
  | nil =>
    exact ⟨List.Pairwise.nil, by simp, by simp⟩
  | cons n rest =>
    obtain ⟨hasc, hlow, htail⟩ := h
    rw [hr] at hasc hlow htail
    exact ⟨hasc.tail, fun m hm => hlow m (List.mem_cons_of_mem _ hm),
      fun hm => htail (List.mem_cons_of_mem _ hm)⟩

theorem Canonical.free_assign_of [Counter] (h : s.Canonical)
    (hon : s.reclaimed = [] → Counter.after s.next = s.next + 1) :
    s.assign.2.free = s.free \ {s.assign.1} := by
  ext m
  rw [Set.mem_sdiff, Set.mem_singleton_iff, mem_free, mem_free]
  unfold State.assign
  cases hr : s.reclaimed with
  | nil =>
    simp only [List.not_mem_nil, false_or]
    rw [hon hr]
    omega
  | cons n rest =>
    have hasc := h.ascending
    have hlow := h.below n (by rw [hr]; exact List.mem_cons_self)
    rw [hr, List.pairwise_cons] at hasc
    simp only [List.mem_cons]
    constructor
    · rintro (hm | hm)
      · exact ⟨.inl (.inr hm), (hasc.1 m hm).ne'⟩
      · exact ⟨.inr hm, by omega⟩
    · rintro ⟨(rfl | hm) | hm, hne⟩
      · exact absurd rfl hne
      · exact .inl hm
      · exact .inr hm

theorem Canonical.free_assign (h : s.Canonical) : s.assign.2.free = s.free \ {s.assign.1} :=
  h.free_assign_of fun _ => rfl

theorem mem_insertAscending {n m : Nat} {ms : List Nat} :
    m ∈ insertAscending n ms ↔ m = n ∨ m ∈ ms := by
  have hc := count_insertAscending n m ms
  rw [← List.count_pos_iff, ← List.count_pos_iff (l := ms), hc]
  by_cases hm : n = m
  · simp [hm]
  · simp [hm, Ne.symm hm]

theorem pairwise_insertAscending {ms : List Nat} (h : ms.Pairwise (· < ·)) (hn : n ∉ ms) :
    (insertAscending n ms).Pairwise (· < ·) := by
  induction ms with
  | nil => exact List.pairwise_singleton _ _
  | cons m ms ih =>
    obtain ⟨hm, hms⟩ := List.pairwise_cons.mp h
    obtain ⟨hne, hn'⟩ := not_or.mp (fun hc => hn (List.mem_cons.mpr hc))
    unfold insertAscending
    split
    · next hlt =>
      refine List.pairwise_cons.mpr ⟨fun k hk => ?_, h⟩
      rcases List.mem_cons.mp hk with rfl | hk
      · exact hlt
      · exact Nat.lt_trans hlt (hm k hk)
    · next hlt =>
      refine List.pairwise_cons.mpr ⟨fun k hk => ?_, ih hms hn'⟩
      rcases mem_insertAscending.mp hk with rfl | hk
      · omega
      · exact hm k hk

/-- What is left after the fold is a part of the list, below the new `next` and not up to it. -/
theorem foldTail_spec {next : Nat} {ms : List Nat} (hd : ms.Pairwise (· > ·))
    (hb : ∀ m ∈ ms, m < next) :
    (foldTail next ms).2 <:+ ms ∧ (∀ m ∈ (foldTail next ms).2, m < (foldTail next ms).1) ∧
      (foldTail next ms).1 - 1 ∉ (foldTail next ms).2 := by
  induction ms generalizing next with
  | nil => exact ⟨List.suffix_rfl, by simp [foldTail], by simp [foldTail]⟩
  | cons n below ih =>
    obtain ⟨hn, hd'⟩ := List.pairwise_cons.mp hd
    have hlt := hb n List.mem_cons_self
    unfold foldTail
    split
    · obtain ⟨hs, hlow, htail⟩ := ih hd' hn
      exact ⟨hs.trans (List.suffix_cons _ _), hlow, htail⟩
    · next hne =>
      refine ⟨List.suffix_rfl, hb, fun hm => ?_⟩
      rcases List.mem_cons.mp hm with heq | hm
      · omega
      · have hlow := hn _ hm
        omega

theorem canonical_fold (ha : s.reclaimed.Pairwise (· < ·)) (hb : ∀ n ∈ s.reclaimed, n < s.next) :
    s.fold.Canonical := by
  have hd : s.reclaimed.reverse.Pairwise (· > ·) := List.pairwise_reverse.mpr ha
  obtain ⟨hs, hlow, htail⟩ := foldTail_spec hd fun n hn => hb n (List.mem_reverse.mp hn)
  refine ⟨?_, fun n hn => hlow n (List.mem_reverse.mp hn), fun hm => htail (List.mem_reverse.mp hm)⟩
  exact List.pairwise_reverse.mpr (hd.sublist hs.sublist)

/-- The numbers that `next` steps down over were free before. -/
theorem free_fold (s : State) : s.fold.free = s.free := by
  ext m
  obtain ⟨hdown, hc⟩ := count_foldTail s.next s.reclaimed.reverse
  have hm := hc m
  rw [List.count_reverse] at hm
  have hrec : m ∈ s.fold.reclaimed ↔ 0 < (foldTail s.next s.reclaimed.reverse).2.count m := by
    rw [List.count_pos_iff]
    exact List.mem_reverse
  have hnext : s.fold.next = (foldTail s.next s.reclaimed.reverse).1 := rfl
  rw [mem_free, mem_free, hrec, hnext, ← List.count_pos_iff]
  split at hm <;> omega

theorem release_isOk (s : State) (n : Nat) : (∃ s', s.release n = .ok s') ↔ n ∉ s.free := by
  rw [mem_free]
  unfold release
  split
  · next hle => exact iff_of_false (by simp) (fun hn => hn (.inr hle))
  · next hlt =>
    split
    · next hm => exact iff_of_false (by simp) (fun hn => hn (.inl hm))
    · next hm => exact iff_of_true ⟨_, rfl⟩ (not_or.mpr ⟨hm, hlt⟩)

/-- A number that comes back is free, and so is every number that was. -/
theorem free_release (hr : s.release n = .ok s') : s'.free = insert n s.free := by
  obtain ⟨hnew, hlt⟩ := not_or.mp fun hm => (release_isOk s n).mp ⟨s', hr⟩ (mem_free.mpr hm)
  unfold State.release at hr
  rw [if_neg hlt, if_neg hnew] at hr
  obtain rfl := Except.ok.inj hr
  rw [free_fold]
  ext m
  simp only [Set.mem_insert_iff, mem_free, mem_insertAscending, or_assoc]

theorem Canonical.release (h : s.Canonical) (hr : s.release n = .ok s') :
    s'.Canonical ∧ s'.free = insert n s.free ∧ s'.generation = s.generation := by
  have hfree := free_release hr
  obtain ⟨hnew, hlt⟩ := not_or.mp fun hm => (release_isOk s n).mp ⟨s', hr⟩ (mem_free.mpr hm)
  unfold State.release at hr
  rw [if_neg hlt, if_neg hnew] at hr
  obtain rfl := Except.ok.inj hr
  refine ⟨canonical_fold (pairwise_insertAscending h.ascending hnew) fun m hm => ?_, hfree, rfl⟩
  show m < s.next
  rcases mem_insertAscending.mp hm with rfl | hm
  · omega
  · exact h.below m hm

/-- A canonical state can be told from its free numbers. -/
theorem Canonical.ext (hs : s.Canonical) (ht : t.Canonical) (hfree : t.free = s.free) :
    t = { s with generation := t.generation } := by
  have hiff : ∀ m, m ∈ t.reclaimed ∨ t.next ≤ m ↔ m ∈ s.reclaimed ∨ s.next ≤ m := fun m => by
    rw [← mem_free, ← mem_free, hfree]
  -- the number below the greater `next` would be free in one state and not in the other
  have hnext : t.next = s.next := by
    have hle : ∀ {a b : State}, a.Canonical → b.next < a.next →
        ¬(a.next - 1 ∈ a.reclaimed ∨ a.next ≤ a.next - 1) ∧ b.next ≤ a.next - 1 := by
      intro a b ha hlt
      exact ⟨not_or.mpr ⟨ha.tail, by omega⟩, by omega⟩
    rcases Nat.lt_trichotomy t.next s.next with hlt | heq | hlt
    · obtain ⟨hnot, hin⟩ := hle hs hlt
      exact absurd ((hiff _).mp (.inr hin)) hnot
    · exact heq
    · obtain ⟨hnot, hin⟩ := hle ht hlt
      exact absurd ((hiff _).mpr (.inr hin)) hnot
  have hrec : t.reclaimed = s.reclaimed := by
    refine ht.ascending.eq_of_mem_iff hs.ascending fun m => ?_
    have hm := hiff m
    constructor
    · intro hin
      have hlow := ht.below m hin
      exact (hm.mp (.inl hin)).resolve_right (by omega)
    · intro hin
      have hlow := hs.below m hin
      exact (hm.mpr (.inl hin)).resolve_right (by omega)
  obtain ⟨next, reclaimed, generation⟩ := t
  simp only at hnext hrec
  rw [hnext, hrec]

/-- Giving back makes a number free, whether it was out before or not. -/
theorem Canonical.after_release (h : s.Canonical) (n : Nat) :
    (s.after (.release n)).Canonical ∧ (s.after (.release n)).free = insert n s.free ∧
      (s.after (.release n)).generation = s.generation := by
  unfold after
  simp only
  cases hr : s.release n with
  | ok s' => exact h.release hr
  | error e =>
    have hin : n ∈ s.free := by
      by_contra hn
      obtain ⟨s', hs'⟩ := (release_isOk s n).mpr hn
      rw [hr] at hs'
      simp at hs'
    exact ⟨h, (Set.insert_eq_of_mem hin).symm, rfl⟩

theorem Canonical.after (h : s.Canonical) (u : Use) :
    (s.after u).Canonical ∧ (s.after u).generation = s.generation := by
  cases u with
  | assign => exact ⟨h.assign, assign_generation s⟩
  | release n =>
    obtain ⟨hc, _, hg⟩ := h.after_release n
    exact ⟨hc, hg⟩

theorem Canonical.afterAll (h : s.Canonical) (uses : List Use) :
    (s.afterAll uses).Canonical ∧ (s.afterAll uses).generation = s.generation := by
  induction uses generalizing s with
  | nil => exact ⟨h, rfl⟩
  | cons u uses ih =>
    obtain ⟨hc, hg⟩ := h.after u
    obtain ⟨hc', hg'⟩ := ih hc
    exact ⟨hc', hg'.trans hg⟩

theorem Canonical.free_releases (h : s.Canonical) (ns : List Nat) :
    (s.afterAll (ns.map .release)).free = s.free ∪ {n | n ∈ ns} := by
  induction ns generalizing s with
  | nil => simp [State.afterAll]
  | cons n ns ih =>
    obtain ⟨hc, hfree, _⟩ := h.after_release n
    have htail := ih hc
    rw [hfree] at htail
    show ((s.after (.release n)).afterAll (ns.map .release)).free = _
    rw [htail]
    ext m
    simp only [Set.mem_union, Set.mem_insert_iff, Set.mem_ofPred_eq, List.mem_cons]
    tauto

/-- Only which numbers are given back matters. -/
theorem Canonical.releases_perm (h : s.Canonical) {ns ms : List Nat} (hp : ns.Perm ms) :
    s.afterAll (ns.map .release) = s.afterAll (ms.map .release) := by
  obtain ⟨hcn, hgn⟩ := h.afterAll (ns.map .release)
  obtain ⟨hcm, hgm⟩ := h.afterAll (ms.map .release)
  have hfree : (s.afterAll (ns.map .release)).free = (s.afterAll (ms.map .release)).free := by
    rw [h.free_releases, h.free_releases]
    ext m
    simp only [Set.mem_union, Set.mem_ofPred_eq, hp.mem_iff]
  have heq := hcm.ext hcn hfree
  rw [hgn, ← hgm] at heq
  exact heq

theorem Canonical.release_assign (h : s.Canonical) : s.assign.2.release s.assign.1 = .ok s := by
  have hout : s.assign.1 ∉ s.assign.2.free := by
    rw [h.free_assign]
    exact fun hm => hm.2 rfl
  obtain ⟨t, ht⟩ := (release_isOk _ _).mpr hout
  obtain ⟨hc, hfree, hg⟩ := h.assign.release ht
  have hin : s.assign.1 ∈ s.free := by
    rw [assign_fst]
    exact (peek_isLeast h).1
  have hback : t.free = s.free := by
    rw [hfree, h.free_assign, Set.insert_sdiff_singleton, Set.insert_eq_of_mem hin]
  have heq := h.ext hc hback
  rw [hg, assign_generation] at heq
  rw [ht, heq]

/-- An allocator keeps a state as it is whose number it refuses to take back. -/
theorem get?_of_release_error {a : Allocator} {who : Address} {g : Option Nat} {e : Refusal}
    (hs : a.entries.get? who = some s) (he : (a.release who n g).1 = .error e) :
    (a.release who n g).2.entries.get? who = some s := by
  unfold Allocator.release at he ⊢
  simp only [hs] at he ⊢
  split
  · exact Keyed.get?_put_self _ _ _
  · next hg =>
    rw [if_neg hg] at he
    split
    · exact Keyed.get?_put_self _ _ _
    · next hr => simp [hr] at he

/-- Of every state that came about by issuing and giving back: it is the only one with its free
numbers, the least of them is issued next and no other, a number can be given back exactly if it is
not free, and neither a refusal nor an issue that is given back leaves a trace. -/
theorem free_set_refined (first generation : Nat) (uses : List Use) :
    let s := (State.start first generation).afterAll uses
    (∀ n ∈ s.reclaimed, n < s.next) ∧ s.next - 1 ∉ s.reclaimed ∧
      (∀ first' generation' uses',
        let t := (State.start first' generation').afterAll uses'
        t.free = s.free → t = { s with generation := generation' }) ∧
      IsLeast s.free s.peek ∧
      IsLeast s.free s.assign.1 ∧ s.assign.2.free = s.free \ {s.assign.1} ∧
      (∀ n, ((∃ s', s.release n = .ok s') ↔ n ∉ s.free) ∧
        (∀ s', s.release n = .ok s' → s'.free = insert n s.free) ∧
        ∀ (a : Allocator) who g e, a.entries.get? who = some s → (a.release who n g).1 = .error e →
          (a.release who n g).2.entries.get? who = some s) ∧
      s.assign.2.release s.assign.1 = .ok s ∧
      ∀ ns ms : List Nat, ns.Perm ms →
        s.afterAll (ns.map .release) = s.afterAll (ms.map .release) := by
  intro s
  obtain ⟨hc, _⟩ := (canonical_start first generation).afterAll uses
  have hleast := peek_isLeast hc
  refine ⟨hc.below, hc.tail, fun first' generation' uses' => ?_, hleast,
    (assign_fst s).symm ▸ hleast, hc.free_assign, fun n => ⟨release_isOk s n, fun s' hr => ?_,
      fun a who g e hs he => get?_of_release_error hs he⟩, hc.release_assign,
    fun ns ms hp => hc.releases_perm hp⟩
  · intro t hfree
    obtain ⟨hct, hg⟩ := (canonical_start first' generation').afterAll uses'
    have heq : t = { s with generation := t.generation } := hc.ext hct hfree
    rw [hg] at heq
    exact heq
  · exact (hc.release hr).2.1

/-- Three numbers go out and come back, the last one first or last. -/
example :
    (State.start 5 1).afterAll [.assign, .assign, .assign, .release 7, .release 5, .release 6] =
      State.start 5 1 := by decide

end Outbox.Nonce.State
