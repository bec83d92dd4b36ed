import Mathlib.Data.List.Perm.Subperm
import Outbox.Nonce.Book
import Outbox.Proofs.Nonce.Residents

namespace Outbox.Nonce

/-- One thing that a caller of the allocator, or the ledger, can do next. -/
inductive Act (κ : Type) where
  | reserve (k : κ) (who : Address)
  | allocate (k : κ) (who : Address)
  /-- The ledger answers the caller that waits as `k`. -/
  | reserved (k : κ) (onChain : Nat)
  | allocated (k : κ) (onChain : Nat)
  | abandon (k : κ)
  | commit (k : κ)
  | giveBack (k : κ)
  | drop (k : κ)
  | reset (who : Address) (next : Nat)
  /-- A number is given back to whatever state there is, by somebody who may not hold it. -/
  | release (who : Address) (n : Nat)
deriving DecidableEq

inductive Mark where
  | created (who : Address) (generation start : Nat)
  | issued (r : Reservation)
  | returned (r : Reservation)
deriving DecidableEq

/-- Issued and not returned; the marks stand newest first. -/
def outstanding : List Mark → List Reservation
  | [] => []
  | .created _ _ _ :: marks => outstanding marks
  | .issued r :: marks => r :: outstanding marks
  | .returned r :: marks => (outstanding marks).erase r

/-- The numbers that one state issued. -/
def numbersOf (rs : List Reservation) (who : Address) (generation : Nat) : List Nat :=
  (rs.filter fun r => r.identity = who ∧ r.generation = generation).map (·.nonce)

def giveBackMarks (a : Allocator) (r : Reservation) : List Mark :=
  match (a.giveBack r).1 with
  | .ok () => [.returned r]
  | .error _ => []

def installMarks [Counter] (a : Allocator) (who : Address) (onChain : Nat) : List Mark :=
  match a.take? who with
  | some (r, _) => [.issued r]
  | none => [.issued (a.install who onChain).1, .created who (a.generations + 1) onChain]

namespace Book

variable {κ : Type} [DecidableEq κ]

/-- The book after an act; an act that does not apply changes nothing. -/
def act [Counter] (b : Book κ) : Act κ → Book κ
  | .reserve k who =>
    match b.reserve? k who with
    | some (_, b) => b
    | none => b.park k who
  | .allocate k who =>
    match b.allocator.take? who with
    | some (_, a) => { b with allocator := a }
    | none => b.park k who
  | .reserved k onChain =>
    match b.waiting.get? k with
    | some who => ((b.unpark k).install k who onChain).2
    | none => b
  | .allocated k onChain =>
    match b.waiting.get? k with
    | some who => { b.unpark k with allocator := (b.allocator.install who onChain).2 }
    | none => b
  | .abandon k => b.unpark k
  | .commit k => ((b.commit? k).map Prod.snd).getD b
  | .giveBack k => ((b.giveBack? k).map Prod.snd).getD b
  | .drop k => (b.drop? k).getD b
  | .reset who next => { b with allocator := b.allocator.reset who next }
  | .release who n => { b with allocator := (b.allocator.release who n none).2 }

/-- What holding a reservation as `k` returns of what `k` held before. -/
def displaced (b : Book κ) (k : κ) (a : Allocator) : List Mark :=
  match b.held.get? k with
  | some old => giveBackMarks a old
  | none => []

/-- The marks that an act leaves. -/
def marks [Counter] (b : Book κ) : Act κ → List Mark
  | .reserve k who =>
    match b.allocator.take? who with
    | some (r, a) => b.displaced k a ++ [.issued r]
    | none => []
  | .allocate _ who =>
    match b.allocator.take? who with
    | some (r, _) => [.issued r]
    | none => []
  | .reserved k onChain =>
    match b.waiting.get? k with
    | some who =>
      b.displaced k (b.allocator.install who onChain).2 ++ installMarks b.allocator who onChain
    | none => []
  | .allocated k onChain =>
    match b.waiting.get? k with
    | some who => installMarks b.allocator who onChain
    | none => []
  | .abandon _ => []
  | .commit _ => []
  | .giveBack k => b.displaced k b.allocator
  | .drop k => b.displaced k b.allocator
  | .reset who next => [.created who (b.allocator.generations + 1) next]
  | .release _ _ => []

end Book

structure History (κ : Type) where
  book : Book κ
  marks : List Mark := []

namespace History

variable {κ : Type} [DecidableEq κ]

def fresh (capacity : Nat) : History κ := { book := { allocator := .ofCapacity capacity } }

def step (h : History κ) (a : Act κ) : History κ := ⟨h.book.act a, h.book.marks a ++ h.marks⟩

def run (h : History κ) (acts : List (Act κ)) : History κ := acts.foldl step h

end History

section Numbers

variable {rs rs' : List Reservation} {r : Reservation} {who : Address} {g n : Nat}

theorem mem_numbersOf : n ∈ numbersOf rs who g ↔ ⟨who, n, g⟩ ∈ rs := by
  simp only [numbersOf, List.mem_map, List.mem_filter, decide_eq_true_eq]
  constructor
  · rintro ⟨r, ⟨hr, hw, hg⟩, hn⟩
    obtain ⟨_, _, _⟩ := r
    subst hw hg hn
    exact hr
  · intro h
    exact ⟨_, ⟨h, rfl, rfl⟩, rfl⟩

theorem numbersOf_cons_self (rs : List Reservation) (who : Address) (n g : Nat) :
    numbersOf (⟨who, n, g⟩ :: rs) who g = n :: numbersOf rs who g := by
  simp [numbersOf]

theorem numbersOf_cons_of_ne (rs : List Reservation) (h : ¬(r.identity = who ∧ r.generation = g)) :
    numbersOf (r :: rs) who g = numbersOf rs who g := by
  simp only [numbersOf]
  rw [List.filter_cons_of_neg (by simpa using h)]

theorem numbersOf_perm (h : rs.Perm rs') : (numbersOf rs who g).Perm (numbersOf rs' who g) :=
  (h.filter _).map _

theorem numbersOf_nodup (h : rs.Nodup) (who : Address) (g : Nat) : (numbersOf rs who g).Nodup := by
  induction rs with
  | nil => exact List.nodup_nil
  | cons r rs ih =>
    obtain ⟨hr, hrs⟩ := List.nodup_cons.mp h
    by_cases hm : r.identity = who ∧ r.generation = g
    · obtain ⟨_, n, _⟩ := r
      obtain ⟨rfl, rfl⟩ := hm
      rw [numbersOf_cons_self]
      exact List.nodup_cons.mpr ⟨fun hn => hr (mem_numbersOf.mp hn), ih hrs⟩
    · rw [numbersOf_cons_of_ne _ hm]
      exact ih hrs

end Numbers

/-- Marks and allocator tell the same of every number. No mark is of a state yet to be created, and
a resident state was created once. -/
structure Balanced (a : Allocator) (marks : List Mark) : Prop where
  nodup : (outstanding marks).Nodup
  issued_le : ∀ r ∈ outstanding marks, r.generation ≤ a.generations
  created_le : ∀ who g n, .created who g n ∈ marks → g ≤ a.generations
  resident : ∀ who s, a.entries.get? who = some s → s.generation ≤ a.generations ∧
    ∃ start, (∀ n, .created who s.generation n ∈ marks ↔ n = start) ∧
      s.Accounts start (numbersOf (outstanding marks) who s.generation)

namespace Balanced

variable {a a' : Allocator} {marks : List Mark} {who : Address} {r : Reservation} {s : State}

theorem empty (capacity : Nat) : Balanced (.ofCapacity capacity) [] where
  nodup := List.nodup_nil
  issued_le := by simp [outstanding]
  created_le := by simp
  resident := by simp [Allocator.ofCapacity, Keyed.get?]

/-- A new state has issued nothing, whatever was issued to its identity before. -/
theorem created (h : Balanced a marks) (who : Address) (n : Nat) :
    Balanced (a.reset who n) (.created who (a.generations + 1) n :: marks) where
  nodup := h.nodup
  issued_le := by
    intro r hr
    have hle := h.issued_le r hr
    rw [Allocator.generations_reset]
    omega
  created_le := by
    intro other g m hm
    rw [Allocator.generations_reset]
    rcases List.mem_cons.mp hm with heq | hm
    · injection heq with _ hg _
      omega
    · have hle := h.created_le other g m hm
      omega
  resident := by
    intro other t ht
    rw [Allocator.generations_reset]
    by_cases ho : other = who
    · subst ho
      rw [Allocator.get?_reset_self] at ht
      obtain rfl : State.start n (a.generations + 1) = t := Option.some.inj ht
      have hnone : numbersOf (outstanding marks) other (a.generations + 1) = [] := by
        apply List.eq_nil_iff_forall_not_mem.mpr
        intro m hm
        have hle := h.issued_le _ (mem_numbersOf.mp hm)
        simp only at hle
        omega
      refine ⟨Nat.le_refl _, n, fun m => ?_, ?_⟩
      · constructor
        · intro hm
          rcases List.mem_cons.mp hm with heq | hm
          · injection heq
          · have hle := h.created_le _ _ _ hm
            simp only [State.start] at hle
            omega
        · rintro rfl
          exact List.mem_cons_self
      · show State.Accounts _ n (numbersOf (outstanding marks) other (a.generations + 1))
        rw [hnone]
        exact State.accounts_start n _
    · obtain ⟨hg, start, hc, hacc⟩ := h.resident other t ((Allocator.reset_leaves a n ho).get? ht)
      refine ⟨by omega, start, fun m => ?_, hacc⟩
      rw [List.mem_cons, ← hc m]
      constructor
      · rintro (heq | hm)
        · injection heq with hw _ _
          exact absurd hw ho
        · exact hm
      · exact .inr

theorem issued (h : Balanced a marks) (hi : a.Issued who s r a') :
    Balanced a' (.issued r :: marks) := by
  obtain rfl := hi.reservation
  obtain ⟨hg, start, hc, hacc⟩ := h.resident who s hi.source
  refine ⟨?_, ?_, ?_, ?_⟩
  · refine List.nodup_cons.mpr ⟨fun hm => ?_, h.nodup⟩
    exact hacc.assign_fresh (mem_numbersOf.mpr hm)
  · intro q hq
    rw [hi.generations]
    rcases List.mem_cons.mp hq with rfl | hq
    · exact hg
    · exact h.issued_le q hq
  · intro other g n hm
    rw [hi.generations]
    exact h.created_le other g n (by simpa using hm)
  · intro other t ht
    rw [hi.generations]
    by_cases ho : other = who
    · subst ho
      rw [hi.rest] at ht
      obtain rfl : s.assign.2 = t := Option.some.inj ht
      rw [State.assign_generation]
      refine ⟨hg, start, fun n => ?_, ?_⟩
      · rw [← hc n]
        simp
      · show State.Accounts _ start (numbersOf (_ :: outstanding marks) other s.generation)
        rw [numbersOf_cons_self]
        exact hacc.assign
    · obtain ⟨hg', start', hc', hacc'⟩ := h.resident other t ((hi.others other ho).get? ht)
      refine ⟨hg', start', fun n => ?_, ?_⟩
      · rw [← hc' n]
        simp
      · show State.Accounts _ start' (numbersOf (_ :: outstanding marks) other t.generation)
        rw [numbersOf_cons_of_ne _ (fun hm => ho hm.1.symm)]
        exact hacc'

/-- A number that is out comes back to its state if that is still there, and to none otherwise. -/
theorem giveBack_cases (h : Balanced a marks) (hr : r ∈ outstanding marks) :
    (∃ s s', a.entries.get? r.identity = some s ∧ s.generation = r.generation ∧
      s.release r.nonce = .ok s') ∨
    ∀ s, a.entries.get? r.identity = some s → s.generation ≠ r.generation := by
  by_cases hs : ∃ s, a.entries.get? r.identity = some s ∧ s.generation = r.generation
  · obtain ⟨s, hs, hg⟩ := hs
    obtain ⟨_, start, _, hacc⟩ := h.resident _ s hs
    have hn : r.nonce ∈ numbersOf (outstanding marks) r.identity s.generation := by
      rw [mem_numbersOf, hg]
      exact hr
    obtain ⟨s', hrel, _⟩ := (hacc.of_perm (List.perm_cons_erase hn)).release
    exact .inl ⟨s, s', hs, hg, hrel⟩
  · exact .inr fun s hs' hg => hs ⟨s, hs', hg⟩

theorem giveBack (h : Balanced a marks) (hr : r ∈ outstanding marks) :
    Balanced (a.giveBack r).2 (giveBackMarks a r ++ marks) := by
  have hgen : (a.giveBack r).2.generations = a.generations :=
    Allocator.generations_release a _ _ _
  rcases h.giveBack_cases hr with ⟨s, s', hs, hg, hrel⟩ | hstale
  · have hgb := Allocator.giveBack_of_resident hs hg hrel
    have hm : giveBackMarks a r = [.returned r] := by simp [giveBackMarks, hgb]
    have hp : (outstanding marks).Perm (r :: (outstanding marks).erase r) :=
      List.perm_cons_erase hr
    rw [hm]
    refine ⟨h.nodup.erase r, ?_, ?_, ?_⟩
    · intro q hq
      rw [hgen]
      exact h.issued_le q (List.mem_of_mem_erase hq)
    · intro other g n hc
      rw [hgen]
      exact h.created_le other g n (by simpa using hc)
    · intro other t ht
      rw [hgen]
      rw [hgb] at ht
      simp only [Keyed.get?_put] at ht
      by_cases ho : other = r.identity
      · subst ho
        obtain rfl : s' = t := by simpa using ht
        obtain ⟨hle, start, hc, hacc⟩ := h.resident _ s hs
        have hout : (numbersOf (outstanding marks) r.identity s.generation).Perm
            (r.nonce :: numbersOf ((outstanding marks).erase r) r.identity s.generation) := by
          rw [hg, ← numbersOf_cons_self]
          exact numbersOf_perm hp
        obtain ⟨hg', hacc'⟩ := (hacc.of_perm hout).of_release hrel
        refine ⟨by omega, start, fun n => ?_, ?_⟩
        · rw [hg', ← hc n]
          simp
        · rw [hg']
          exact hacc'
      · rw [if_neg ho] at ht
        obtain ⟨hle, start, hc, hacc⟩ := h.resident _ t ht
        refine ⟨hle, start, fun n => ?_, ?_⟩
        · rw [← hc n]
          simp
        · have hout : (numbersOf (outstanding marks) other t.generation).Perm
              (numbersOf (r :: (outstanding marks).erase r) other t.generation) :=
            numbersOf_perm hp
          rw [numbersOf_cons_of_ne _ (fun hm => ho hm.1.symm)] at hout
          exact hacc.of_perm hout
  · obtain ⟨⟨e, he⟩, hsame⟩ := Allocator.giveBack_of_stale hstale
    have hm : giveBackMarks a r = [] := by simp [giveBackMarks, he]
    rw [hm]
    refine ⟨h.nodup, ?_, ?_, ?_⟩
    · rw [hgen]
      exact h.issued_le
    · rw [hgen]
      exact h.created_le
    · intro other t ht
      rw [hgen]
      rw [hsame] at ht
      exact h.resident other t ht

theorem install (h : Balanced a marks) (who : Address) (n : Nat) :
    Balanced (a.install who n).2 (installMarks a who n ++ marks) := by
  simp only [installMarks]
  cases ht : a.take? who with
  | some p =>
    obtain ⟨r, a'⟩ := p
    obtain ⟨s, hi⟩ := Allocator.take?_issued ht
    rw [Allocator.install_of_take? ht]
    exact h.issued hi
  | none =>
    have habs := Allocator.take?_eq_none.mp ht
    obtain ⟨s, hi⟩ := Allocator.take?_issued (Allocator.install_of_absent habs n)
    exact (h.created who n).issued hi

end Balanced

theorem outstanding_installMarks [Counter] (a : Allocator) (who : Address) (n : Nat)
    (marks : List Mark) :
    outstanding (installMarks a who n ++ marks) = (a.install who n).1 :: outstanding marks := by
  simp only [installMarks]
  cases ht : a.take? who with
  | some p =>
    rw [Allocator.install_of_take? ht]
    rfl
  | none => rfl

theorem created_installMarks [Counter] {a : Allocator} {v w : Address} {g m n : Nat}
    (h : .created v g m ∈ installMarks a w n) :
    v = w ∧ a.entries.get? w = none ∧ g = a.generations + 1 ∧ m = n := by
  simp only [installMarks] at h
  cases ht : a.take? w with
  | some p =>
    rw [ht] at h
    simp at h
  | none =>
    rw [ht] at h
    obtain ⟨rfl, rfl, rfl⟩ : v = w ∧ g = a.generations + 1 ∧ m = n := by simpa using h
    exact ⟨rfl, Allocator.take?_eq_none.mp ht, rfl, rfl⟩

/-- Those held besides `r` are out also when `r` came back or was found stale. -/
theorem subperm_giveBackMarks {rs : List Reservation} {r : Reservation} {marks : List Mark}
    (a : Allocator) (h : (r :: rs).Subperm (outstanding marks)) :
    rs.Subperm (outstanding (giveBackMarks a r ++ marks)) := by
  simp only [giveBackMarks]
  split
  · have he := h.erase r
    rw [List.erase_cons_head] at he
    exact he
  · exact List.Subperm.cons_self.trans h

namespace Book

variable {κ : Type} [DecidableEq κ] {b : Book κ} {marks : List Mark} {r : Reservation}

/-- Allocator and marks agree, and what is held was issued and has not come back. -/
structure Sound (b : Book κ) (marks : List Mark) : Prop where
  balanced : Balanced b.allocator marks
  distinct : b.held.Distinct
  held : (b.held.map Prod.snd).Subperm (outstanding marks)

theorem held_perm (hd : b.held.Distinct) {k : κ} (hk : b.held.get? k = some r) :
    (b.held.map Prod.snd).Perm (r :: (b.held.erase k).map Prod.snd) :=
  (Keyed.perm_of_get? hd hk).map Prod.snd

/-- A reservation that leaves the book for good may come back to the allocator. -/
theorem Sound.release (h : b.Sound marks) {k : κ} (hk : b.held.get? k = some r) :
    Sound { b with allocator := (b.allocator.giveBack r).2, held := b.held.erase k }
      (giveBackMarks b.allocator r ++ marks) := by
  have hout := (held_perm h.distinct hk).subperm_right.mp h.held
  exact ⟨h.balanced.giveBack (hout.subset List.mem_cons_self), Keyed.distinct_erase h.distinct k,
    subperm_giveBackMarks _ hout⟩

theorem Sound.hold {a : Allocator} (hb : Balanced a marks) (hd : b.held.Distinct)
    (hout : (r :: b.held.map Prod.snd).Subperm (outstanding marks)) (k : κ) :
    Sound ({ b with allocator := a }.hold k r) (b.displaced k a ++ marks) := by
  unfold Book.hold Book.displaced
  simp only
  cases hk : b.held.get? k with
  | none =>
    refine ⟨hb, Keyed.distinct_put hd k r, ?_⟩
    show (r :: (b.held.erase k).map Prod.snd).Subperm (outstanding marks)
    rw [Keyed.erase_of_get?_none hk]
    exact hout
  | some old =>
    have hp : (r :: b.held.map Prod.snd).Perm (old :: r :: (b.held.erase k).map Prod.snd) :=
      ((held_perm hd hk).cons r).trans (List.Perm.swap _ _ _)
    have hout' := hp.subperm_right.mp hout
    exact ⟨hb.giveBack (hout'.subset List.mem_cons_self), Keyed.distinct_put hd k r,
      subperm_giveBackMarks a hout'⟩

theorem Sound.displaced (h : b.Sound marks) {b' : Book κ} {k : κ}
    (hn : b.held.get? k = none → b' = b)
    (hs : ∀ r, b.held.get? k = some r →
      b' = { b with allocator := (b.allocator.giveBack r).2, held := b.held.erase k }) :
    b'.Sound (b.displaced k b.allocator ++ marks) := by
  simp only [Book.displaced]
  cases hk : b.held.get? k with
  | none =>
    rw [hn hk]
    exact h
  | some r =>
    rw [hs r hk]
    exact h.release hk

theorem Sound.install (h : b.Sound marks) (k : κ) (who : Address) (n : Nat) :
    (b.install k who n).2.Sound
      (b.displaced k (b.allocator.install who n).2 ++ installMarks b.allocator who n ++ marks) := by
  rw [List.append_assoc]
  refine Sound.hold (h.balanced.install who n) h.distinct ?_ k
  rw [outstanding_installMarks]
  exact (List.subperm_cons _).mpr h.held

/-- What one act preserves. The untagged release is left out: it may free a number that somebody
holds. -/
theorem Sound.act (h : b.Sound marks) (x : Act κ) (hx : ∀ who n, x ≠ .release who n) :
    (b.act x).Sound (b.marks x ++ marks) := by
  cases x with
  | reserve k who =>
    simp only [Book.act, Book.marks, reserve?]
    cases ht : b.allocator.take? who with
    | none => exact ⟨h.balanced, h.distinct, h.held⟩
    | some p =>
      obtain ⟨r, a⟩ := p
      obtain ⟨s, hi⟩ := Allocator.take?_issued ht
      simp only [Option.map_some, List.append_assoc]
      exact Sound.hold (h.balanced.issued hi) h.distinct ((List.subperm_cons r).mpr h.held) k
  | allocate k who =>
    simp only [Book.act, Book.marks]
    cases ht : b.allocator.take? who with
    | none => exact ⟨h.balanced, h.distinct, h.held⟩
    | some p =>
      obtain ⟨r, a⟩ := p
      obtain ⟨s, hi⟩ := Allocator.take?_issued ht
      exact ⟨h.balanced.issued hi, h.distinct, h.held.cons_right r⟩
  | reserved k n =>
    simp only [Book.act, Book.marks]
    cases b.waiting.get? k with
    | none => exact h
    | some who => exact Sound.install (b := b.unpark k) ⟨h.balanced, h.distinct, h.held⟩ k who n
  | allocated k n =>
    simp only [Book.act, Book.marks]
    cases b.waiting.get? k with
    | none => exact h
    | some who =>
      refine ⟨h.balanced.install who n, h.distinct, ?_⟩
      rw [outstanding_installMarks]
      exact h.held.cons_right _
  | abandon k => exact ⟨h.balanced, h.distinct, h.held⟩
  | commit k =>
    have hsub : ((b.held.erase k).map Prod.snd).Subperm (b.held.map Prod.snd) :=
      (List.filter_sublist.map _).subperm
    simp only [Book.act, Book.marks, commit?]
    cases b.held.get? k with
    | none => exact h
    | some r => exact ⟨h.balanced, Keyed.distinct_erase h.distinct k, hsub.trans h.held⟩
  | giveBack k =>
    refine h.displaced (fun hk => ?_) (fun r hk => ?_)
    · simp [Book.act, giveBack?, hk]
    · simp [Book.act, giveBack?, hk]
  | drop k =>
    refine h.displaced (fun hk => ?_) (fun r hk => ?_)
    · simp [Book.act, drop?, hk]
    · simp [Book.act, drop?, hk, dropQuietly]
  | reset who n => exact ⟨h.balanced.created who n, h.distinct, h.held⟩
  | release who n => exact absurd rfl (hx who n)

end Book

namespace History

variable {κ : Type} [DecidableEq κ]

theorem sound_run {h : History κ} (hs : h.book.Sound h.marks) (acts : List (Act κ))
    (hr : ∀ who n, Act.release who n ∉ acts) : (h.run acts).book.Sound (h.run acts).marks := by
  induction acts generalizing h with
  | nil => exact hs
  | cons x acts ih =>
    have hx : ∀ who n, x ≠ .release who n := by
      intro who n hx
      exact hr who n (hx ▸ List.mem_cons_self)
    have hstep : (h.step x).book.Sound (h.step x).marks := hs.act x hx
    exact ih hstep fun who n hm => hr who n (List.mem_cons_of_mem _ hm)

/-- The numbers that `who`'s state of `generation` issued and that did not come back. -/
def out (h : History κ) (who : Address) (generation : Nat) : List Nat :=
  numbersOf (outstanding h.marks) who generation

/-- After any acts, every number from a resident state's first one up to `next` is either free or
out, and is out once only; the state was created once, with that first number. Numbers of a state
that is gone stay apart as well. -/
theorem numbers_accounted (capacity : Nat) (acts : List (Act κ))
    (hr : ∀ who n, Act.release who n ∉ acts) :
    let h := (fresh capacity : History κ).run acts
    (∀ who s, h.book.allocator.entries.get? who = some s →
      ∃ start, (∀ n, .created who s.generation n ∈ h.marks ↔ n = start) ∧ start ≤ s.next ∧
        (s.reclaimed ++ h.out who s.generation).Perm (List.range' start (s.next - start))) ∧
      ∀ who generation, (h.out who generation).Nodup := by
  have hfresh : (fresh capacity : History κ).book.Sound (fresh capacity : History κ).marks :=
    ⟨.empty capacity, List.nodup_nil, List.nil_subperm⟩
  have hs := sound_run hfresh acts hr
  refine ⟨fun who s hres => ?_, fun who g => numbersOf_nodup hs.balanced.nodup who g⟩
  obtain ⟨_, start, hc, hacc⟩ := hs.balanced.resident who s hres
  exact ⟨start, hc, hacc.start_le, hacc.perm⟩

/-- Two first callers of one identity race while the only place is another's; one number comes
back, and the identity pushed out cannot get its own back. -/
def race (first second : Address) : List (Act Nat) :=
  [.reserve 0 second, .reserved 0 30, .reserve 1 first, .reserve 2 first, .reserved 1 5,
    .reserved 2 9, .allocate 3 first, .drop 0, .giveBack 1]

theorem race_accounted :
    let first := Address.ofNat 1
    let second := Address.ofNat 2
    let h := (fresh 1 : History Nat).run (race first second)
    h.book.allocator.entries.get? first = some ⟨8, [5], 2⟩ ∧
      ([5] ++ h.out first 2).Perm (List.range' 5 3) ∧ h.out second 1 = [30] ∧
      (h.out second 1).Nodup := by
  have hr : ∀ who n, Act.release who n ∉ race (Address.ofNat 1) (Address.ofNat 2) := by
    intro who n
    simp [race]
  have hres : ((fresh 1 : History Nat).run (race (Address.ofNat 1) (Address.ofNat 2))
      ).book.allocator.entries.get? (Address.ofNat 1) = some ⟨8, [5], 2⟩ := by decide
  obtain ⟨hstate, hnodup⟩ := numbers_accounted 1 (race (Address.ofNat 1) (Address.ofNat 2)) hr
  obtain ⟨start, hc, _, hp⟩ := hstate _ _ hres
  obtain rfl : 5 = start := (hc 5).mp (by decide)
  exact ⟨hres, hp, by decide, hnodup _ _⟩

end History

end Outbox.Nonce
