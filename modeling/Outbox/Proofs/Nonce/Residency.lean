import Outbox.Proofs.Nonce.Dealings

namespace Outbox.Nonce

/-- One access to an allocator. Between two accesses of one caller any others may come. -/
inductive Access where
  /-- A caller asks for a number; for an absent identity it goes on to ask the ledger. -/
  | take (who : Address)
  /-- The ledger answers a caller. -/
  | install (who : Address) (onChain : Nat)
  /-- The ledger fails a caller. -/
  | fail (who : Address)
  | reset (who : Address) (next : Nat)
  /-- Anybody gives a number back, to the state of `generation` only if one is named. -/
  | release (who : Address) (n : Nat) (generation : Option Nat)
  | peek (who : Address)
  | contains (who : Address)
deriving DecidableEq

/-- The identity whose state is there afterwards, whether it was there or not. -/
def Access.installs? : Access → Option Address
  | .install who _ | .reset who _ => some who
  | .take _ | .fail _ | .release _ _ _ | .peek _ | .contains _ => none

namespace Allocator

def access [Counter] (a : Allocator) : Access → Allocator
  | .take who => ((a.take? who).map Prod.snd).getD a
  | .install who onChain => (a.install who onChain).2
  | .reset who next => a.reset who next
  | .release who n generation => (a.release who n generation).2
  | .fail _ | .peek _ | .contains _ => a

def accessAll [Counter] (a : Allocator) (xs : List Access) : Allocator := xs.foldl access a

/-- The identity an access uses. To look at a state, or to ask for one that is not there, is no
use; a refused release of one that is there is. -/
def used? (a : Allocator) : Access → Option Address
  | .take who | .release who _ _ => if a.contains who then some who else none
  | .install who _ | .reset who _ => some who
  | .fail _ | .peek _ | .contains _ => none

/-- The identities that a run uses, the latest use first. -/
def usesOf (a : Allocator) : List Access → List Address
  | [] => []
  | x :: xs => (a.access x).usesOf xs ++ (a.used? x).toList

/-- `x` brings in an identity that was absent. -/
def Installs (a : Allocator) (x : Access) (who : Address) : Prop :=
  x.installs? = some who ∧ a.contains who = false

/-- No state is dropped. -/
structure Keeps (a a' : Allocator) : Prop where
  residents : ∀ who, a.contains who = true → a'.contains who = true
  evicted : a'.evicted = a.evicted
  evictions : a'.evictions = a.evictions

/-- `who` takes the place of `victim`, and one event tells what `victim` had. Its last use lies
further back in `log` than that of any other resident. -/
structure Drops (a : Allocator) (log : List Address) (who victim : Address) (lost : State)
    (a' : Allocator) : Prop where
  had : a.entries.get? victim = some lost
  used : victim ∈ log
  oldest : ∀ other, a.contains other = true → other ≠ victim →
    log.idxOf other < log.idxOf victim
  victim_ne : victim ≠ who
  residents : ∀ w, a'.contains w = true ↔ w = who ∨ a.contains w = true ∧ w ≠ victim
  states : ∀ w, w ≠ who → w ≠ victim → a'.entries.get? w = a.entries.get? w
  evicted : a'.evicted = a.evicted + 1
  evictions : a'.evictions = ⟨victim, lost.next, lost.reclaimed.length⟩ :: a.evictions

section Writing

variable {a b a' : Allocator} {x : Access} {who other : Address} {s : State}

/-- What residency consists of is the same. -/
structure Alike (a a' : Allocator) : Prop where
  entries : a'.entries = a.entries
  capacity : a'.capacity = a.capacity
  evicted : a'.evicted = a.evicted
  evictions : a'.evictions = a.evictions

theorem Alike.trans (h : Alike a b) (h' : Alike b a') : Alike a a' :=
  ⟨h'.entries.trans h.entries, h'.capacity.trans h.capacity, h'.evicted.trans h.evicted,
    h'.evictions.trans h.evictions⟩

/-- A state of `who` is written: in its own or a free place, or in that of the last entry. -/
inductive Writes (a : Allocator) (who : Address) (s : State) (a' : Allocator) : Prop where
  | place (hroom : a.contains who = true ∨ a.entries.length < a.capacity)
      (h : Alike { a with entries := a.entries.put who s } a')
  | full (rest : Keyed Address State) (victim : Address) (lost : State)
      (habsent : a.contains who = false) (hfull : a.capacity ≤ a.entries.length)
      (hlast : a.entries = rest ++ [(victim, lost)])
      (h : Alike { a with
        entries := (who, s) :: rest
        evicted := a.evicted + 1
        evictions := ⟨victim, lost.next, lost.reclaimed.length⟩ :: a.evictions } a')

theorem Writes.alike (h : a.Writes who s b) (h' : Alike b a') : a.Writes who s a' := by
  cases h with
  | place hroom h => exact .place hroom (h.trans h')
  | full rest victim lost habsent hfull hlast h =>
    exact .full rest victim lost habsent hfull hlast (h.trans h')

theorem contains_iff (a : Allocator) (who : Address) :
    a.contains who = true ↔ who ∈ a.entries.map Prod.fst :=
  Keyed.has_iff

theorem store_writes (hc : 0 < a.capacity) (who : Address) (s : State) :
    a.Writes who s (a.store who s) := by
  by_cases hroom : a.entries.has who = true ∨ a.entries.length < a.capacity
  · have hstore : a.store who s = { a with entries := a.entries.put who s } := by
      rw [store, if_pos hroom]
    rw [hstore]
    exact .place hroom ⟨rfl, rfl, rfl, rfl⟩
  · obtain ⟨habsent, hlength⟩ := not_or.mp hroom
    cases hl : a.entries.getLast? with
    | none =>
      have hnil : a.entries = [] := List.getLast?_eq_none_iff.mp hl
      rw [hnil] at hlength
      exact absurd hc hlength
    | some last =>
      obtain ⟨victim, lost⟩ := last
      obtain ⟨rest, hrest⟩ := List.getLast?_eq_some_iff.mp hl
      refine .full rest victim lost (by simpa [contains] using habsent)
        (Nat.le_of_not_lt hlength) hrest ?_
      rw [store, if_neg hroom, hl]
      refine ⟨?_, rfl, rfl, rfl⟩
      show (who, s) :: a.entries.dropLast = (who, s) :: rest
      rw [hrest, List.dropLast_concat]

theorem issue_writes (hc : 0 < a.capacity) (who : Address) (s : State) :
    a.Writes who s.assign.2 (a.issue who s).2 := by
  have hstore := store_writes hc who s.assign.2
  exact hstore.alike ⟨rfl, rfl, rfl, rfl⟩

/-- A new generation is not yet a use. -/
theorem Writes.of_generation {n : Nat}
    (h : ({ a with generations := n } : Allocator).Writes who s a') : a.Writes who s a' := by
  cases h with
  | place hroom h => exact .place hroom ⟨h.entries, h.capacity, h.evicted, h.evictions⟩
  | full rest victim lost habsent hfull hlast h =>
    exact .full rest victim lost habsent hfull hlast
      ⟨h.entries, h.capacity, h.evicted, h.evictions⟩

theorem reset_writes (hc : 0 < a.capacity) (who : Address) (next : Nat) :
    ∃ s, a.Writes who s (a.reset who next) := by
  let created : Allocator := { a with generations := a.generations + 1 }
  have hstore := store_writes (a := created) hc who (State.start next created.generations)
  exact ⟨_, hstore.of_generation⟩

theorem install_writes (hc : 0 < a.capacity) (who : Address) (onChain : Nat) :
    ∃ s, a.Writes who s (a.install who onChain).2 := by
  cases hs : a.entries.get? who with
  | some s =>
    have ht : a.take? who = some (a.issue who s) := by rw [take?, hs, Option.map_some]
    rw [install_of_take? ht]
    exact ⟨_, issue_writes hc who s⟩
  | none =>
    let created : Allocator := { a with generations := a.generations + 1 }
    have hissue := issue_writes (a := created) hc who (State.start onChain created.generations)
    have hi : a.install who onChain =
        created.issue who (State.start onChain created.generations) := by
      simp only [install, take?_eq_none.mpr hs, created]
    rw [hi]
    exact ⟨_, hissue.of_generation⟩

theorem release_writes {t : State} (hs : a.entries.get? who = some t) (n : Nat)
    (generation : Option Nat) : ∃ s, a.Writes who s (a.release who n generation).2 := by
  have hroom : a.contains who = true := by simp [contains, Keyed.has, hs]
  simp only [release, hs]
  split
  · exact ⟨t, .place (.inl hroom) ⟨rfl, rfl, rfl, rfl⟩⟩
  · cases t.release n with
    | error e => exact ⟨t, .place (.inl hroom) ⟨rfl, rfl, rfl, rfl⟩⟩
    | ok s => exact ⟨s, .place (.inl hroom) ⟨rfl, rfl, rfl, rfl⟩⟩

/-- An access that uses nobody leaves everything as it is. -/
theorem access_unused (h : a.used? x = none) : a.access x = a := by
  cases x with
  | take who =>
    simp only [used?] at h
    split at h
    · simp at h
    · next habsent =>
      have hs : a.entries.get? who = none := by simpa [contains, Keyed.has] using habsent
      simp only [access, take?_eq_none.mpr hs, Option.map_none, Option.getD_none]
  | release who n generation =>
    simp only [used?] at h
    split at h
    · simp at h
    · next habsent =>
      have hs : a.entries.get? who = none := by simpa [contains, Keyed.has] using habsent
      simp only [access, release, hs]
  | install who onChain => simp [used?] at h
  | reset who next => simp [used?] at h
  | fail who => rfl
  | peek who => rfl
  | contains who => rfl

theorem access_used (hc : 0 < a.capacity) (h : a.used? x = some who) :
    ∃ s, a.Writes who s (a.access x) := by
  have hresident : ∀ w, (if a.contains w then some w else none) = some who →
      ∃ s, w = who ∧ a.entries.get? w = some s := by
    intro w hw
    split at hw
    · next hthere =>
      obtain ⟨s, hs⟩ := Option.isSome_iff_exists.mp hthere
      exact ⟨s, Option.some.inj hw, hs⟩
    · simp at hw
  cases x with
  | take w =>
    obtain ⟨s, rfl, hs⟩ := hresident w h
    simp only [access, take?, hs, Option.map_some, Option.getD_some]
    exact ⟨_, issue_writes hc w s⟩
  | release w n generation =>
    obtain ⟨s, rfl, hs⟩ := hresident w h
    exact release_writes hs n generation
  | install w onChain =>
    obtain rfl := Option.some.inj h
    exact install_writes hc w onChain
  | reset w next =>
    obtain rfl := Option.some.inj h
    exact reset_writes hc w next
  | fail w => simp [used?] at h
  | peek w => simp [used?] at h
  | contains w => simp [used?] at h

/-- Only an installation uses an identity that is not there. -/
theorem used?_of_installs (h : a.Installs x who) : a.used? x = some who := by
  obtain ⟨hx, -⟩ := h
  cases x <;> simp_all [Access.installs?, used?]

theorem installs_of_used? (h : a.used? x = some who) (habsent : a.contains who = false) :
    a.Installs x who := by
  refine ⟨?_, habsent⟩
  cases x with
  | install w onChain => exact h
  | reset w next => exact h
  | take w => simp only [used?] at h; split at h <;> simp_all
  | release w n generation => simp only [used?] at h; split at h <;> simp_all
  | fail w => simp [used?] at h
  | peek w => simp [used?] at h
  | contains w => simp [used?] at h

end Writing

/-- The residents stand in the order of their last uses, at most as many as there are places. -/
structure InOrder (capacity : Nat) (a : Allocator) (log : List Address) : Prop where
  places : a.capacity = max capacity 1
  fits : a.entries.length ≤ a.capacity
  used : ∀ who ∈ a.entries.map Prod.fst, who ∈ log
  recent : (a.entries.map Prod.fst).Pairwise fun v w => log.idxOf v < log.idxOf w
  counted : a.evicted = a.evictions.length

namespace InOrder

variable {capacity : Nat} {a a' : Allocator} {log : List Address} {x : Access} {who : Address}
  {s : State}

theorem distinct (h : InOrder capacity a log) : a.entries.Distinct :=
  h.recent.imp fun hlt heq => absurd hlt (by rw [heq]; exact Nat.lt_irrefl _)

theorem capacity_pos (h : InOrder capacity a log) : 0 < a.capacity := by
  have hplaces := h.places
  omega

theorem of_capacity (capacity : Nat) : InOrder capacity (.ofCapacity capacity) [] where
  places := rfl
  fits := Nat.zero_le _
  used := by simp [ofCapacity]
  recent := List.Pairwise.nil
  counted := rfl

/-- Those that are left keep their order behind the identity used now. -/
theorem recent_cons (h : InOrder capacity a log) {m : Keyed Address State} (hsub : m.Sublist a.entries)
    (habsent : who ∉ m.map Prod.fst) :
    (who :: m.map Prod.fst).Pairwise fun v w =>
      (who :: log).idxOf v < (who :: log).idxOf w := by
  have hlater : ∀ v ∈ m.map Prod.fst, (who :: log).idxOf v = log.idxOf v + 1 := by
    intro v hv
    apply List.idxOf_cons_ne
    intro heq
    exact habsent (heq ▸ hv)
  apply List.pairwise_cons.mpr
  constructor
  · intro v hv
    rw [hlater v hv, List.idxOf_cons_self]
    omega
  · have hrecent := h.recent.sublist (hsub.map Prod.fst)
    refine hrecent.imp_of_mem fun {v w} hv hw hlt => ?_
    rw [hlater v hv, hlater w hw]
    omega

theorem writes (h : InOrder capacity a log) (hw : a.Writes who s a') :
    InOrder capacity a' (who :: log) := by
  have hused : ∀ {m : Keyed Address State}, m.Sublist a.entries →
      ∀ v ∈ who :: m.map Prod.fst, v ∈ who :: log := by
    intro m hsub v hv
    rcases List.mem_cons.mp hv with rfl | hv
    · exact List.mem_cons_self
    · exact List.mem_cons_of_mem _ (h.used v ((hsub.map Prod.fst).subset hv))
  cases hw with
  | place hroom hlike =>
    have hsub : (a.entries.erase who).Sublist a.entries := List.filter_sublist
    have habsent : who ∉ (a.entries.erase who).map Prod.fst := by
      have hn := Keyed.get?_erase_self a.entries who
      intro hm
      have hthere := Keyed.has_iff.mpr hm
      simp [Keyed.has, hn] at hthere
    have hlength : (a.entries.erase who).length + 1 ≤ a.capacity := by
      rcases hroom with hthere | hroom
      · obtain ⟨t, ht⟩ := Option.isSome_iff_exists.mp hthere
        have hperm := (Keyed.perm_of_get? h.distinct ht).length_eq
        have hfits := h.fits
        simp only [List.length_cons] at hperm
        omega
      · have hle := hsub.length_le
        omega
    obtain ⟨hentries, hcapacity, hevicted, hevictions⟩ := hlike
    refine ⟨hcapacity.trans h.places, ?_, ?_, ?_, ?_⟩
    · rw [hentries, hcapacity]
      exact hlength
    · rw [hentries]
      exact hused hsub
    · rw [hentries]
      exact h.recent_cons hsub habsent
    · rw [hevicted, hevictions]
      exact h.counted
  | full rest victim lost habsent hfull hlast hlike =>
    have hsub : rest.Sublist a.entries := hlast ▸ List.sublist_append_left _ _
    have hgone : who ∉ rest.map Prod.fst := by
      intro hm
      have hthere := Keyed.has_iff.mpr ((hsub.map Prod.fst).subset hm)
      exact absurd hthere (by simpa [contains] using habsent)
    obtain ⟨hentries, hcapacity, hevicted, hevictions⟩ := hlike
    refine ⟨hcapacity.trans h.places, ?_, ?_, ?_, ?_⟩
    · have hfits := h.fits
      rw [hlast, List.length_append] at hfits
      rw [hentries, hcapacity]
      exact hfits
    · rw [hentries]
      exact hused hsub
    · rw [hentries]
      exact h.recent_cons hsub hgone
    · rw [hevicted, hevictions]
      simp only [List.length_cons, h.counted]

theorem access (h : InOrder capacity a log) (x : Access) :
    InOrder capacity (a.access x) ((a.used? x).toList ++ log) := by
  cases hx : a.used? x with
  | none =>
    rw [access_unused hx]
    exact h
  | some who =>
    obtain ⟨s, hs⟩ := access_used h.capacity_pos hx
    exact h.writes hs

theorem accessAll (h : InOrder capacity a log) (xs : List Access) :
    InOrder capacity (a.accessAll xs) (a.usesOf xs ++ log) := by
  induction xs generalizing a log with
  | nil => exact h
  | cons x xs ih =>
    have hrest := ih (h.access x)
    simp only [usesOf, List.append_assoc]
    exact hrest

/-- As long as no absent identity comes in at full capacity, everybody stays. -/
theorem keeps (h : InOrder capacity a log)
    (hroom : ∀ who, a.Installs x who → a.entries.length < a.capacity) : a.Keeps (a.access x) := by
  cases hx : a.used? x with
  | none =>
    rw [access_unused hx]
    exact ⟨fun _ hw => hw, rfl, rfl⟩
  | some who =>
    obtain ⟨s, hs⟩ := access_used h.capacity_pos hx
    cases hs with
    | place _ hlike =>
      refine ⟨fun w hw => ?_, hlike.evicted, hlike.evictions⟩
      have hstay : ((a.entries.put who s).get? w).isSome = true := by
        rw [Keyed.get?_put]
        split
        · rfl
        · exact hw
      rw [contains, hlike.entries]
      exact hstay
    | full rest victim lost habsent hfull =>
      have hlt := hroom who (installs_of_used? hx habsent)
      omega

/-- The last entry is the one that goes. -/
theorem drops (h : InOrder capacity a log) (hx : a.Installs x who)
    (hfull : a.entries.length = a.capacity) :
    ∃ victim lost, a.Drops log who victim lost (a.access x) := by
  obtain ⟨s, hs⟩ := access_used h.capacity_pos (used?_of_installs hx)
  cases hs with
  | place hroom _ =>
    rcases hroom with hthere | hlt
    · rw [hx.2] at hthere
      simp at hthere
    · omega
  | full rest victim lost habsent _ hlast hlike =>
    have hkeys : a.entries.map Prod.fst = rest.map Prod.fst ++ [victim] := by
      rw [hlast, List.map_append]
      rfl
    have hthere : a.contains victim = true := by
      rw [contains_iff, hkeys]
      exact List.mem_append_right _ List.mem_cons_self
    have horder := h.recent
    rw [hkeys, List.pairwise_append] at horder
    have hothers : ∀ w, a.contains w = true ↔ w ∈ rest.map Prod.fst ∨ w = victim := by
      intro w
      rw [contains_iff, hkeys, List.mem_append, List.mem_singleton]
    have hnot : victim ∉ rest.map Prod.fst := by
      intro hm
      exact absurd (horder.2.2 victim hm victim List.mem_cons_self) (Nat.lt_irrefl _)
    refine ⟨victim, lost, ?_, ?_, ?_, ?_, ?_, ?_, hlike.evicted, hlike.evictions⟩
    · apply Keyed.get?_of_mem h.distinct
      rw [hlast]
      exact List.mem_append_right _ List.mem_cons_self
    · apply h.used
      rw [← contains_iff]
      exact hthere
    · intro other hother hne
      have hin : other ∈ rest.map Prod.fst := ((hothers other).mp hother).resolve_right hne
      exact horder.2.2 other hin victim List.mem_cons_self
    · intro heq
      rw [heq, habsent] at hthere
      simp at hthere
    · intro w
      rw [contains_iff, hlike.entries, hothers w]
      simp only [List.map_cons, List.mem_cons]
      constructor
      · rintro (rfl | hin)
        · exact .inl rfl
        · exact .inr ⟨.inl hin, fun heq => hnot (heq ▸ hin)⟩
      · rintro (rfl | ⟨hin | rfl, hne⟩)
        · exact .inl rfl
        · exact .inr hin
        · exact absurd rfl hne
    · intro w hwho hvictim
      have hgone : Keyed.get? rest w = Keyed.get? a.entries w := by
        have hl : a.entries.getLast? = some (victim, lost) := by
          rw [hlast, List.getLast?_concat]
        have hkept := Keyed.get?_dropLast_or (k := w) hl
        rw [hlast, List.dropLast_concat, ← hlast] at hkept
        exact hkept.resolve_right fun hv => hvictim hv.1
      rw [hlike.entries]
      simp only [Keyed.get?]
      rw [if_neg (Ne.symm hwho)]
      exact hgone

end InOrder

/-- After any accesses there are at most as many residents as places, and the counter is the number
of events. The next access drops nobody, unless it brings in an absent identity when all places are
taken; then the one that was not used for longest goes, with one event. -/
theorem least_recently_used_dropped (capacity : Nat) (xs : List Access) :
    let a := (ofCapacity capacity).accessAll xs
    let log := (ofCapacity capacity).usesOf xs
    a.entries.Distinct ∧ a.entries.length ≤ max capacity 1 ∧
      (∀ who, a.contains who = true → who ∈ log) ∧ a.evicted = a.evictions.length ∧
      (∀ x, (∀ who, a.Installs x who → a.entries.length < max capacity 1) →
        a.Keeps (a.access x)) ∧
      ∀ x who, a.Installs x who → a.entries.length = max capacity 1 →
        ∃ victim lost, a.Drops log who victim lost (a.access x) := by
  intro a log
  have horder : InOrder capacity a log := by
    have hrun := (InOrder.of_capacity capacity).accessAll xs
    rwa [List.append_nil] at hrun
  have hplaces : a.capacity = max capacity 1 := horder.places
  refine ⟨horder.distinct, hplaces ▸ horder.fits, ?_, horder.counted, ?_, ?_⟩
  · intro who hwho
    exact horder.used who ((contains_iff a who).mp hwho)
  · intro x hroom
    exact horder.keeps (hplaces ▸ hroom)
  · intro x who hx hfull
    exact horder.drops hx (hplaces ▸ hfull)

/-- Two identities come in. A refused release uses the first again; the second is only looked at. -/
def twoResidents (x y : Address) : List Access :=
  [.take x, .install x 7, .take y, .install y 4, .release x 7 (some 9), .peek y, .contains y]

theorem least_recently_used_dropped_third :
    let x := Address.ofNat 1
    let y := Address.ofNat 2
    let z := Address.ofNat 3
    let a := (ofCapacity 2).accessAll (twoResidents x y)
    let log := (ofCapacity 2).usesOf (twoResidents x y)
    a.Keeps (a.access (.reset y 9)) ∧ ∃ lost, a.Drops log z y lost (a.access (.install z 0)) ∧
      lost = ⟨5, [], 2⟩ := by
  intro x y z a log
  obtain ⟨-, -, -, -, hkeeps, hdrops⟩ := least_recently_used_dropped 2 (twoResidents x y)
  have hstays : ∀ who, ¬a.Installs (.reset y 9) who := by
    rintro who ⟨hwho, habsent⟩
    obtain rfl : y = who := Option.some.inj hwho
    exact absurd habsent (by decide)
  refine ⟨hkeeps _ fun who hwho => absurd hwho (hstays who), ?_⟩
  obtain ⟨victim, lost, h⟩ := hdrops (.install z 0) z ⟨rfl, by decide⟩ (by decide)
  have hevent : (a.access (.install z 0)).evictions = [⟨y, 5, 0⟩] := by decide
  rw [h.evictions] at hevent
  obtain rfl : victim = y := (Eviction.mk.inj (List.cons.inj hevent).1).1
  have hhad : a.entries.get? y = some ⟨5, [], 2⟩ := by decide
  exact ⟨lost, h, Option.some.inj (h.had.symm.trans hhad)⟩

end Allocator

theorem Dealing.accessed {a b : Allocator} {marks : List Mark} (h : Dealing a marks b) :
    ∃ x, b = a.access x := by
  cases h with
  | @issues _ who _ ht =>
    refine ⟨.take who, ?_⟩
    simp only [Allocator.access, ht, Option.map_some, Option.getD_some]
  | creates who n => exact ⟨.reset who n, rfl⟩
  | returns who n generation => exact ⟨.release who n generation, rfl⟩

/-- Whatever is dealt with an allocator is accesses to it. -/
theorem Dealings.accessed {a b : Allocator} {marks : List Mark} (h : Dealings a marks b) :
    ∃ xs, b = a.accessAll xs := by
  induction h with
  | none => exact ⟨[], rfl⟩
  | more _ hx ih =>
    obtain ⟨xs, rfl⟩ := ih
    obtain ⟨x, rfl⟩ := hx.accessed
    refine ⟨xs ++ [x], ?_⟩
    simp only [Allocator.accessAll, List.foldl_append, List.foldl_cons, List.foldl_nil]

/-- So are all acts of the callers of a book, with or without a reservation. -/
theorem Book.run_accessed {κ : Type} [DecidableEq κ] (capacity : Nat) (acts : List (Act κ)) :
    ∃ xs, ((opened capacity : Book κ).run acts).allocator =
      (Allocator.ofCapacity capacity).accessAll xs :=
  ((opened capacity : Book κ).run_dealings acts).accessed

end Outbox.Nonce
