import Outbox.Proofs.Nonce.Wrap

namespace Outbox.Nonce

/-- A state of `who`, from its first number on: as it is, or as it was when it was dropped. -/
structure Tenure where
  who : Address
  start : Nat
  state : State
deriving DecidableEq

namespace Tenure

variable {t : Tenure} {a : Allocator} {m : Mark}

/-- How far `next` has moved on, without the numbers that wait for reuse. A number taken back below
`start` counts against it. -/
def net (t : Tenure) : ℤ := t.state.next - t.start - t.state.reclaimed.length

def subject (t : Tenure) : Address × Nat := (t.who, t.state.generation)

/-- What a tenure has from its beginning. -/
def origin (t : Tenure) : Address × Nat × Nat := (t.who, t.state.generation, t.start)

def begun? : Mark → Option Tenure
  | .created who g n => some ⟨who, n, .start n g⟩
  | .issued _ | .returned _ => none

/-- Takes the state over from `a`, unless it is gone there. -/
def follow (t : Tenure) (a : Allocator) : Tenure :=
  match a.entries.get? t.who with
  | some s => if s.generation = t.state.generation then { t with state := s } else t
  | none => t

theorem net_eq (t : Tenure) : t.net = t.state.used - t.start := by
  simp only [net, State.used]
  omega

theorem begun?_eq_some (h : begun? m = some t) :
    m = .created t.who t.state.generation t.start := by
  cases m with
  | created who g n =>
    obtain rfl := Option.some.inj h
    rfl
  | issued r => simp [begun?] at h
  | returned r => simp [begun?] at h

theorem generations_begun (log : List Mark) :
    (log.filterMap begun?).map (fun t => t.state.generation) = log.filterMap Mark.begins? := by
  rw [List.map_filterMap]
  congr 1
  funext m
  cases m <;> rfl

theorem follow_cases (t : Tenure) (a : Allocator) :
    (∃ s, a.entries.get? t.who = some s ∧ s.generation = t.state.generation ∧
      t.follow a = { t with state := s }) ∨
    (∀ s, a.entries.get? t.who = some s → s.generation ≠ t.state.generation) ∧
      t.follow a = t := by
  unfold follow
  cases hs : a.entries.get? t.who with
  | none => exact .inr ⟨by simp, rfl⟩
  | some s =>
    by_cases hg : s.generation = t.state.generation
    · exact .inl ⟨s, rfl, hg, if_pos hg⟩
    · apply Or.inr
      constructor
      · intro s' hs'
        obtain rfl := Option.some.inj hs'
        exact hg
      · exact if_neg hg

@[simp] theorem origin_follow (t : Tenure) (a : Allocator) : (t.follow a).origin = t.origin := by
  rcases t.follow_cases a with ⟨s, -, hg, heq⟩ | ⟨-, heq⟩
  · rw [heq]
    simp [origin, hg]
  · rw [heq]

@[simp] theorem subject_follow (t : Tenure) (a : Allocator) :
    (t.follow a).subject = t.subject := by
  have horigin := t.origin_follow a
  simp only [origin, Prod.mk.injEq] at horigin
  simp [subject, horigin]

end Tenure

namespace Allocator

variable {a : Allocator} {xs : List Access} {x : Access} {who : Address} {s : State}

theorem accessAll_append [Counter] (a : Allocator) (xs : List Access) (x : Access) :
    a.accessAll (xs ++ [x]) = (a.accessAll xs).access x := by
  simp [accessAll]

/-- At some point of the accesses `s` was the state of `who`, and at no later point was there one of
its generation. -/
def LastSeen [Counter] (a : Allocator) (xs : List Access) (who : Address) (s : State) : Prop :=
  ∃ earlier later, xs = earlier ++ later ∧ (a.accessAll earlier).entries.get? who = some s ∧
    ∀ more, more ≠ [] → more <+: later →
      ∀ t, (a.accessAll (earlier ++ more)).entries.get? who = some t → t.generation ≠ s.generation

theorem LastSeen.now [Counter] (h : (a.accessAll xs).entries.get? who = some s) :
    a.LastSeen xs who s := by
  refine ⟨xs, [], (List.append_nil xs).symm, h, ?_⟩
  intro more hne hmore
  exact absurd (List.prefix_nil.mp hmore) hne

theorem LastSeen.append [Counter] (h : a.LastSeen xs who s)
    (hgone : ∀ t, ((a.accessAll xs).access x).entries.get? who = some t →
      t.generation ≠ s.generation) : a.LastSeen (xs ++ [x]) who s := by
  obtain ⟨earlier, later, rfl, hs, hlater⟩ := h
  refine ⟨earlier, later ++ [x], List.append_assoc _ _ _, hs, ?_⟩
  intro more hne hmore t ht
  rcases List.prefix_concat_iff.mp hmore with rfl | hmore
  · rw [← List.append_assoc, accessAll_append] at ht
    exact hgone t ht
  · exact hlater more hne hmore t ht

end Allocator

/-- An allocator with what was done to it and all states it ever had, both newest first. -/
structure Annals where
  allocator : Allocator
  log : List Mark := []
  tenures : List Tenure := []

namespace Annals

variable {l : Annals} {t : Tenure} {x : Access} {who : Address} {s : State} {g n : Nat}

def opened (capacity : Nat) : Annals := { allocator := .ofCapacity capacity }

def step [Counter] (l : Annals) (x : Access) : Annals where
  allocator := l.allocator.access x
  log := l.allocator.record x ++ l.log
  tenures := ((l.allocator.record x).filterMap Tenure.begun? ++ l.tenures).map
    (·.follow (l.allocator.access x))

def run [Counter] (l : Annals) (xs : List Access) : Annals := xs.foldl step l

theorem run_append [Counter] (l : Annals) (xs : List Access) (x : Access) :
    l.run (xs ++ [x]) = (l.run xs).step x := by
  simp [run]

theorem allocator_run [Counter] (l : Annals) (xs : List Access) :
    (l.run xs).allocator = l.allocator.accessAll xs := by
  induction xs using List.reverseRec with
  | nil => rfl
  | append_singleton xs x ih =>
    rw [run_append, Allocator.accessAll_append, ← ih]
    rfl

/-- What is in the annals after an access was there before or has begun with it. -/
theorem mem_tenures_step [Counter] (ht : t ∈ (l.step x).tenures) :
    ∃ u, t = u.follow (l.allocator.access x) ∧
      ((∃ m ∈ l.allocator.record x, Tenure.begun? m = some u) ∨ u ∈ l.tenures) := by
  obtain ⟨u, hu, rfl⟩ := List.mem_map.mp ht
  refine ⟨u, rfl, ?_⟩
  rcases List.mem_append.mp hu with hnew | hold
  · exact .inl (List.mem_filterMap.mp hnew)
  · exact .inr hold

/-- A state that an access creates is there after it. -/
theorem resident_of_begun [Counter] {m : Mark} (hm : m ∈ l.allocator.record x)
    (hb : Tenure.begun? m = some t) :
    ∃ s, (l.allocator.access x).entries.get? t.who = some s ∧
      s.generation = t.state.generation := by
  have hthere := Allocator.resident_of_record hm
  rw [Tenure.begun?_eq_some hb] at hthere
  exact hthere

theorem created_iff (h : l.tenures.map Tenure.origin =
      (l.log.filterMap Tenure.begun?).map Tenure.origin) :
    .created who g n ∈ l.log ↔ ∃ t ∈ l.tenures, t.origin = (who, g, n) := by
  rw [← List.mem_map, h]
  simp only [List.mem_map, List.mem_filterMap]
  constructor
  · intro hm
    exact ⟨_, ⟨_, hm, rfl⟩, rfl⟩
  · rintro ⟨t, ⟨m, hm, hb⟩, ht⟩
    obtain ⟨rfl, rfl, rfl⟩ : t.who = who ∧ t.state.generation = g ∧ t.start = n := by
      simpa [Tenure.origin] using ht
    rw [Tenure.begun?_eq_some hb] at hm
    exact hm

/-- Every state has its tenure, and every tenure stands for what is marked of its state as long as
the counter goes on. -/
structure Sound [Counter] (l : Annals) : Prop where
  tallied : Tallied l.allocator l.log
  origins : l.tenures.map Tenure.origin = (l.log.filterMap Tenure.begun?).map Tenure.origin
  resident : ∀ who s, l.allocator.entries.get? who = some s →
    ∃ t ∈ l.tenures, t.who = who ∧ t.state = s
  owned : ∀ m ∈ l.log, m.subject ∈ l.tenures.map Tenure.subject
  net : ∀ t ∈ l.tenures, Unwrapped (about t.subject l.log) → t.net = tally (about t.subject l.log)

namespace Sound

theorem opened [Counter] (capacity : Nat) : Sound (opened capacity) where
  tallied := .opened capacity
  origins := rfl
  resident := by simp [Annals.opened, Allocator.ofCapacity, Keyed.get?]
  owned := by simp [Annals.opened]
  net := by simp [Annals.opened]

theorem origins_step [Counter] (h : l.Sound) (x : Access) : (l.step x).tenures.map Tenure.origin =
    ((l.step x).log.filterMap Tenure.begun?).map Tenure.origin := by
  simp only [Annals.step, List.map_map, List.filterMap_append, List.map_append, Function.comp_def,
    Tenure.origin_follow]
  rw [h.origins]

theorem resident_step [Counter] (h : l.Sound)
    (hs : (l.step x).allocator.entries.get? who = some s) :
    ∃ t ∈ (l.step x).tenures, t.who = who ∧ t.state = s := by
  obtain ⟨start, hc⟩ := (h.tallied.access x).begun who s hs
  obtain ⟨t, ht, horigin⟩ := (created_iff (h.origins_step x)).mp hc
  obtain ⟨rfl, hg, -⟩ : t.who = who ∧ t.state.generation = s.generation ∧ t.start = start := by
    simpa [Tenure.origin] using horigin
  obtain ⟨u, rfl, -⟩ := mem_tenures_step ht
  refine ⟨_, ht, rfl, ?_⟩
  rcases u.follow_cases (l.allocator.access x) with ⟨s', hs', -, heq⟩ | ⟨hgone, heq⟩
  · rw [heq] at hs ⊢
    exact Option.some.inj (hs'.symm.trans hs)
  · rw [heq] at hs hg
    exact absurd hg.symm (hgone s hs)

theorem owned_step [Counter] (h : l.Sound) (x : Access) :
    ∀ m ∈ (l.step x).log, m.subject ∈ (l.step x).tenures.map Tenure.subject := by
  intro m hm
  rcases List.mem_append.mp hm with hnew | hold
  · obtain ⟨s, hs, hg⟩ := Allocator.resident_of_record hnew
    obtain ⟨t, ht, hwho, hstate⟩ := h.resident_step hs
    refine List.mem_map.mpr ⟨t, ht, ?_⟩
    rw [Tenure.subject, hwho, hstate, hg]
    rfl
  · have hkept : (l.step x).tenures.map Tenure.subject =
        ((l.allocator.record x).filterMap Tenure.begun?).map Tenure.subject ++
          l.tenures.map Tenure.subject := by
      simp [Annals.step, Function.comp_def]
    rw [hkept]
    exact List.mem_append_right _ (h.owned m hold)

theorem net_step [Counter] (h : l.Sound) (x : Access) :
    ∀ t ∈ (l.step x).tenures, Unwrapped (about t.subject (l.step x).log) →
      t.net = tally (about t.subject (l.step x).log) := by
  intro t ht hwrap
  have hc : .created t.who t.state.generation t.start ∈ (l.step x).log :=
    (created_iff (h.origins_step x)).mpr ⟨t, ht, rfl⟩
  obtain ⟨u, rfl, hu⟩ := mem_tenures_step ht
  rcases u.follow_cases (l.allocator.access x) with ⟨s, hs, -, heq⟩ | ⟨hgone, heq⟩
  · rw [heq] at hc hwrap ⊢
    have hstands := (h.tallied.access x).resident u.who s u.start hs hc hwrap
    rw [Tenure.net_eq]
    show s.used - u.start = tally (about (u.who, s.generation) _)
    rw [hstands]
    exact add_sub_cancel_left _ _
  · rw [heq] at hwrap ⊢
    rcases hu with ⟨m, hm, hb⟩ | hu
    · obtain ⟨s, hs, hg⟩ := resident_of_begun hm hb
      exact absurd hg (hgone s hs)
    · -- of a state that is gone nothing new is marked
      have hnone : about u.subject (l.allocator.record x) = [] := by
        apply about_eq_nil
        intro m hm hsubject
        obtain ⟨s, hs, hg⟩ := Allocator.resident_of_record hm
        obtain ⟨hwho, hgen⟩ := Prod.mk.inj hsubject
        rw [hwho] at hs
        exact hgone s hs (hg.trans hgen)
      change Unwrapped (about u.subject (l.allocator.record x ++ l.log)) at hwrap
      show u.net = tally (about u.subject (l.allocator.record x ++ l.log))
      rw [about_append, hnone, List.nil_append] at hwrap ⊢
      exact h.net u hu hwrap

theorem step [Counter] (h : l.Sound) (x : Access) : (l.step x).Sound where
  tallied := h.tallied.access x
  origins := h.origins_step x
  resident := fun _ _ hs => h.resident_step hs
  owned := h.owned_step x
  net := h.net_step x

theorem run [Counter] (capacity : Nat) (xs : List Access) :
    ((Annals.opened capacity).run xs).Sound := by
  induction xs using List.reverseRec with
  | nil => exact opened capacity
  | append_singleton xs x ih =>
    rw [run_append]
    exact ih.step x

theorem generations [Counter] (h : l.Sound) : l.tenures.map (fun t => t.state.generation) =
    (List.range' 1 l.allocator.generations).reverse := by
  have horigins := congrArg (List.map fun o : Address × Nat × Nat => o.2.1) h.origins
  simp only [List.map_map] at horigins
  rw [← h.tallied.numbered, ← Tenure.generations_begun]
  exact horigins

end Sound

/-- The tenures are those of all states there ever were, as they are or as they were last seen. -/
structure Complete [Counter] (l : Annals) (capacity : Nat) (xs : List Access) : Prop where
  /-- Each generation stands there once, the newest first. -/
  generations : l.tenures.map (fun t => t.state.generation) =
    (List.range' 1 l.allocator.generations).reverse
  created : ∀ who g n, .created who g n ∈ l.log ↔ ∃ t ∈ l.tenures, t.origin = (who, g, n)
  resident : ∀ who s, l.allocator.entries.get? who = some s →
    ∃ t ∈ l.tenures, t.who = who ∧ t.state = s
  lastSeen : ∀ t ∈ l.tenures, (Allocator.ofCapacity capacity).LastSeen xs t.who t.state

theorem run_endless [Counter] {capacity : Nat} {xs : List Access}
    (h : Unwrapped ((opened capacity).run xs).log) :
    (opened capacity).run xs = @run .endless (opened capacity) xs := by
  induction xs using List.reverseRec with
  | nil => rfl
  | append_singleton xs x ih =>
    rw [run_append] at h ⊢
    rw [@run_append .endless]
    obtain ⟨hnow, hbefore⟩ := h.of_append
    obtain ⟨hrecord, haccess⟩ := Allocator.access_endless hnow
    rw [← ih hbefore]
    simp only [step, hrecord, haccess]

/-- Of accesses after which no last number has been issued all is true that is true of a counter
without end. -/
theorem accessAll_endless [Counter] {capacity : Nat} {xs : List Access}
    (h : Unwrapped ((opened capacity).run xs).log) :
    (Allocator.ofCapacity capacity).accessAll xs =
      @Allocator.accessAll .endless (.ofCapacity capacity) xs := by
  have hrun := congrArg Annals.allocator (run_endless h)
  rwa [allocator_run, @allocator_run .endless] at hrun

end Annals

end Outbox.Nonce
