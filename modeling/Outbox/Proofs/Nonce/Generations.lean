import Outbox.Proofs.Nonce.Dealings

namespace Outbox.Nonce

def Mark.generation : Mark → Nat
  | .created _ g _ => g
  | .issued r => r.generation
  | .returned r => r.generation

namespace Allocator

/-- Equal but for the order in which the identities were last used. -/
structure Unmoved (a a' : Allocator) : Prop where
  states : ∀ who, a'.entries.get? who = a.entries.get? who
  residents : a'.entries.Perm a.entries
  released : a'.released = a.released
  allocated : a'.allocated = a.allocated
  generations : a'.generations = a.generations
  evictions : a'.evictions = a.evictions
  evicted : a'.evicted = a.evicted
  capacity : a'.capacity = a.capacity

variable {a : Allocator} {who : Address} {s : State} {n : Nat} {generation : Option Nat}
  {e : Refusal}

theorem distinct_store (h : a.entries.Distinct) (who : Address) (s : State) :
    (a.store who s).entries.Distinct := by
  simp only [store]
  split
  · exact Keyed.distinct_put h who s
  · next hfull =>
    have habs : Keyed.get? a.entries who = none := by
      have hh := (not_or.mp hfull).1
      simpa [Keyed.has] using hh
    split
    · exact List.pairwise_singleton _ _
    · have hsub : a.entries.dropLast.Sublist a.entries := List.dropLast_sublist _
      refine List.nodup_cons.mpr ⟨fun hm => ?_, List.Nodup.sublist (hsub.map Prod.fst) h⟩
      obtain ⟨p, hp, hw⟩ := List.mem_map.mp hm
      have hp' : p ∈ Keyed.erase a.entries who := by
        rw [Keyed.erase_of_get?_none habs]
        exact hsub.subset hp
      exact (Keyed.mem_erase.mp hp').2 hw

theorem distinct_release (h : a.entries.Distinct) (who : Address) (n : Nat)
    (generation : Option Nat) : (a.release who n generation).2.entries.Distinct := by
  simp only [release]
  split
  · exact h
  · split
    · exact Keyed.distinct_put h _ _
    · split <;> exact Keyed.distinct_put h _ _

/-- A number is taken back exactly if a state is there, of the generation that is named if one is,
that has issued the number and does not have it back. -/
theorem release_isOk :
    (a.release who n generation).1 = .ok () ↔ ∃ s, a.entries.get? who = some s ∧
      (∀ g ∈ generation, g = s.generation) ∧ n < s.next ∧ n ∉ s.reclaimed := by
  unfold release
  cases hs : a.entries.get? who with
  | none => simp
  | some s =>
    have hany : generation.any (fun g => decide (g ≠ s.generation)) = true ↔
        ¬∀ g ∈ generation, g = s.generation := by
      cases generation <;> simp
    simp only [hany, Option.some.injEq, exists_eq_left']
    split
    · next hstale => exact iff_of_false (by simp) fun h => hstale h.1
    · next hfit =>
      have hfit' : ∀ g ∈ generation, g = s.generation := not_not.mp hfit
      cases hr : s.release n with
      | error e =>
        refine iff_of_false (by simp) fun h => ?_
        simp [State.release, Nat.not_le.mpr h.2.1, h.2.2] at hr
      | ok s' =>
        refine iff_of_true rfl ⟨hfit', ?_⟩
        simp only [State.release] at hr
        split at hr
        · simp at hr
        · split at hr
          · simp at hr
          · next hlt hnew => exact ⟨Nat.lt_of_not_le hlt, hnew⟩

theorem unmoved_put (hd : a.entries.Distinct) (hs : a.entries.get? who = some s) :
    a.Unmoved { a with entries := a.entries.put who s } := by
  refine ⟨fun other => ?_, (Keyed.perm_of_get? hd hs).symm, rfl, rfl, rfl, rfl, rfl, rfl⟩
  show (a.entries.put who s).get? other = a.entries.get? other
  rw [Keyed.get?_put]
  split
  · next hw => rw [hw, hs]
  · rfl

theorem unmoved_of_refused (hd : a.entries.Distinct)
    (he : (a.release who n generation).1 = .error e) :
    a.Unmoved (a.release who n generation).2 := by
  unfold release at he ⊢
  cases hs : a.entries.get? who with
  | none => exact ⟨fun _ => rfl, List.Perm.refl _, rfl, rfl, rfl, rfl, rfl, rfl⟩
  | some s =>
    simp only [hs] at he ⊢
    split
    · exact unmoved_put hd hs
    · next hfit =>
      rw [if_neg hfit] at he
      cases hr : s.release n with
      | error e => exact unmoved_put hd hs
      | ok s' => simp [hr] at he

theorem giveBack_of_replaced {r : Reservation} (h : ∀ s, a.entries.get? r.identity = some s →
    s.generation ≠ r.generation) :
    (a.giveBack r).1 =
      .error (if a.contains r.identity then .stale r.nonce else .untracked r.nonce) := by
  by_cases hthere : a.contains r.identity = true
  · obtain ⟨s, hs⟩ := Option.isSome_iff_exists.mp hthere
    simp [hthere, giveBack, release, hs, Ne.symm (h s hs)]
  · have hs : a.entries.get? r.identity = none := by simpa [contains, Keyed.has] using hthere
    simp [hthere, giveBack, release, hs]

end Allocator

/-- The marks stand in the order of their generations: whatever is created is younger than all
marks before it, and a resident state is its identity's youngest. -/
structure Dated (a : Allocator) (log : List Mark) : Prop where
  distinct : a.entries.Distinct
  bounded : ∀ m ∈ log, m.generation ≤ a.generations
  fresh : log.Pairwise fun m older => ∀ who g n, m = .created who g n → older.generation < g
  resident : ∀ who s, a.entries.get? who = some s → s.generation ≤ a.generations ∧
    ∀ g n, .created who g n ∈ log → g ≤ s.generation

namespace Dated

variable {a b : Allocator} {log newer older : List Mark} {m : Mark} {r : Reservation}
  {who : Address} {g n : Nat}

theorem opened (capacity : Nat) : Dated (.ofCapacity capacity) [] := by
  refine ⟨List.nodup_nil, ?_, List.Pairwise.nil, ?_⟩ <;> simp [Allocator.ofCapacity, Keyed.get?]

/-- A mark that creates nothing and is of a state that was there. -/
theorem mark (h : Dated a log) (hd : b.entries.Distinct) (hg : b.generations = a.generations)
    (hm : m.generation ≤ a.generations) (hc : ∀ who g n, m ≠ .created who g n)
    (hr : ∀ who t, b.entries.get? who = some t →
      ∃ s, a.entries.get? who = some s ∧ t.generation = s.generation) : Dated b (m :: log) := by
  refine ⟨hd, fun q hq => ?_, List.pairwise_cons.mpr ⟨?_, h.fresh⟩, fun who t ht => ?_⟩
  · rw [hg]
    rcases List.mem_cons.mp hq with rfl | hq
    · exact hm
    · exact h.bounded q hq
  · exact fun _ _ who g n heq => absurd heq (hc who g n)
  · obtain ⟨s, hs, hgen⟩ := hr who t ht
    obtain ⟨hle, hlatest⟩ := h.resident who s hs
    rw [hgen, hg]
    refine ⟨hle, fun g n hin => ?_⟩
    rcases List.mem_cons.mp hin with heq | hin
    · exact absurd heq.symm (hc who g n)
    · exact hlatest g n hin

theorem created (h : Dated a log) (who : Address) (n : Nat) :
    Dated (a.reset who n) (.created who (a.generations + 1) n :: log) := by
  refine ⟨Allocator.distinct_store (a := { a with generations := a.generations + 1 }) h.distinct _ _,
    fun q hq => ?_, List.pairwise_cons.mpr ⟨fun q hq w g v heq => ?_, h.fresh⟩, fun w t ht => ?_⟩
  · rw [Allocator.generations_reset]
    rcases List.mem_cons.mp hq with rfl | hq
    · exact Nat.le_refl _
    · exact Nat.le_succ_of_le (h.bounded q hq)
  · injection heq with _ hg _
    rw [← hg]
    exact Nat.lt_succ_of_le (h.bounded q hq)
  · rw [Allocator.generations_reset]
    by_cases hw : w = who
    · subst hw
      rw [Allocator.get?_reset_self] at ht
      obtain rfl := Option.some.inj ht
      refine ⟨Nat.le_refl _, fun g v hin => ?_⟩
      show g ≤ a.generations + 1
      rcases List.mem_cons.mp hin with heq | hin
      · injection heq with _ hg _
        exact Nat.le_of_eq hg
      · exact Nat.le_succ_of_le (h.bounded _ hin)
    · obtain ⟨hle, hlatest⟩ := h.resident w t ((Allocator.reset_leaves a n hw).get? ht)
      refine ⟨Nat.le_succ_of_le hle, fun g v hin => ?_⟩
      rcases List.mem_cons.mp hin with heq | hin
      · injection heq with hw' _ _
        exact absurd hw' hw
      · exact hlatest g v hin

theorem issued [Counter] {s : State} (h : Dated a log) (hd : b.entries.Distinct)
    (hi : Allocator.Issued a who s r b) : Dated b (.issued r :: log) := by
  refine h.mark hd hi.generations ?_ (by simp) fun w t ht => ?_
  · rw [hi.reservation]
    exact (h.resident who s hi.source).1
  · by_cases hw : w = who
    · subst hw
      rw [hi.rest] at ht
      obtain rfl := Option.some.inj ht
      exact ⟨s, hi.source, State.assign_generation s⟩
    · exact ⟨t, (hi.others w hw).get? ht, rfl⟩

theorem returned (h : Dated a log) (who : Address) (n : Nat) (generation : Option Nat) :
    Dated (a.release who n generation).2 (releaseMarks a who n generation ++ log) := by
  have hd := Allocator.distinct_release h.distinct who n generation
  have hg := Allocator.generations_release a who n generation
  have hr : ∀ w t, (a.release who n generation).2.entries.get? w = some t →
      ∃ s, a.entries.get? w = some s ∧ t.generation = s.generation := by
    intro w t ht
    have hgen := Allocator.generation_release a who w n generation
    rw [ht, Option.map_some] at hgen
    obtain ⟨s, hs, heq⟩ := Option.map_eq_some_iff.mp hgen.symm
    exact ⟨s, hs, heq.symm⟩
  unfold releaseMarks
  split
  · next s hs _ => exact h.mark hd hg (h.resident who s hs).1 (by simp) hr
  · refine ⟨hd, fun q hq => hg ▸ h.bounded q hq, h.fresh, fun w t ht => ?_⟩
    obtain ⟨s, hs, hgen⟩ := hr w t ht
    rw [hgen, hg]
    exact h.resident w s hs

theorem dealing [Counter] (hx : Dealing a newer b) (h : Dated a log) : Dated b (newer ++ log) := by
  cases hx with
  | issues ht =>
    obtain ⟨s, hi⟩ := Allocator.take?_issued ht
    obtain ⟨t, _, heq⟩ := Option.map_eq_some_iff.mp ht
    obtain ⟨-, rfl⟩ := Prod.mk.inj heq
    exact h.issued (Allocator.distinct_store h.distinct _ _) hi
  | creates who n => exact h.created who n
  | returns who n generation => exact h.returned who n generation

/-- A reservation whose identity has got a new state since is not of the state that is there. -/
theorem replaced (h : Dated a log) (hlog : log = newer ++ .issued r :: older)
    (hc : .created r.identity g n ∈ newer) :
    ∀ s, a.entries.get? r.identity = some s → s.generation ≠ r.generation := by
  intro s hs
  have hpair := h.fresh
  rw [hlog] at hpair
  have hlt : r.generation < g :=
    (List.pairwise_append.mp hpair).2.2 _ hc _ List.mem_cons_self _ _ _ rfl
  have hle : g ≤ s.generation := by
    refine (h.resident _ s hs).2 g n ?_
    rw [hlog]
    exact List.mem_append_left _ hc
  omega

end Dated

namespace Book

variable {κ : Type} [DecidableEq κ]

theorem dated_run (capacity : Nat) (acts : List (Act κ)) :
    Dated ((opened capacity : Book κ).run acts).allocator
      ((opened capacity : Book κ).recordAll acts) := by
  have hkept := ((opened capacity : Book κ).run_dealings acts).keep (P := Dated) Dated.dealing
    (Dated.opened capacity)
  rwa [List.append_nil] at hkept

theorem giveBack?_of_held {b : Book κ} {k : κ} {r : Reservation} {e : Refusal}
    (hk : b.held.get? k = some r) (he : (b.allocator.giveBack r).1 = .error e) :
    b.giveBack? k = some (.error (e.asFailure r.identity),
      { b with allocator := (b.allocator.giveBack r).2, held := b.held.erase k }) := by
  simp only [giveBack?, hk, Option.map_some, he, Except.mapError]

theorem drop?_of_held {b : Book κ} {k : κ} {r : Reservation} (hk : b.held.get? k = some r) :
    b.drop? k = some
      { b with allocator := (b.allocator.giveBack r).2, held := b.held.erase k } := by
  simp only [drop?, hk, Option.map_some, dropQuietly]

/-- After any acts: whatever was created is of a younger generation than all marks before it; a
reservation whose identity has got a new state since is refused, given back or dropped; a number is
taken back exactly if it can be; and a refusal changes no state and no count. -/
theorem stale_refused (capacity : Nat) (acts : List (Act κ)) :
    let b := (opened capacity : Book κ).run acts
    let log := (opened capacity : Book κ).recordAll acts
    (log.Pairwise fun m older => ∀ who g n, m = .created who g n → older.generation < g) ∧
      (∀ newer older r, log = newer ++ .issued r :: older →
        (∃ g n, .created r.identity g n ∈ newer) →
        (b.allocator.giveBack r).1 = .error
          (if b.allocator.contains r.identity then .stale r.nonce else .untracked r.nonce) ∧
        ∀ k, b.held.get? k = some r →
          (∃ f b', b.giveBack? k = some (.error f, b') ∧ b.allocator.Unmoved b'.allocator) ∧
          ∃ b', b.drop? k = some b' ∧ b.allocator.Unmoved b'.allocator) ∧
      (∀ who n generation, (b.allocator.release who n generation).1 = .ok () ↔
        ∃ s, b.allocator.entries.get? who = some s ∧ (∀ g ∈ generation, g = s.generation) ∧
          n < s.next ∧ n ∉ s.reclaimed) ∧
      ∀ who n generation e, (b.allocator.release who n generation).1 = .error e →
        b.allocator.Unmoved (b.allocator.release who n generation).2 := by
  intro b log
  have hdated : Dated b.allocator log := dated_run capacity acts
  refine ⟨hdated.fresh, fun newer older r hlog hc => ?_, fun who n generation =>
    Allocator.release_isOk, fun who n generation e he =>
    Allocator.unmoved_of_refused hdated.distinct he⟩
  obtain ⟨g, n, hc⟩ := hc
  have hrefused := Allocator.giveBack_of_replaced (hdated.replaced hlog hc)
  have hunmoved : b.allocator.Unmoved (b.allocator.giveBack r).2 :=
    Allocator.unmoved_of_refused hdated.distinct hrefused
  exact ⟨hrefused, fun k hk =>
    ⟨⟨_, _, giveBack?_of_held hk hrefused, hunmoved⟩, ⟨_, drop?_of_held hk, hunmoved⟩⟩⟩

/-- A reservation outlives its state, and the next state issues the same number. -/
def renumbered (x y : Address) : List (Act Nat) :=
  [.reserve 0 x, .reserved 0 7, .allocate 1 y, .allocated 1 0, .reserve 2 x, .reserved 2 7]

theorem stale_refused_renumbered :
    let x := Address.ofNat 1
    let b := (opened 1 : Book Nat).run (renumbered x (Address.ofNat 2))
    b.held.get? 0 = some ⟨x, 7, 1⟩ ∧ b.held.get? 2 = some ⟨x, 7, 3⟩ ∧
      (b.allocator.giveBack ⟨x, 7, 1⟩).1 = .error (.stale 7) ∧
      ∃ b', b.drop? 0 = some b' ∧ b.allocator.Unmoved b'.allocator := by
  intro x b
  have hheld : b.held.get? 0 = some ⟨x, 7, 1⟩ := by decide
  have hlog : (opened 1 : Book Nat).recordAll (renumbered x (Address.ofNat 2)) =
      [.issued ⟨x, 7, 3⟩, .created x 3 7, .issued ⟨Address.ofNat 2, 0, 2⟩,
        .created (Address.ofNat 2) 2 0] ++ .issued ⟨x, 7, 1⟩ :: [.created x 1 7] := by decide
  have hthere : b.allocator.contains x = true := by decide
  have hstale := (stale_refused 1 (renumbered x (Address.ofNat 2))).2.1
  obtain ⟨hrefused, hk⟩ := hstale _ _ _ hlog ⟨3, 7, by decide⟩
  refine ⟨hheld, by decide, ?_, (hk 0 hheld).2⟩
  rw [hrefused, if_pos hthere]

end Book

end Outbox.Nonce
