import Outbox.Proofs.Fee.Session

namespace Outbox.Fee

open Ledger

variable {κ : Type} {kind : Kind} {c : Cache} {log newer older : List (Deed κ)} {d : Deed κ}
  {now done : Int} {v : Nat}

/-- The cache that the gets come to has expired, and the first value that is brought does not. -/
structure Timely (c : Cache) (log : List (Deed κ)) : Prop where
  expired : ∀ {newer d older now}, log = newer ++ d :: older → d.reading? = some now →
    successes older = [] → c.isExpired now = true
  fresh : ∀ {newer d older now v done}, log = newer ++ d :: older → d.reading? = some now →
    (successes older).getLast? = some (v, done) → now < (c.refresh v done).expiresAt

theorem Timely.of_append (h : Timely c (newer ++ older)) : Timely c older := by
  refine ⟨fun hlog => ?_, fun hlog => ?_⟩
  · rw [hlog, ← List.append_assoc] at h
    exact h.expired rfl
  · rw [hlog, ← List.append_assoc] at h
    exact h.fresh rfl

/-- What the clock says when the act happens. -/
def Session.Act.time? : Session.Act κ → Option Int
  | .come _ => none
  | .look _ now => some now
  | .answer _ _ now => some now
  | .leave _ => none

/-- All the times of a log are the same. -/
def Still (now : Int) (log : List (Deed κ)) : Prop :=
  ∀ d ∈ log, (∀ t, d.reading? = some t → t = now) ∧ ∀ v t, d.success? = some (v, t) → t = now

theorem Still.cons {d : Deed κ} (h : Still now log) (hreading : ∀ t, d.reading? = some t → t = now)
    (hsuccess : ∀ v t, d.success? = some (v, t) → t = now) : Still now (d :: log) := by
  intro e he
  rcases List.mem_cons.mp he with rfl | he
  · exact ⟨hreading, hsuccess⟩
  · exact h e he

variable [DecidableEq κ]

structure SingleFlight (kind : Kind) (s : Session κ) : Prop where
  /-- At no time are two queries out. -/
  alone : ∀ {newer older i j}, s.log = newer ++ older → standing i older = .asking →
    standing j older = .asking → i = j
  inFlight : s.asking.length ≤ 1
  /-- Whoever has the cache before the first refresh asks. -/
  asks : ∀ {newer d older now}, s.log = newer ++ d :: older → d.reading? = some now →
    successes older = [] → d = .asked d.caller now kind.query
  /-- Whoever has asked is told what its own query brought, unless it goes away. -/
  told : ∀ {newer e between k now q older},
    s.log = newer ++ e :: (between ++ .asked k now q :: older) → e.caller = k →
    (∀ x ∈ between, x.caller ≠ k) →
      e = .abandoned k ∨ ∃ a done, e = .answered k a done (kind.ofAnswer a)
  /-- Whoever has the cache after the first refresh is served its value. -/
  served : ∀ {newer d older now v done}, s.log = newer ++ d :: older → d.reading? = some now →
    (successes older).getLast? = some (v, done) → d = .served d.caller now v
  /-- Besides the queries that brought nothing there is at most one. -/
  queries : s.log.countP Deed.isFutile ≤ s.log.countP Deed.isQuery ∧
    s.log.countP Deed.isQuery ≤ s.log.countP Deed.isFutile + 1

/-- A caller that comes to look before the first refresh finds nothing. -/
theorem Timely.asks (h : Timely c (newer ++ d :: older)) (hd : d.Fits kind c older)
    (hreading : d.reading? = some now) (hnone : successes older = []) :
    d = .asked d.caller now kind.query := by
  have hexp := h.expired rfl hreading hnone
  rw [Cache.isExpired, Option.isNone_iff_eq_none] at hexp
  cases d with
  | served k t v =>
    obtain rfl : t = now := by simpa [Deed.reading?] using hreading
    have hserved := hd.2
    simp only [hnone, Cache.after] at hserved
    rw [hexp] at hserved
    simp at hserved
  | asked k t q =>
    obtain rfl : t = now := by simpa [Deed.reading?] using hreading
    rw [hd.2.2.1]
    rfl
  | _ => simp [Deed.reading?] at hreading

theorem Timely.served (h : Timely c (newer ++ d :: older)) (hd : d.Fits kind c older)
    (hreading : d.reading? = some now) (hone : successes older = [(v, done)]) :
    d = .served d.caller now v := by
  have hlt := h.fresh rfl hreading (by rw [hone]; rfl)
  have hfresh : (c.after (successes older)).fresh? now = some v := by
    rw [hone]
    exact if_pos hlt
  cases d with
  | served k t w =>
    obtain rfl : t = now := by simpa [Deed.reading?] using hreading
    obtain rfl : w = v := Option.some.inj (hd.2.symm.trans hfresh)
    rfl
  | asked k t q =>
    obtain rfl : t = now := by simpa [Deed.reading?] using hreading
    have hnone := hd.2.1
    rw [hfresh] at hnone
    simp at hnone
  | _ => simp [Deed.reading?] at hreading

/-- There is one refresh at most, and nobody asks after it. -/
theorem Timely.settled (h : Timely c log) (hlog : Consistent kind c log) :
    successes log = [] ∨ ∃ v done, successes log = [(v, done)] ∧ ∀ j, standing j log ≠ .asking := by
  induction log with
  | nil => exact .inl rfl
  | cons d older ih =>
    have hfit := hlog.1
    have hrest : Timely c older := Timely.of_append (show Timely c ([d] ++ older) from h)
    rw [successes_cons]
    rcases ih hrest hlog.2 with hnone | ⟨v, done, hone, hidle⟩
    · -- the first refresh ends the only query that is out
      rw [hnone, List.append_nil]
      cases hs : d.success? with
      | none => exact .inl rfl
      | some p =>
        refine .inr ⟨p.1, p.2, rfl, fun j hj => ?_⟩
        cases d with
        | answered k a t r =>
          simp only [standing] at hj
          split at hj
          · simp [Deed.leaves] at hj
          · next hkj => exact hkj (hlog.2.asking_unique hfit.1 hj)
        | _ => simp [Deed.success?] at hs
    · -- nobody is left to answer, and whoever looks is served
      have hquiet : d.success? = none ∧ d.leaves ≠ .asking := by
        cases d with
        | asked k t q =>
          have hserved := Timely.served (show Timely c ([] ++ _ :: older) from h) hfit rfl hone
          simp at hserved
        | answered k a t r => exact absurd hfit.1 (hidle k)
        | _ => exact ⟨rfl, by simp [Deed.leaves]⟩
      rw [hquiet.1, hone]
      refine .inr ⟨v, done, rfl, fun j hj => ?_⟩
      simp only [standing] at hj
      split at hj
      · exact hquiet.2 hj
      · exact hidle j hj

/-- Deeds of others leave a caller where it stands. -/
theorem standing_skip {k : κ} (h : ∀ x ∈ newer, x.caller ≠ k) :
    standing k (newer ++ older) = standing k older := by
  induction newer with
  | nil => rfl
  | cons d newer ih =>
    rw [List.cons_append, standing, if_neg (h d List.mem_cons_self)]
    exact ih fun x hx => h x (List.mem_cons_of_mem d hx)

theorem Still.step {s : Session κ} {x : Session.Act κ} (h : Still now s.log)
    (hx : ∀ t, x.time? = some t → t = now) : Still now (s.step kind x).log := by
  cases x with
  | come k =>
    simp only [Session.step]
    split
    · exact h
    · exact h.cons (by simp [Deed.reading?]) (by simp [Deed.success?])
  | look k t =>
    obtain rfl : t = now := hx t rfl
    simp only [Session.step]
    split
    · cases s.shared.cache.fresh? t with
      | some v => exact h.cons (by simp [Deed.reading?]) (by simp [Deed.success?])
      | none => exact h.cons (by simp [Deed.reading?]) (by simp [Deed.success?])
    · exact h
  | answer k a t =>
    obtain rfl : t = now := hx t rfl
    simp only [Session.step]
    split
    · refine h.cons (by simp [Deed.reading?]) fun v t' ht => ?_
      cases hr : kind.ofAnswer a <;> simp_all [Deed.success?]
    · exact h
  | leave k =>
    simp only [Session.step]
    split
    · exact h.cons (by simp [Deed.reading?]) (by simp [Deed.success?])
    · split
      · exact h.cons (by simp [Deed.reading?]) (by simp [Deed.success?])
      · exact h

theorem Still.run {s : Session κ} {acts : List (Session.Act κ)} (h : Still now s.log)
    (hacts : ∀ x ∈ acts, ∀ t, x.time? = some t → t = now) : Still now (s.run kind acts).log := by
  induction acts generalizing s with
  | nil => exact h
  | cons x acts ih =>
    exact ih (h.step (hacts x List.mem_cons_self)) fun y hy => hacts y (List.mem_cons_of_mem x hy)

namespace Session

/-- Gets that all happen at one time come in time if values are kept for a second at least. -/
theorem timely_of_still {acts : List (Act κ)} (hexpired : c.isExpired now = true) (httl : 0 < c.ttl)
    (hnow : now < lastSecond) (hacts : ∀ x ∈ acts, ∀ t, x.time? = some t → t = now) :
    Timely c ((opened c).run kind acts).log := by
  have hstill : Still now ((opened c).run kind acts).log := Still.run (by simp [Still, opened]) hacts
  refine ⟨fun {newer d older t} hlog hr _ => ?_, fun {newer d older t v done} hlog hr hlast => ?_⟩
  · obtain rfl := (hstill d (by simp [hlog])).1 t hr
    exact hexpired
  · obtain rfl := (hstill d (by simp [hlog])).1 t hr
    obtain ⟨e, he, hs⟩ := List.mem_filterMap.mp (List.mem_of_getLast? hlast)
    obtain rfl := (hstill e (by simp [hlog, he])).2 v done hs
    simp only [Cache.refresh]
    omega

/-- However gets, answers and departures interleave, one refresh serves all. -/
theorem single_flight (acts : List (Act κ)) (h : Timely c ((opened c).run kind acts).log) :
    SingleFlight kind ((opened c).run kind acts) := by
  have hs := sound_run kind c acts
  generalize (opened c).run kind acts = s at h hs ⊢
  have hasking : s.asking.length ≤ 1 := by
    cases hl : s.asking with
    | nil => exact Nat.zero_le 1
    | cons i rest =>
      have hone := hs.asking_eq (k := i) (by rw [hl]; exact List.mem_cons_self)
      rw [← hl, hone]
      exact Nat.le_refl 1
  refine ⟨fun hlog hi hj => ?_, hasking, fun hlog hr hnone => ?_,
    fun {newer e between k now q older} hlog he hskip => ?_,
    fun {newer d older now v done} hlog hr hlast => ?_, ?_⟩
  · exact (hlog ▸ hs.log).of_append.asking_unique hi hj
  · exact Timely.asks (hlog ▸ h) (hlog ▸ hs.log).fits hr hnone
  · have hfit := (hlog ▸ hs.log).fits
    have hstand : standing e.caller (between ++ .asked k now q :: older) = .asking := by
      rw [he, standing_skip hskip, standing, if_pos (by rfl)]
      rfl
    cases e with
    | answered j a t r =>
      obtain rfl : j = k := he
      exact .inr ⟨a, t, by rw [hfit.2]⟩
    | abandoned j =>
      obtain rfl : j = k := he
      exact .inl rfl
    | _ =>
      have hfinds := hfit.1.symm.trans hstand
      simp [Deed.finds] at hfinds
  · have holder : Timely c older :=
      Timely.of_append (show Timely c ((newer ++ [d]) ++ older) by simpa [hlog] using h)
    rcases holder.settled (hlog ▸ hs.log).of_append.2 with hnone | ⟨w, t, hone, -⟩
    · simp [hnone] at hlast
    · obtain ⟨rfl, rfl⟩ : w = v ∧ t = done := by simpa [hone] using hlast
      exact Timely.served (hlog ▸ h) (hlog ▸ hs.log).fits hr hone
  · have hcount := hs.queries
    rcases h.settled hs.log with hnone | ⟨v, done, hone, hidle⟩
    · rw [hnone, List.length_nil] at hcount
      omega
    · have hnobody : s.asking = [] :=
        List.eq_nil_iff_forall_not_mem.mpr fun j hj => hidle j ((hs.asking j).mp hj)
      rw [hone, hnobody] at hcount
      simp at hcount
      omega

/-- Four gets at once: the first is refused, the second goes away, the third serves the fourth. -/
theorem single_flight_four :
    let c : Cache := { ttl := 5, value := some 7, expiresAt := 5 }
    let acts : List (Act Nat) :=
      [.come 0, .come 1, .come 2, .come 3, .look 0 100, .answer 0 (.error (.internal "down")) 100,
        .look 1 100, .leave 1, .look 2 100, .answer 2 (.ok (.amount 9)) 100, .look 3 100]
    let s := (opened c).run .tip acts
    Timely c s.log ∧ SingleFlight .tip s ∧ s.log.countP Deed.isQuery = 3 ∧
      s.log.filterMap Deed.result? = [(3, .ok 9), (2, .ok 9), (0, .error (.internal "down"))] := by
  intro c acts s
  have hexpired : c.isExpired 100 = true := rfl
  have htimely : Timely c s.log :=
    timely_of_still hexpired (by decide) (by decide) (by simp [acts, Act.time?])
  refine ⟨htimely, single_flight acts htimely, ?_, ?_⟩
  · decide +kernel
  · decide +kernel

end Session

end Outbox.Fee
