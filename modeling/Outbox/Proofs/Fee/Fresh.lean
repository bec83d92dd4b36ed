import Outbox.Proofs.Fee.Session
import Outbox.Span

namespace Outbox.Fee

open Ledger

/-- When a value expires that was complete at `done`. -/
def expiry (secs : Nat) (done : Int) : Int := min (done + min (secs : Int) lastSecond) lastSecond

variable {κ : Type}

/-- The latest refresh of the log brought `v`, which has not expired at `now`. -/
def Fresh (secs : Nat) (log : List (Deed κ)) (now : Int) (v : Nat) : Prop :=
  ∃ done rest, successes log = (v, done) :: rest ∧ now < expiry secs done

theorem ofTtl_ttl (secs : Nat) : ((Cache.ofTtl secs).ttl : Int) = min (secs : Int) lastSecond := by
  simp only [Cache.ofTtl, lastSecond]
  omega

theorem fresh?_after {secs : Nat} {log : List (Deed κ)} {now : Int} {v : Nat} :
    ((Cache.ofTtl secs).after (successes log)).fresh? now = some v ↔ Fresh secs log now v := by
  unfold Fresh
  cases successes log with
  | nil =>
    have hnone : (Cache.ofTtl secs).fresh? now = none := ite_self none
    simp [Cache.after, hnone]
  | cons p rest =>
    obtain ⟨w, done⟩ := p
    have hexp : (((Cache.ofTtl secs).after rest).refresh w done).expiresAt = expiry secs done := by
      simp only [Cache.refresh, ttl_after, ofTtl_ttl, expiry]
    simp only [Cache.after, Cache.fresh?, hexp]
    constructor
    · intro h
      split at h
      · next hlt =>
        obtain rfl : w = v := Option.some.inj h
        exact ⟨done, rest, rfl, hlt⟩
      · simp at h
    · rintro ⟨done', rest', heq, hlt⟩
      obtain ⟨⟨rfl, rfl⟩, rfl⟩ : (w = v ∧ done = done') ∧ rest = rest' := by simpa using heq
      rw [if_pos hlt]
      rfl

theorem fresh?_after_none {secs : Nat} {log : List (Deed κ)} {now : Int} :
    ((Cache.ofTtl secs).after (successes log)).fresh? now = none ↔ ∀ v, ¬ Fresh secs log now v := by
  simp only [← fresh?_after, Option.eq_none_iff_forall_ne_some, ne_eq]

variable [DecidableEq κ]

/-- A get has asked: it found nothing fresh, and this was its only query. -/
def AskedOnce (kind : Kind) (secs : Nat) (k : κ) (log : List (Deed κ)) : Prop :=
  ∃ now before start, Since (.asked k now kind.query) before log ∧ Since (.came k) start before ∧
    ∀ v, ¬ Fresh secs before now v

theorem Consistent.askedOnce {kind : Kind} {secs : Nat} {k : κ} {log : List (Deed κ)}
    (h : Consistent kind (Cache.ofTtl secs) log) (hk : standing k log = .asking) :
    AskedOnce kind secs k log := by
  obtain ⟨now, q, before, hsince⟩ := asked_of_asking hk
  obtain ⟨between, hlog, -⟩ := id hsince
  rw [hlog] at h
  obtain ⟨hwait, hnone, rfl, -⟩ := h.fits
  obtain ⟨start, hstart⟩ := came_of_waiting hwait
  exact ⟨now, before, start, hsince, hstart, fresh?_after_none.mp hnone⟩

/-- What a query is answered: a failure as it is, a tip as it is, and of a header the base fee. -/
structure Tells (kind : Kind) (a : Except Failure Answer) (r : Except Failure Nat) : Prop where
  failed : ∀ f, a = .error f → r = .error f
  tip : ∀ n, kind = .tip → a = .ok (.amount n) → r = .ok n
  baseFee : ∀ n fee, a = .ok (.header ⟨n, some fee⟩) → r = .ok fee
  bare : ∀ n, a = .ok (.header ⟨n, none⟩) →
    r = .error (.remoteQuery "latest_header" "header carries no base fee")

theorem tells_ofAnswer (kind : Kind) (a : Except Failure Answer) : Tells kind a (kind.ofAnswer a) := by
  constructor
  · rintro f rfl
    rfl
  · rintro n - rfl
    rfl
  · rintro n fee rfl
    rfl
  · rintro n rfl
    rfl

/-- The get of `k` is over with `d`. The others stand in line as before. -/
structure Ended (s : Session κ) (k : κ) (d : Deed κ) (s' : Session κ) : Prop where
  log : s'.log = d :: s.log
  line : s'.shared.line = s.shared.line.filter (· ≠ k)
  asking : k ∉ s'.asking

/-- The get of `k` has asked and keeps the cache to itself. -/
structure Asks (kind : Kind) (s : Session κ) (k : κ) (now : Int) (s' : Session κ) : Prop where
  log : s'.log = .asked k now kind.query :: s.log
  asking : k ∈ s'.asking
  shared : s'.shared = s.shared

/-- The cache holds `v`, which was read at `done`. -/
structure Holds (secs : Nat) (c : Cache) (v : Nat) (done : Int) : Prop where
  value : c.value = some v
  expiresAt : c.expiresAt = expiry secs done

/-- A get that has the cache to itself: it comes, looks, and is answered if it asked. -/
def Session.alone (kind : Kind) (clock : Clock) (k : κ) (script : Script) : List (Session.Act κ) :=
  [.come k, .look k (clock.now script),
    .answer k (script.ask kind.query).1 (clock.now (script.ask kind.query).2)]

/-- What each get was told, newest first. -/
def Session.told (s : Session κ) : List (κ × Except Failure Nat) := s.log.filterMap Deed.result?

/-- Every get of a session reads through the cache. -/
structure ReadsThrough (kind : Kind) (secs : Nat) (s : Session κ) : Prop where
  /-- A get that is served has asked nothing since it came. -/
  served : ∀ {newer k now v older}, s.log = newer ++ .served k now v :: older →
    Fresh secs older now v ∧ ∃ start, Since (.came k) start older
  /-- A get that asks had asked nothing before. -/
  asked : ∀ {newer k now q older}, s.log = newer ++ .asked k now q :: older →
    q = kind.query ∧ (∀ v, ¬ Fresh secs older now v) ∧ ∃ start, Since (.came k) start older
  /-- A get that asked returns what its query brought, never the old value. -/
  answered : ∀ {newer k a done r older}, s.log = newer ++ .answered k a done r :: older →
    AskedOnce kind secs k older ∧ r = kind.ofAnswer a ∧ Tells kind a r
  abandoned : ∀ {newer k older}, s.log = newer ++ .abandoned k :: older →
    AskedOnce kind secs k older
  /-- Whoever comes goes to the end of the line. -/
  comes : ∀ {k}, k ∉ s.shared.line →
    (s.step kind (.come k)).log = .came k :: s.log ∧
      (s.step kind (.come k)).shared.line = s.shared.line ++ [k]
  /-- A look at a fresh value ends the get with that value. -/
  serves : ∀ {k now v}, s.shared.hasTurn k = true → k ∉ s.asking → Fresh secs s.log now v →
    Ended s k (.served k now v) (s.step kind (.look k now))
  /-- Any other look makes the get ask. -/
  asks : ∀ {k now}, s.shared.hasTurn k = true → k ∉ s.asking → (∀ v, ¬ Fresh secs s.log now v) →
    Asks kind s k now (s.step kind (.look k now))
  /-- The answer ends the get. -/
  answers : ∀ {k}, k ∈ s.asking → ∀ a done,
    Ended s k (.answered k a done (kind.ofAnswer a)) (s.step kind (.answer k a done))
  /-- The value of a successful answer is kept, from then on for the time to live. -/
  stores : ∀ {k}, k ∈ s.asking → ∀ a done v, kind.ofAnswer a = .ok v →
    Holds secs (s.step kind (.answer k a done)).shared.cache v done
  /-- A get may be given up while its query is out. -/
  leaves : ∀ {k}, k ∈ s.asking → Ended s k (.abandoned k) (s.step kind (.leave k))
  /-- A value and its expiry are those of the latest refresh. -/
  value : s.shared.cache.value = (successes s.log).head?.map Prod.fst
  expiresAt : s.shared.cache.expiresAt =
    ((successes s.log).head?.map fun p => expiry secs p.2).getD 0
  /-- Only a refresh that succeeds changes them. -/
  kept : ∀ x, (∀ k a now v, x = .answer k a now → kind.ofAnswer a ≠ .ok v) →
    (s.step kind x).shared.cache = s.shared.cache
  /-- The cache is expired exactly when it holds no fresh value, -/
  expired : ∀ now, s.shared.cache.isExpired now = true ↔ ∀ v, ¬ Fresh secs s.log now v
  /-- and exactly when whoever has its turn would ask. -/
  expired_iff_asks : ∀ {k}, s.shared.hasTurn k = true → k ∉ s.asking → ∀ now,
    s.shared.cache.isExpired now = true ↔ Asks kind s k now (s.step kind (.look k now))
  /-- The same for a get that has the cache to itself from its beginning to its end. -/
  get : ∀ clock script,
    (∃ v, Fresh secs s.log (clock.now script) v ∧
      Fee.get kind clock s.shared.cache script = (.ok v, s.shared.cache, script)) ∨
    ((∀ v, ¬ Fresh secs s.log (clock.now script) v) ∧
      (Fee.get kind clock s.shared.cache script).1 = kind.ofAnswer (script.ask kind.query).1 ∧
      (Fee.get kind clock s.shared.cache script).2.2 = (script.ask kind.query).2 ∧
      (∀ f, kind.ofAnswer (script.ask kind.query).1 = .error f →
        (Fee.get kind clock s.shared.cache script).2.1 = s.shared.cache) ∧
      ∀ v, kind.ofAnswer (script.ask kind.query).1 = .ok v →
        Holds secs (Fee.get kind clock s.shared.cache script).2.1 v
          (clock.now (script.ask kind.query).2))
  /-- Such a get is a session of its own, if nobody is in line. -/
  alone : s.shared.line = [] → s.asking = [] → ∀ clock k script,
    (s.run kind (Session.alone kind clock k script)).shared =
      { s.shared with cache := (Fee.get kind clock s.shared.cache script).2.1 } ∧
    (s.run kind (Session.alone kind clock k script)).asking = [] ∧
    (s.run kind (Session.alone kind clock k script)).told =
      (k, (Fee.get kind clock s.shared.cache script).1) :: s.told
  /-- So are gets that are served one after the other. -/
  inLine : s.shared.line = [] → s.asking = [] → ∀ clock k callers script, ∃ acts,
    (s.run kind acts).shared.cache = (getInLine kind clock callers s.shared.cache script).2.1 ∧
      (s.run kind acts).told =
        ((getInLine kind clock callers s.shared.cache script).1.map fun r => (k, r)).reverse ++ s.told

namespace Session

variable {kind : Kind} {secs : Nat} {s : Session κ} {k : κ}

theorem Sound.fresh? (h : Sound kind (Cache.ofTtl secs) s) {now : Int} {v : Nat} :
    s.shared.cache.fresh? now = some v ↔ Fresh secs s.log now v := by
  rw [h.cache]
  exact fresh?_after

theorem Sound.fresh?_none (h : Sound kind (Cache.ofTtl secs) s) {now : Int} :
    s.shared.cache.fresh? now = none ↔ ∀ v, ¬ Fresh secs s.log now v := by
  rw [h.cache]
  exact fresh?_after_none

theorem step_cache (s : Session κ) (x : Act κ)
    (hx : ∀ k a now v, x = .answer k a now → kind.ofAnswer a ≠ .ok v) :
    (s.step kind x).shared.cache = s.shared.cache := by
  cases x with
  | come k =>
    simp only [step]
    split <;> rfl
  | look k now =>
    simp only [step]
    split
    · cases s.shared.cache.fresh? now <;> rfl
    · rfl
  | answer k a now =>
    simp only [step]
    split
    · cases hr : kind.ofAnswer a with
      | error f => rfl
      | ok v => exact absurd hr (hx k a now v rfl)
    · rfl
  | leave k =>
    simp only [step]
    split
    · rfl
    · split <;> rfl

/-- A look at a fresh value, of whoever has its turn. -/
theorem look_served {now : Int} {v : Nat} (hturn : s.shared.hasTurn k = true) (hk : k ∉ s.asking)
    (hv : s.shared.cache.fresh? now = some v) :
    Ended s k (.served k now v) (s.step kind (.look k now)) := by
  simp only [step, if_pos (And.intro hturn hk), hv]
  exact ⟨rfl, rfl, hk⟩

/-- A look at nothing fresh, of whoever has its turn. -/
theorem look_asks {now : Int} (hturn : s.shared.hasTurn k = true) (hk : k ∉ s.asking)
    (hnone : s.shared.cache.fresh? now = none) : Asks kind s k now (s.step kind (.look k now)) := by
  simp only [step, if_pos (And.intro hturn hk), hnone]
  exact ⟨rfl, List.mem_cons_self, rfl⟩

theorem isExpired_iff_asks (hturn : s.shared.hasTurn k = true) (hk : k ∉ s.asking) (now : Int) :
    s.shared.cache.isExpired now = true ↔ Asks kind s k now (s.step kind (.look k now)) := by
  rw [Cache.isExpired, Option.isNone_iff_eq_none]
  constructor
  · exact look_asks hturn hk
  · intro hasks
    rw [Option.eq_none_iff_forall_ne_some]
    intro v hv
    have hserved : (s.step kind (.look k now)).log = .served k now v :: s.log :=
      (look_served hturn hk hv).log
    rw [hasks.log] at hserved
    simp at hserved

theorem Sound.answer_ended {c : Cache} (h : Sound kind c s) (hk : k ∈ s.asking)
    (a : Except Failure Answer) (done : Int) :
    Ended s k (.answered k a done (kind.ofAnswer a)) (s.step kind (.answer k a done)) := by
  simp only [Session.step, if_pos hk]
  refine ⟨rfl, ?_, h.once.not_mem_erase⟩
  cases kind.ofAnswer a <;> rfl

theorem Sound.leave_ended {c : Cache} (h : Sound kind c s) (hk : k ∈ s.asking) :
    Ended s k (.abandoned k) (s.step kind (.leave k)) := by
  simp only [Session.step, if_pos hk]
  exact ⟨rfl, rfl, h.once.not_mem_erase⟩

theorem Sound.holds_refresh (h : Sound kind (Cache.ofTtl secs) s) (v : Nat) (done : Int) :
    Holds secs (s.shared.cache.refresh v done) v done := by
  refine ⟨rfl, ?_⟩
  simp only [Cache.refresh, expiry]
  rw [h.cache, ttl_after, ofTtl_ttl]

theorem Sound.answer_stores (h : Sound kind (Cache.ofTtl secs) s) (hk : k ∈ s.asking)
    {a : Except Failure Answer} {v : Nat} (hv : kind.ofAnswer a = .ok v) (done : Int) :
    Holds secs (s.step kind (.answer k a done)).shared.cache v done := by
  simp only [Session.step, if_pos hk, hv]
  exact h.holds_refresh v done

theorem get_cases (kind : Kind) (clock : Clock) (c : Cache) (script : Script) :
    (∃ v, c.fresh? (clock.now script) = some v ∧ get kind clock c script = (.ok v, c, script)) ∨
    (c.fresh? (clock.now script) = none ∧ get kind clock c script =
      match kind.ofAnswer (script.ask kind.query).1 with
      | .error f => (.error f, c, (script.ask kind.query).2)
      | .ok v =>
        (.ok v, c.refresh v (clock.now (script.ask kind.query).2), (script.ask kind.query).2)) := by
  unfold get
  cases hf : c.fresh? (clock.now script) with
  | some v => exact .inl ⟨v, rfl, rfl⟩
  | none => exact .inr ⟨rfl, rfl⟩

theorem run_append (s : Session κ) (kind : Kind) (acts more : List (Act κ)) :
    s.run kind (acts ++ more) = (s.run kind acts).run kind more := List.foldl_append

theorem run_alone (hline : s.shared.line = []) (hask : s.asking = []) (kind : Kind) (clock : Clock)
    (k : κ) (script : Script) :
    (s.run kind (alone kind clock k script)).shared =
      { s.shared with cache := (Fee.get kind clock s.shared.cache script).2.1 } ∧
    (s.run kind (alone kind clock k script)).asking = [] ∧
    (s.run kind (alone kind clock k script)).told =
      (k, (Fee.get kind clock s.shared.cache script).1) :: s.told := by
  rcases get_cases kind clock s.shared.cache script with ⟨v, hv, hget⟩ | ⟨hnone, hget⟩
  · rw [hget]
    simp [alone, run, step, hline, hask, Shared.join, Shared.hasTurn, Shared.leave, hv, Deed.result?,
      told, List.filterMap_cons]
  · rw [hget]
    cases hr : kind.ofAnswer (script.ask kind.query).1 <;>
      simp [alone, run, step, hline, hask, Shared.join, Shared.hasTurn, Shared.leave, Shared.finish,
        hnone, hr, Deed.result?, told, List.filterMap_cons]

/-- Gets that are served one after the other are a session. -/
theorem run_inLine (hline : s.shared.line = []) (hask : s.asking = []) (kind : Kind) (clock : Clock)
    (k : κ) (callers : Nat) (script : Script) :
    ∃ acts, (s.run kind acts).shared.cache =
        (getInLine kind clock callers s.shared.cache script).2.1 ∧
      (s.run kind acts).told =
        ((getInLine kind clock callers s.shared.cache script).1.map fun r => (k, r)).reverse ++
          s.told := by
  induction callers generalizing s script with
  | zero => exact ⟨[], rfl, rfl⟩
  | succ callers ih =>
    obtain ⟨hshared, hask', hlog⟩ := run_alone hline hask kind clock k script
    have hline' : (s.run kind (alone kind clock k script)).shared.line = [] := by
      rw [hshared]
      exact hline
    have hcache : (s.run kind (alone kind clock k script)).shared.cache =
        (Fee.get kind clock s.shared.cache script).2.1 := by
      rw [hshared]
    obtain ⟨acts, hc, hl⟩ := ih hline' hask' (Fee.get kind clock s.shared.cache script).2.2
    refine ⟨alone kind clock k script ++ acts, ?_, ?_⟩
    · rw [run_append]
      exact hc.trans (by rw [hcache]; rfl)
    · rw [run_append]
      refine hl.trans ?_
      rw [hlog, hcache]
      simp [getInLine]

/-- Every get of every session is served exactly the latest refresh while it is fresh, and otherwise
what its one query brings. -/
theorem reads_through (kind : Kind) (ttl : Span) (acts : List (Act κ)) :
    ReadsThrough kind ttl.secs ((opened (Cache.ofTtl ttl.secs)).run kind acts) := by
  have h := sound_run kind (Cache.ofTtl ttl.secs) acts
  generalize (opened (Cache.ofTtl ttl.secs)).run kind acts = s at h ⊢
  constructor
  case served =>
    intro newer k now v older hlog
    have hfit := (hlog ▸ h.log).fits
    exact ⟨fresh?_after.mp hfit.2, came_of_waiting hfit.1⟩
  case asked =>
    intro newer k now q older hlog
    have hfit := (hlog ▸ h.log).fits
    exact ⟨hfit.2.2.1, fresh?_after_none.mp hfit.2.1, came_of_waiting hfit.1⟩
  case answered =>
    intro newer k a done r older hlog
    have hcons := hlog ▸ h.log
    obtain ⟨hask, rfl⟩ := hcons.fits
    exact ⟨Consistent.askedOnce hcons.of_append.2 hask, rfl, tells_ofAnswer kind a⟩
  case abandoned =>
    intro newer k older hlog
    have hcons := hlog ▸ h.log
    exact Consistent.askedOnce hcons.of_append.2 hcons.fits.1
  case comes =>
    intro k hk
    have hstep : s.step kind (.come k) =
        { s with shared := s.shared.join k, log := .came k :: s.log } := if_neg hk
    rw [hstep]
    exact ⟨rfl, rfl⟩
  case serves =>
    intro k now v hturn hk hv
    exact look_served hturn hk (h.fresh?.mpr hv)
  case asks =>
    intro k now hturn hk hnone
    exact look_asks hturn hk (h.fresh?_none.mpr hnone)
  case answers =>
    intro k hk a done
    exact h.answer_ended hk a done
  case stores =>
    intro k hk a done v hv
    exact h.answer_stores hk hv done
  case leaves =>
    intro k hk
    exact h.leave_ended hk
  case value =>
    rw [h.cache]
    cases successes s.log <;> rfl
  case expiresAt =>
    rw [h.cache]
    cases successes s.log with
    | nil => rfl
    | cons p rest => simp [Cache.after, Cache.refresh, ttl_after, ofTtl_ttl, expiry]
  case kept => exact s.step_cache
  case expired =>
    intro now
    rw [Cache.isExpired, Option.isNone_iff_eq_none]
    exact h.fresh?_none
  case expired_iff_asks =>
    intro k hturn hk now
    exact isExpired_iff_asks hturn hk now
  case get =>
    intro clock script
    rcases get_cases kind clock s.shared.cache script with ⟨v, hv, hget⟩ | ⟨hnone, hget⟩
    · exact .inl ⟨v, h.fresh?.mp hv, hget⟩
    · refine .inr ⟨h.fresh?_none.mp hnone, ?_⟩
      rw [hget]
      cases kind.ofAnswer (script.ask kind.query).1 with
      | error f => simp
      | ok v => simpa using h.holds_refresh v (clock.now (script.ask kind.query).2)
  case alone =>
    intro hline hask clock k script
    exact run_alone hline hask kind clock k script
  case inLine =>
    intro hline hask clock k callers script
    exact run_inLine hline hask kind clock k callers script

/-- Caller 1 stands behind caller 0 while the base fee is read; caller 2 comes when it has expired and
gets a header without one; for caller 3 the clock has gone back, and caller 4 does not wait for its
answer. -/
def fiveCallers : List (Act Nat) :=
  [.come 0, .come 1, .look 0 5, .answer 0 (.ok (.header ⟨1, some 7⟩)) 6, .look 1 7,
    .come 2, .look 2 8, .answer 2 (.ok (.header ⟨2, none⟩)) 9,
    .come 3, .look 3 7, .come 4, .look 4 8, .leave 4]

theorem reads_through_five :
    let s := (opened (Cache.ofTtl 2)).run .baseFee fiveCallers
    let came := s.run .baseFee [.come 5]
    let asking := s.run .baseFee [.come 5, .look 5 8]
    let answered := asking.step .baseFee (.answer 5 (.ok (.header ⟨3, some 9⟩)) 9)
    s.told = [(3, .ok 7), (2, .error (.remoteQuery "latest_header" "header carries no base fee")),
      (1, .ok 7), (0, .ok 7)] ∧
    s.log.head? = some (.abandoned 4) ∧
    Holds 2 s.shared.cache 7 6 ∧
    s.shared.cache.isExpired 7 = false ∧
    Asks .baseFee came 5 8 asking ∧
    Ended asking 5 (.answered 5 (.ok (.header ⟨3, some 9⟩)) 9 (.ok 9)) answered ∧
    Holds 2 answered.shared.cache 9 9 := by
  intro s came asking answered
  have hcame : ReadsThrough .baseFee 2 came := by
    have h := reads_through .baseFee (.ofSecs 2) (fiveCallers ++ [.come 5])
    rwa [run_append] at h
  have hasking : ReadsThrough .baseFee 2 asking := by
    have h := reads_through .baseFee (.ofSecs 2) (fiveCallers ++ [.come 5, .look 5 8])
    rwa [run_append] at h
  have hexpired : came.shared.cache.isExpired 8 = true := by decide
  have hin : 5 ∈ asking.asking := by decide
  refine ⟨by decide, rfl, ⟨by decide, by decide⟩, by decide, ?_, ?_, ?_⟩
  · exact hcame.asks (by decide) (by decide) ((hcame.expired 8).mp hexpired)
  · exact hasking.answers hin _ 9
  · exact hasking.stores hin _ 9 9 rfl

end Session

end Outbox.Fee
