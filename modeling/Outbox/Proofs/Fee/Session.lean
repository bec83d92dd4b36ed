import Mathlib.Data.List.Basic
import Mathlib.Data.List.Nodup
import Outbox.Fee.Market

namespace Outbox.Fee

open Ledger

inductive Deed (κ : Type) where
  | came (k : κ)
  /-- Had the cache at `now` and found a fresh value. -/
  | served (k : κ) (now : Int) (v : Nat)
  /-- Had the cache at `now`, found none, and asked the ledger. -/
  | asked (k : κ) (now : Int) (q : Query)
  /-- The ledger's answer at `done`, and what the caller was told. -/
  | answered (k : κ) (a : Except Failure Answer) (done : Int) (r : Except Failure Nat)
  /-- Went away while its query was out. -/
  | abandoned (k : κ)
  /-- Went away while it waited. -/
  | left (k : κ)

inductive Standing where
  | away
  | waiting
  | asking
deriving DecidableEq

namespace Deed

variable {κ : Type}

def caller : Deed κ → κ
  | came k => k
  | served k _ _ => k
  | asked k _ _ => k
  | answered k _ _ _ => k
  | abandoned k => k
  | left k => k

/-- Where the caller stands before the deed. -/
def finds : Deed κ → Standing
  | came _ => .away
  | served _ _ _ => .waiting
  | asked _ _ _ => .waiting
  | answered _ _ _ _ => .asking
  | abandoned _ => .asking
  | left _ => .waiting

/-- Where the caller stands after the deed. -/
def leaves : Deed κ → Standing
  | came _ => .waiting
  | asked _ _ _ => .asking
  | _ => .away

/-- What the clock said when the caller got the cache. -/
def reading? : Deed κ → Option Int
  | served _ now _ => some now
  | asked _ now _ => some now
  | _ => none

/-- The value that a refresh brought, and when it was complete. -/
def success? : Deed κ → Option (Nat × Int)
  | answered _ _ done (.ok v) => some (v, done)
  | _ => none

def isQuery : Deed κ → Bool
  | asked _ _ _ => true
  | _ => false

/-- The end of a query that brought nothing. -/
def isFutile : Deed κ → Bool
  | answered _ _ _ (.error _) => true
  | abandoned _ => true
  | _ => false

/-- What a get returned, and to whom. -/
def result? : Deed κ → Option (κ × Except Failure Nat)
  | served k _ v => some (k, .ok v)
  | answered k _ _ r => some (k, r)
  | _ => none

end Deed

/-- A cache after refreshes, newest first. -/
def Cache.after (c : Cache) : List (Nat × Int) → Cache
  | [] => c
  | (v, done) :: rest => (c.after rest).refresh v done

section Log

variable {κ : Type}

/-- The refreshes of a log, newest first. -/
def successes (log : List (Deed κ)) : List (Nat × Int) := log.filterMap Deed.success?

theorem successes_cons (d : Deed κ) (log : List (Deed κ)) :
    successes (d :: log) = d.success?.toList ++ successes log := by
  cases h : d.success? with
  | none => simp [successes, h]
  | some p => simp [successes, h]

variable [DecidableEq κ]

/-- Where a caller stands after a log, newest first. -/
def standing (k : κ) : List (Deed κ) → Standing
  | [] => .away
  | d :: older => if d.caller = k then d.leaves else standing k older

/-- In `log`, `d` is the last deed of its caller, and it came after `before`. -/
def Since (d : Deed κ) (before log : List (Deed κ)) : Prop :=
  ∃ between, log = between ++ d :: before ∧ ∀ e ∈ between, e.caller ≠ d.caller

/-- The deed can come after `older`, at a cache that was `c` at first. -/
def Deed.Fits (kind : Kind) (c : Cache) (older : List (Deed κ)) (d : Deed κ) : Prop :=
  standing d.caller older = d.finds ∧
    match d with
    | .served _ now v => (c.after (successes older)).fresh? now = some v
    | .asked _ now q =>
      (c.after (successes older)).fresh? now = none ∧ q = kind.query ∧
        ∀ j, standing j older ≠ .asking
    | .answered _ a _ r => r = kind.ofAnswer a
    | _ => True

def Consistent (kind : Kind) (c : Cache) : List (Deed κ) → Prop
  | [] => True
  | d :: older => d.Fits kind c older ∧ Consistent kind c older

variable {kind : Kind} {c : Cache} {log newer older : List (Deed κ)} {d : Deed κ} {k : κ}

theorem Consistent.of_append (h : Consistent kind c (newer ++ older)) : Consistent kind c older := by
  induction newer with
  | nil => exact h
  | cons d newer ih => exact ih h.2

theorem Consistent.fits (h : Consistent kind c (newer ++ d :: older)) : d.Fits kind c older :=
  (Consistent.of_append h).1

/-- No two queries are out at the same time. -/
theorem Consistent.asking_unique (h : Consistent kind c log) {i j : κ} (hi : standing i log = .asking)
    (hj : standing j log = .asking) : i = j := by
  induction log with
  | nil => simp [standing] at hi
  | cons d older ih =>
    obtain ⟨⟨_, hd⟩, hrest⟩ := h
    simp only [standing] at hi hj
    split at hi
    · next hdi =>
      split at hj
      · next hdj => rw [← hdi, ← hdj]
      · -- only a caller that asks comes to be asking, and none does while another is
        cases d with
        | asked _ _ _ => exact absurd hj (hd.2.2 j)
        | _ => simp [Deed.leaves] at hi
    · split at hj
      · cases d with
        | asked _ _ _ => exact absurd hi (hd.2.2 i)
        | _ => simp [Deed.leaves] at hj
      · exact ih hrest hi hj

/-- Whoever is not away stands where its last deed left it. -/
theorem last_of_standing (h : standing k log ≠ .away) :
    ∃ d before, Since d before log ∧ d.caller = k ∧ d.leaves = standing k log := by
  induction log with
  | nil => exact absurd rfl h
  | cons e older ih =>
    simp only [standing] at h ⊢
    split at h
    · next he =>
      rw [if_pos he]
      exact ⟨e, older, ⟨[], rfl, by simp⟩, he, rfl⟩
    · next he =>
      rw [if_neg he]
      obtain ⟨d, before, ⟨between, hlog, hbetween⟩, hd, hleaves⟩ := ih h
      refine ⟨d, before, ⟨e :: between, by rw [hlog]; rfl, fun x hx => ?_⟩, hd, hleaves⟩
      rcases List.mem_cons.mp hx with rfl | hx
      · rw [hd]
        exact he
      · exact hbetween x hx

theorem came_of_waiting (h : standing k log = .waiting) : ∃ before, Since (.came k) before log := by
  have hhere : standing k log ≠ .away := by simp [h]
  obtain ⟨d, before, hsince, hd, hleaves⟩ := last_of_standing hhere
  rw [h] at hleaves
  cases d with
  | came j =>
    obtain rfl : j = k := hd
    exact ⟨before, hsince⟩
  | _ => simp [Deed.leaves] at hleaves

theorem asked_of_asking (h : standing k log = .asking) :
    ∃ now q before, Since (.asked k now q) before log := by
  have hhere : standing k log ≠ .away := by simp [h]
  obtain ⟨d, before, hsince, hd, hleaves⟩ := last_of_standing hhere
  rw [h] at hleaves
  cases d with
  | asked j now q =>
    obtain rfl : j = k := hd
    exact ⟨now, q, before, hsince⟩
  | _ => simp [Deed.leaves] at hleaves

theorem ttl_after (c : Cache) (refreshes : List (Nat × Int)) : (c.after refreshes).ttl = c.ttl := by
  induction refreshes with
  | nil => rfl
  | cons p rest ih => exact ih

end Log

namespace Shared

variable {κ : Type} {s : Shared κ} {j k : κ}

theorem mem_join : j ∈ (s.join k).line ↔ j ∈ s.line ∨ j = k := by
  simp [join]

/-- Whoever comes goes to the end of the line. -/
theorem head?_join (h : s.line.head? = some j) : (s.join k).line.head? = some j := by
  simp [join, List.head?_append, h]

variable [DecidableEq κ]

theorem hasTurn_iff : s.hasTurn k = true ↔ s.line.head? = some k := by
  simp [hasTurn]

theorem mem_leave : j ∈ (s.leave k).line ↔ j ∈ s.line ∧ j ≠ k := by
  simp [leave]

/-- The holder keeps the cache when another goes away. -/
theorem head?_leave (h : s.line.head? = some j) (hjk : j ≠ k) :
    (s.leave k).line.head? = some j := by
  obtain ⟨rest, hrest⟩ := List.head?_eq_some_iff.mp h
  simp [leave, hrest, hjk]

end Shared

/-- A cache, those who wait for it, and what has happened. -/
structure Session (κ : Type) where
  shared : Shared κ
  /-- Callers whose query is out. -/
  asking : List κ := []
  /-- Newest first. -/
  log : List (Deed κ) := []

namespace Session

inductive Act (κ : Type) where
  | come (k : κ)
  /-- The caller has the cache and looks, the clock saying `now`. -/
  | look (k : κ) (now : Int)
  | answer (k : κ) (a : Except Failure Answer) (now : Int)
  | leave (k : κ)

variable {κ : Type} [DecidableEq κ]

def opened (c : Cache) : Session κ := { shared := { cache := c } }

/-- The session after an act; an act that does not apply changes nothing. -/
def step (kind : Kind) (s : Session κ) : Act κ → Session κ
  | .come k =>
    if k ∈ s.shared.line then s
    else { s with shared := s.shared.join k, log := .came k :: s.log }
  | .look k now =>
    if s.shared.hasTurn k ∧ k ∉ s.asking then
      match s.shared.cache.fresh? now with
      | some v => { s with shared := s.shared.leave k, log := .served k now v :: s.log }
      | none => { s with asking := k :: s.asking, log := .asked k now kind.query :: s.log }
    else s
  | .answer k a now =>
    if k ∈ s.asking then
      { shared :=
          match kind.ofAnswer a with
          | .error _ => s.shared.leave k
          | .ok v => s.shared.finish k v now
        asking := s.asking.erase k
        log := .answered k a now (kind.ofAnswer a) :: s.log }
    else s
  | .leave k =>
    if k ∈ s.asking then
      { shared := s.shared.leave k, asking := s.asking.erase k, log := .abandoned k :: s.log }
    else if k ∈ s.shared.line then
      { s with shared := s.shared.leave k, log := .left k :: s.log }
    else s

def run (kind : Kind) (s : Session κ) (acts : List (Act κ)) : Session κ := acts.foldl (step kind) s

/-- State and log tell the same. -/
structure Sound (kind : Kind) (c : Cache) (s : Session κ) : Prop where
  log : Consistent kind c s.log
  cache : s.shared.cache = c.after (successes s.log)
  nodup : s.shared.line.Nodup
  line : ∀ k, k ∈ s.shared.line ↔ standing k s.log ≠ .away
  asking : ∀ k, k ∈ s.asking ↔ standing k s.log = .asking
  /-- Whoever asks has the cache meanwhile. -/
  holder : ∀ k ∈ s.asking, s.shared.line.head? = some k
  once : s.asking.Nodup
  queries : s.log.countP Deed.isQuery =
    s.log.countP Deed.isFutile + (successes s.log).length + s.asking.length

variable {kind : Kind} {c : Cache} {s s' : Session κ} {k : κ} {d : Deed κ}

/-- A deed changes where its own caller stands. -/
theorem Sound.add (h : Sound kind c s) (hlog : s'.log = d :: s.log) (hd : d.Fits kind c s.log)
    (hcache : s'.shared.cache = c.after (successes (d :: s.log))) (hnodup : s'.shared.line.Nodup)
    (hline : ∀ j, j ∈ s'.shared.line ↔ if d.caller = j then d.leaves ≠ .away else j ∈ s.shared.line)
    (hasking : ∀ j, j ∈ s'.asking ↔ if d.caller = j then d.leaves = .asking else j ∈ s.asking)
    (hholder : ∀ j ∈ s'.asking, s'.shared.line.head? = some j) (honce : s'.asking.Nodup)
    (hqueries : (d :: s.log).countP Deed.isQuery =
      (d :: s.log).countP Deed.isFutile + (successes (d :: s.log)).length + s'.asking.length) :
    Sound kind c s' := by
  refine ⟨?_, ?_, hnodup, fun j => ?_, fun j => ?_, hholder, honce, ?_⟩
  · rw [hlog]
    exact ⟨hd, h.log⟩
  · rw [hlog]
    exact hcache
  · rw [hlog, hline j]
    simp only [standing]
    split
    · rfl
    · exact h.line j
  · rw [hlog, hasking j]
    simp only [standing]
    split
    · rfl
    · exact h.asking j
  · rw [hlog]
    exact hqueries

theorem Sound.opened (c : Cache) : Sound kind c (Session.opened c : Session κ) := by
  refine ⟨trivial, rfl, List.nodup_nil, ?_, ?_, ?_, List.nodup_nil, rfl⟩ <;>
    simp [Session.opened, standing]

theorem Sound.not_asking (h : Sound kind c s) (hk : k ∈ s.shared.line) (ha : k ∉ s.asking) :
    standing k s.log = .waiting := by
  have hline := (h.line k).mp hk
  have hask := mt (h.asking k).mpr ha
  cases hst : standing k s.log with
  | away => exact absurd hst hline
  | waiting => rfl
  | asking => exact absurd hst hask

theorem Sound.come (h : Sound kind c s) (k : κ) : Sound kind c (s.step kind (.come k)) := by
  simp only [step]
  split
  · exact h
  · next hk =>
    have haway : standing k s.log = .away := by
      by_contra hne
      exact hk ((h.line k).mpr hne)
    have hask : k ∉ s.asking := fun ha => by
      rw [(h.asking k).mp ha] at haway
      simp at haway
    refine h.add (d := .came k) rfl ⟨haway, trivial⟩ h.cache ?_ (fun j => ?_) (fun j => ?_) ?_ h.once ?_
    · exact List.nodup_append.mpr ⟨h.nodup, List.nodup_singleton k, fun a ha b hb => by
        rw [List.mem_singleton.mp hb]
        rintro rfl
        exact hk ha⟩
    · rw [Shared.mem_join]
      by_cases hj : k = j <;> simp [Deed.caller, Deed.leaves, hj, eq_comm]
    · by_cases hj : k = j
      · subst hj
        simp [Deed.caller, Deed.leaves, hask]
      · simp [Deed.caller, hj]
    · exact fun j hj => Shared.head?_join (h.holder j hj)
    · have hq := h.queries
      simpa [Deed.isQuery, Deed.isFutile, successes_cons, Deed.success?] using hq

/-- Nobody else asks while a caller that does not ask has the cache. -/
theorem Sound.idle (h : Sound kind c s) (hk : s.shared.line.head? = some k) (ha : k ∉ s.asking) :
    s.asking = [] := by
  refine List.eq_nil_iff_forall_not_mem.mpr fun j hj => ?_
  obtain rfl : k = j := Option.some.inj (hk.symm.trans (h.holder j hj))
  exact ha hj

theorem Sound.look (h : Sound kind c s) (k : κ) (now : Int) :
    Sound kind c (s.step kind (.look k now)) := by
  simp only [step]
  split
  · next hcond =>
    obtain ⟨hturn, ha⟩ := hcond
    rw [Shared.hasTurn_iff] at hturn
    have hmem := List.mem_of_head? hturn
    have hwait := h.not_asking hmem ha
    have hidle := h.idle hturn ha
    have hq := h.queries
    cases hf : s.shared.cache.fresh? now with
    | some v =>
      have hfit : (Deed.served k now v).Fits kind c s.log := ⟨hwait, by rw [← h.cache]; exact hf⟩
      refine h.add (d := .served k now v) rfl hfit h.cache (h.nodup.filter _) (fun j => ?_)
        (fun j => ?_) ?_ h.once ?_
      · rw [Shared.mem_leave]
        by_cases hj : k = j
        · simp [Deed.caller, Deed.leaves, hj]
        · simp [Deed.caller, hj, Ne.symm hj]
      · simp [hidle, Deed.caller, Deed.leaves]
      · simp [hidle]
      · simpa [Deed.isQuery, Deed.isFutile, successes_cons, Deed.success?] using hq
    | none =>
      have hnone : ∀ j, standing j s.log ≠ .asking := fun j hj => by
        have hj' := (h.asking j).mpr hj
        rw [hidle] at hj'
        simp at hj'
      have hfit : (Deed.asked k now kind.query).Fits kind c s.log :=
        ⟨hwait, by rw [← h.cache]; exact hf, rfl, hnone⟩
      refine h.add (d := .asked k now kind.query) rfl hfit h.cache h.nodup (fun j => ?_) (fun j => ?_)
        ?_ ?_ ?_
      · by_cases hj : k = j
        · subst hj
          simp [Deed.caller, Deed.leaves, hmem]
        · simp [Deed.caller, hj]
      · by_cases hj : k = j <;> simp [hidle, Deed.caller, Deed.leaves, hj, eq_comm]
      · intro j hj
        rw [hidle, List.mem_singleton] at hj
        rw [hj]
        exact hturn
      · rw [hidle]
        exact List.nodup_singleton k
      · rw [hidle] at hq ⊢
        simp [List.countP_cons, Deed.isQuery, Deed.isFutile, successes_cons, Deed.success?] at hq ⊢
        omega
  · exact h

/-- One query at a time. -/
theorem Sound.asking_eq (h : Sound kind c s) (ha : k ∈ s.asking) : s.asking = [k] := by
  refine List.perm_singleton.mp
    ((List.perm_ext_iff_of_nodup h.once (List.nodup_singleton k)).mpr fun j => ?_)
  rw [List.mem_singleton]
  constructor
  · exact fun hj => h.log.asking_unique ((h.asking j).mp hj) ((h.asking k).mp ha)
  · rintro rfl
    exact ha

/-- The end of a query takes its caller away. -/
theorem Sound.ended (h : Sound kind c s) (ha : k ∈ s.asking) (hlog : s'.log = d :: s.log)
    (hd : d.Fits kind c s.log) (hcaller : d.caller = k) (haway : d.leaves = .away)
    (hasking : s'.asking = s.asking.erase k) (hline : s'.shared.line = (s.shared.leave k).line)
    (hcache : s'.shared.cache = c.after (successes (d :: s.log))) (hquery : d.isQuery = false)
    (hcount : (d :: s.log).countP Deed.isFutile + (successes (d :: s.log)).length =
      s.log.countP Deed.isFutile + (successes s.log).length + 1) : Sound kind c s' := by
  have hone := h.asking_eq ha
  have hnone : s.asking.erase k = [] := by rw [hone, List.erase_cons_head]
  refine h.add hlog hd hcache ?_ (fun j => ?_) (fun j => ?_) ?_ ?_ ?_
  · rw [hline]
    exact h.nodup.filter _
  · rw [hline, Shared.mem_leave, hcaller, haway]
    by_cases hj : k = j
    · simp [hj]
    · simp [hj, Ne.symm hj]
  · rw [hasking, h.once.mem_erase_iff, hcaller, haway]
    by_cases hj : k = j
    · simp [hj]
    · simp [hj, Ne.symm hj]
  · rw [hasking, hnone]
    simp
  · rw [hasking, hnone]
    exact List.nodup_nil
  · have hq := h.queries
    rw [hone] at hq
    rw [hcount, hasking, hnone, List.countP_cons, hquery, hq]
    simp

theorem Sound.answer (h : Sound kind c s) (k : κ) (a : Except Failure Answer) (now : Int) :
    Sound kind c (s.step kind (.answer k a now)) := by
  simp only [step]
  split
  · next ha =>
    have hfit : (Deed.answered k a now (kind.ofAnswer a)).Fits kind c s.log :=
      ⟨(h.asking k).mp ha, rfl⟩
    cases hr : kind.ofAnswer a with
    | error f =>
      rw [hr] at hfit
      refine h.ended ha (d := .answered k a now (.error f)) rfl hfit rfl rfl rfl rfl h.cache rfl ?_
      simp [List.countP_cons, Deed.isFutile, successes_cons, Deed.success?]
      omega
    | ok v =>
      rw [hr] at hfit
      refine h.ended ha (d := .answered k a now (.ok v)) rfl hfit rfl rfl rfl rfl ?_ rfl ?_
      · simp only [Shared.finish, Shared.leave, successes_cons, Deed.success?, h.cache]
        rfl
      · simp [Deed.isFutile, successes_cons, Deed.success?]
        omega
  · exact h

theorem Sound.leave (h : Sound kind c s) (k : κ) : Sound kind c (s.step kind (.leave k)) := by
  simp only [step]
  split
  · next ha =>
    have hfit : (Deed.abandoned k).Fits kind c s.log := ⟨(h.asking k).mp ha, trivial⟩
    refine h.ended ha (d := .abandoned k) rfl hfit rfl rfl rfl rfl h.cache rfl ?_
    simp [List.countP_cons, Deed.isFutile, successes_cons, Deed.success?]
    omega
  · next ha =>
    split
    · next hmem =>
      have hfit : (Deed.left k).Fits kind c s.log := ⟨h.not_asking hmem ha, trivial⟩
      refine h.add (d := .left k) rfl hfit h.cache (h.nodup.filter _) (fun j => ?_) (fun j => ?_) ?_
        h.once ?_
      · rw [Shared.mem_leave]
        by_cases hj : k = j
        · simp [Deed.caller, Deed.leaves, hj]
        · simp [Deed.caller, hj, Ne.symm hj]
      · by_cases hj : k = j
        · subst hj
          simp [Deed.caller, Deed.leaves, ha]
        · simp [Deed.caller, hj]
      · exact fun j hj => Shared.head?_leave (h.holder j hj) (fun heq => ha (heq ▸ hj))
      · have hq := h.queries
        simpa [Deed.isQuery, Deed.isFutile, successes_cons, Deed.success?] using hq
    · exact h

theorem Sound.step (h : Sound kind c s) (x : Act κ) : Sound kind c (s.step kind x) := by
  cases x with
  | come k => exact h.come k
  | look k now => exact h.look k now
  | answer k a now => exact h.answer k a now
  | leave k => exact h.leave k

theorem Sound.run (h : Sound kind c s) (acts : List (Act κ)) : Sound kind c (s.run kind acts) := by
  induction acts generalizing s with
  | nil => exact h
  | cons x acts ih => exact ih (h.step x)

theorem sound_run (kind : Kind) (c : Cache) (acts : List (Act κ)) :
    Sound kind c ((Session.opened c : Session κ).run kind acts) :=
  (Sound.opened c).run acts

end Session

end Outbox.Fee
