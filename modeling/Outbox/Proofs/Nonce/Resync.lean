import Outbox.Proofs.Nonce.Clear
import Outbox.Proofs.Nonce.Replies

namespace Outbox.Nonce

inductive Move (κ : Type) where
  | act (a : Act κ)
  /-- The chain's number of `who` rises to `n`. -/
  | rise (who : Address) (n : Nat)

/-- The states that were lost on the way to `a'`, newest first. -/
def fallen (a a' : Allocator) : List Eviction :=
  a'.evictions.take (a'.evictions.length - a.evictions.length)

structure Resync (κ : Type) where
  history : History κ
  chain : Address → Nat
  /-- What the chain's number was since the identity's last eviction. -/
  lately : Address → List Nat
  /-- What the chain's number was since the caller's query was put. -/
  since : κ → List Nat := fun _ => []
  /-- Numbers that were committed, or allocated for good. -/
  used : List Reservation := []

namespace Resync

variable {κ : Type}

def fresh (capacity : Nat) (chain : Address → Nat) : Resync κ :=
  { history := .fresh capacity, chain := chain, lately := fun who => [chain who] }

def book (t : Resync κ) : Book κ := t.history.book

structure Safe (who : Address) (t : Resync κ) : Prop where
  distinct : t.book.held.Distinct
  afloat : Afloat who t.book.allocator t.history.marks t.used (t.book.held.map Prod.snd)
    (t.lately who)
  current : t.chain who ∈ t.lately who

theorem Safe.fresh (who : Address) (capacity : Nat) (chain : Address → Nat) :
    Safe who (fresh capacity chain : Resync κ) :=
  ⟨List.nodup_nil, ⟨.empty who capacity _, List.nil_subperm⟩, List.mem_singleton_self _⟩

variable [DecidableEq κ]

def step (t : Resync κ) : Move κ → Resync κ
  | .act a =>
    { history := t.history.step a
      chain := t.chain
      lately := fun who =>
        if (fallen t.book.allocator (t.book.act a).allocator).any (·.identity = who) then
          [t.chain who]
        else t.lately who
      since := fun k =>
        match t.book.asks? a with
        | some (j, who) => if k = j then [t.chain who] else t.since k
        | none => t.since k
      used := t.book.uses a ++ t.used }
  | .rise who n =>
    if t.chain who ≤ n then
      { t with
        chain := fun w => if w = who then n else t.chain w
        lately := fun w => if w = who then n :: t.lately w else t.lately w
        since := fun k => if t.book.waiting.get? k = some who then n :: t.since k else t.since k }
    else t

def run (t : Resync κ) (moves : List (Move κ)) : Resync κ := moves.foldl step t

/-- What a move issues. -/
def issues (t : Resync κ) : Move κ → List Reservation
  | .act a => (t.book.marks a).filterMap fun
    | .issued r => some r
    | _ => none
  | .rise _ _ => []

theorem mem_issues {t : Resync κ} {a : Act κ} {r : Reservation} :
    r ∈ t.issues (.act a) ↔ .issued r ∈ t.book.marks a := by
  simp only [issues, List.mem_filterMap]
  constructor
  · rintro ⟨m, hm, hr⟩
    cases m with
    | issued q =>
      obtain rfl : q = r := by simpa using hr
      exact hm
    | _ => simp at hr
  · exact fun h => ⟨_, h, rfl⟩

def issuesAll (t : Resync κ) : List (Move κ) → List Reservation
  | [] => []
  | x :: moves => t.issues x ++ (t.step x).issuesAll moves

/-- Each move of a run is such that `P`. -/
def Along (P : Resync κ → Move κ → Prop) (t : Resync κ) : List (Move κ) → Prop
  | [] => True
  | x :: moves => P t x ∧ Along P (t.step x) moves

def lost (t : Resync κ) : Move κ → List Eviction
  | .act a => fallen t.book.allocator (t.book.act a).allocator
  | .rise _ _ => []

def reply? (t : Resync κ) : Move κ → Option (Reply κ)
  | .act a => t.book.reply? a
  | .rise _ _ => none

/-- Numbers come back only with their reservation, and nobody sets them. -/
def Tagged : Move κ → Prop
  | .act (.reset _ _) => False
  | .act (.release _ _) => False
  | _ => True

/-- What the callers, the ledger and the chain keep to. -/
structure Calm (t : Resync κ) (x : Move κ) : Prop where
  tagged : Tagged x
  /-- A state is lost when all its numbers are used and the chain has them all. -/
  settled : ∀ e ∈ t.lost x, e.reclaimable = 0 ∧ e.next ≤ t.chain e.identity ∧
    ∀ r ∈ t.book.held.map Prod.snd, r.identity ≠ e.identity
  /-- An answer was the chain's number at some time since the query. -/
  current : ∀ q ∈ t.reply? x, q.number ∈ t.since q.caller

/-- Answers about `who` are not older than its last eviction. -/
def Prompt (who : Address) (t : Resync κ) (x : Move κ) : Prop :=
  ∀ q ∈ t.reply? x, q.identity = who → q.number ∈ t.lately who

instance (x : Move κ) : Decidable (Tagged x) := by
  unfold Tagged
  split <;> infer_instance

instance (t : Resync κ) (x : Move κ) : Decidable (Calm t x) :=
  decidable_of_iff
    (Tagged x ∧ (∀ e ∈ t.lost x, e.reclaimable = 0 ∧ e.next ≤ t.chain e.identity ∧
      ∀ r ∈ t.book.held.map Prod.snd, r.identity ≠ e.identity) ∧
      ∀ q ∈ t.reply? x, q.number ∈ t.since q.caller)
    ⟨fun ⟨h, h', h''⟩ => ⟨h, h', h''⟩, fun ⟨h, h', h''⟩ => ⟨h, h', h''⟩⟩

instance (who : Address) (t : Resync κ) (x : Move κ) : Decidable (Prompt who t x) :=
  inferInstanceAs (Decidable (∀ q ∈ t.reply? x, q.identity = who → q.number ∈ t.lately who))

instance decidableAlong (P : Resync κ → Move κ → Prop) [∀ t x, Decidable (P t x)] (t : Resync κ) :
    (moves : List (Move κ)) → Decidable (Along P t moves)
  | [] => .isTrue trivial
  | x :: moves =>
    have := decidableAlong P (t.step x) moves
    inferInstanceAs (Decidable (P t x ∧ Along P (t.step x) moves))

namespace Safe

variable {who w : Address} {t : Resync κ} {b : Book κ} {a : Allocator} {marks : List Mark}
  {used : List Reservation} {lately : List Nat} {r : Reservation} {k : κ} {n : Nat} {x : Act κ}

/-- Whoever holds as `k` loses what `k` held before. -/
theorem hold (hd : b.held.Distinct)
    (h : Afloat who a marks used (r :: b.held.map Prod.snd) lately) (k : κ) :
    Afloat who ({ b with allocator := a }.hold k r).allocator (b.displaced k a ++ marks) used
      (({ b with allocator := a }.hold k r).held.map Prod.snd) lately := by
  unfold Book.hold Book.displaced
  simp only
  cases hk : b.held.get? k with
  | none =>
    show Afloat who a marks used (r :: (b.held.erase k).map Prod.snd) lately
    rw [Keyed.erase_of_get?_none hk]
    exact h
  | some old =>
    have hp : (r :: b.held.map Prod.snd).Perm (old :: r :: (b.held.erase k).map Prod.snd) :=
      ((Book.held_perm hd hk).cons r).trans (List.Perm.swap _ _ _)
    exact h.giveBack hp

theorem evictions_hold (b : Book κ) (k : κ) (r : Reservation) :
    (b.hold k r).allocator.evictions = b.allocator.evictions := by
  unfold Book.hold
  cases b.held.get? k with
  | none => rfl
  | some old => exact Allocator.evictions_release _ _ _ _

/-- What has been known lately is forgotten at a loss, but for the present. -/
theorem lately_act (h : Safe who t) : ∀ v ∈ (t.step (.act x)).lately who, v ∈ t.lately who := by
  intro v hv
  simp only [step] at hv
  split at hv
  · rw [List.mem_singleton.mp hv]
    exact h.current
  · exact hv

theorem current_act (h : Safe who t) : (t.step (.act x)).chain who ∈ (t.step (.act x)).lately who := by
  simp only [step]
  split
  · exact List.mem_singleton_self _
  · exact h.current

/-- An act that issues a number, seen up to the issue. -/
theorem install (h : Safe who t) (w : Address) (n : Nat)
    (hev : (t.book.act x).allocator.evictions = (t.book.allocator.install w n).2.evictions)
    (hlost : ∀ e ∈ t.lost (.act x), e.identity = who → e.next ≤ t.chain who)
    (hn : w = who → t.book.allocator.entries.get? who = none → n ∈ t.lately who) :
    Afloat who (t.book.allocator.install w n).2
      (installMarks t.book.allocator w n ++ t.history.marks) t.used
      ((t.book.allocator.install w n).1 :: t.book.held.map Prod.snd)
      ((t.step (.act x)).lately who) := by
  refine h.afloat.install w n hn h.lately_act fun s hs hgone v hv => ?_
  have hw : who ≠ w := by
    rintro rfl
    rw [(Allocator.install_issued hs n).rest] at hgone
    simp at hgone
  have hnotice := Allocator.install_lost hw hs hgone
  have hmem : ⟨who, s.next, s.reclaimed.length⟩ ∈ t.lost (.act x) := by
    simp only [lost, fallen, hev, hnotice, List.length_cons]
    rw [Nat.add_sub_cancel_left]
    exact List.mem_cons_self
  have hany : (fallen t.book.allocator (t.book.act x).allocator).any (·.identity = who) = true :=
    List.any_eq_true.mpr ⟨_, hmem, by simp⟩
  simp only [step, hany, if_true, List.mem_singleton] at hv
  rw [hv]
  exact hlost _ hmem rfl

/-- The same where the identity has a state already. -/
theorem take {a : Allocator} (h : Safe who t) (ht : t.book.allocator.take? w = some (r, a))
    (hev : (t.book.act x).allocator.evictions = a.evictions)
    (hlost : ∀ e ∈ t.lost (.act x), e.identity = who → e.next ≤ t.chain who) :
    Afloat who a (.issued r :: t.history.marks) t.used (r :: t.book.held.map Prod.snd)
      ((t.step (.act x)).lately who) := by
  have hi := Allocator.install_of_take? (n := 0) ht
  have hm : installMarks t.book.allocator w 0 = [.issued r] := by simp [installMarks, ht]
  obtain ⟨s, hs⟩ := Allocator.take?_issued ht
  have hafloat := h.install w 0 (by rw [hev, hi]) hlost fun hw hnone => by
    rw [← hw, hs.source] at hnone
    simp at hnone
  rw [hm, hi] at hafloat
  exact hafloat

/-- Whoever gives back or drops what it holds returns it, whatever becomes of the rest. -/
theorem displaced (h : Safe who t) {b' : Book κ} (hlately : ∀ v ∈ lately, v ∈ t.lately who)
    (hn : t.book.held.get? k = none → b' = t.book)
    (hs : ∀ r, t.book.held.get? k = some r → b' = { t.book with
      allocator := (t.book.allocator.giveBack r).2, held := t.book.held.erase k }) :
    Afloat who b'.allocator (t.book.displaced k t.book.allocator ++ t.history.marks) t.used
      (b'.held.map Prod.snd) lately := by
  simp only [Book.displaced]
  cases hk : t.book.held.get? k with
  | none =>
    rw [hn hk]
    exact h.afloat.anti hlately
  | some r =>
    rw [hs r hk]
    exact (h.afloat.anti hlately).giveBack (Book.held_perm h.distinct hk)

/-- One act, seen from the allocator and from those who hold its numbers. -/
theorem act_afloat (h : Safe who t) (x : Act κ) (htag : Tagged (.act x))
    (hlost : ∀ e ∈ t.lost (.act x), e.identity = who → e.next ≤ t.chain who)
    (hprompt : Prompt who t (.act x)) :
    Afloat who (t.book.act x).allocator (t.book.marks x ++ t.history.marks)
      (t.book.uses x ++ t.used) ((t.book.act x).held.map Prod.snd)
      ((t.step (.act x)).lately who) := by
  have hinst := fun w n hev hn => h.install (x := x) w n hev hlost hn
  have htake := fun w r a ht hev => h.take (x := x) (w := w) (r := r) (a := a) ht hev hlost
  have hsub := h.lately_act (x := x)
  generalize (t.step (.act x)).lately who = lately at hinst htake hsub ⊢
  have hstay := h.afloat.anti hsub
  cases x with
  | reserve k w =>
    simp only [Book.act, Book.marks, Book.uses, Book.reserve?] at htake ⊢
    cases ht : t.book.allocator.take? w with
    | none => exact hstay
    | some p =>
      obtain ⟨r, a⟩ := p
      have hafloat := htake w r a ht (by rw [ht]; exact evictions_hold _ k r)
      simp only [Option.map_some, List.append_assoc]
      exact hold h.distinct hafloat k
  | allocate k w =>
    simp only [Book.act, Book.marks, Book.uses] at htake ⊢
    cases ht : t.book.allocator.take? w with
    | none => exact hstay
    | some p =>
      obtain ⟨r, a⟩ := p
      exact (htake w r a ht (by rw [ht])).use (List.Perm.refl _)
  | reserved k n =>
    simp only [Book.act, Book.marks, Book.uses] at hinst ⊢
    cases hk : t.book.waiting.get? k with
    | none => exact hstay
    | some w =>
      have hn : w = who → t.book.allocator.entries.get? who = none → n ∈ t.lately who := by
        rintro rfl -
        exact hprompt ⟨k, w, n⟩ (by simp [Resync.reply?, Book.reply?, hk]) rfl
      have hafloat := hinst w n (by rw [hk]; exact evictions_hold _ k _) hn
      simp only [List.append_assoc]
      exact hold (b := t.book.unpark k) h.distinct hafloat k
  | allocated k n =>
    simp only [Book.act, Book.marks, Book.uses] at hinst ⊢
    cases hk : t.book.waiting.get? k with
    | none => exact hstay
    | some w =>
      have hn : w = who → t.book.allocator.entries.get? who = none → n ∈ t.lately who := by
        rintro rfl -
        exact hprompt ⟨k, w, n⟩ (by simp [Resync.reply?, Book.reply?, hk]) rfl
      exact (hinst w n (by rw [hk]) hn).use (List.Perm.refl _)
  | abandon k => exact hstay
  | commit k =>
    simp only [Book.act, Book.marks, Book.uses, Book.commit?]
    cases hk : t.book.held.get? k with
    | none => exact hstay
    | some r => exact hstay.use (Book.held_perm h.distinct hk)
  | giveBack k =>
    refine h.displaced hsub (fun hk => ?_) (fun r hk => ?_)
    · simp [Book.act, Book.giveBack?, hk]
    · simp [Book.act, Book.giveBack?, hk]
  | drop k =>
    refine h.displaced hsub (fun hk => ?_) (fun r hk => ?_)
    · simp [Book.act, Book.drop?, hk]
    · simp [Book.act, Book.drop?, hk, Book.dropQuietly]
  | reset w n => exact htag.elim
  | release w n => exact htag.elim

/-- What one move preserves. -/
theorem step (h : Safe who t) (x : Move κ) (htag : Tagged x)
    (hlost : ∀ e ∈ t.lost x, e.identity = who → e.next ≤ t.chain who)
    (hprompt : Prompt who t x) : Safe who (t.step x) := by
  cases x with
  | act a =>
    have hheld : (t.book.held.map Prod.snd).Subperm (outstanding t.history.marks) :=
      (List.sublist_append_right t.used _).subperm.trans h.afloat.out
    have hsound : t.book.Sound t.history.marks := ⟨h.afloat.clear.balanced, h.distinct, hheld⟩
    have hact := hsound.act a fun w n ha => by
      rw [ha] at htag
      exact htag
    exact ⟨hact.distinct, h.act_afloat a htag hlost hprompt, h.current_act⟩
  | rise w n =>
    simp only [Resync.step]
    split
    · next hle =>
      by_cases hw : who = w
      · subst hw
        refine ⟨h.distinct, ⟨?_, h.afloat.out⟩, ?_⟩
        · simp only [if_true]
          exact h.afloat.clear.rise h.current hle
        · simp
      · refine ⟨h.distinct, ?_, ?_⟩
        · simp only [if_neg hw]
          exact h.afloat
        · simp only [if_neg hw]
          exact h.current
    · exact h

/-- What a move issues is not out. -/
theorem issues_fresh (h : Safe who t) {x : Move κ} (hprompt : Prompt who t x) {q : Reservation}
    (hq : q ∈ t.issues x) (hw : q.identity = who) :
    ∀ r ∈ outstanding t.history.marks, r.identity = who → q.nonce ≠ r.nonce := by
  cases x with
  | rise w n => simp [issues] at hq
  | act a =>
    obtain ⟨w, n, rfl, hanswer⟩ := Book.installed_of_issued (mem_issues.mp hq)
    obtain rfl : w = who := (Allocator.install_identity _ w n).symm.trans hw
    refine fun r hr hrw => h.afloat.clear.ne_install (fun hnone => ?_) hr hrw
    obtain ⟨p, hp, hpw, rfl⟩ := hanswer hnone
    exact hprompt p hp hpw

end Safe

variable {who : Address} {t : Resync κ} {moves : List (Move κ)}

theorem used_step (t : Resync κ) (x : Move κ) : ∀ r ∈ t.used, r ∈ (t.step x).used := by
  intro r hr
  cases x with
  | act a => exact List.mem_append_right _ hr
  | rise w n =>
    simp only [step]
    split <;> exact hr

/-- From a safe state on, nothing that was used is issued again. -/
theorem Safe.run (h : Safe who t) (hcalm : Along Calm t moves) (hprompt : Along (Prompt who) t moves) :
    Safe who (t.run moves) ∧ ∀ q ∈ t.issuesAll moves, q.identity = who →
      ∀ r ∈ t.used, r.identity = who → q.nonce ≠ r.nonce := by
  induction moves generalizing t with
  | nil => exact ⟨h, by simp [issuesAll]⟩
  | cons x moves ih =>
    obtain ⟨hx, hcalm⟩ := hcalm
    obtain ⟨hp, hprompt⟩ := hprompt
    have hlost : ∀ e ∈ t.lost x, e.identity = who → e.next ≤ t.chain who := by
      rintro e he rfl
      exact (hx.settled e he).2.1
    obtain ⟨hsafe, hrest⟩ := ih (h.step x hx.tagged hlost hp) hcalm hprompt
    refine ⟨hsafe, fun q hq hw r hr hrw => ?_⟩
    rcases List.mem_append.mp hq with hq | hq
    · have hout := h.afloat.out.subset (List.mem_append_left _ hr)
      exact h.issues_fresh hp hq hw r hout hrw
    · exact hrest q hq hw r (used_step t x r hr) hrw

theorem along_append {P : Resync κ → Move κ → Prop} {before after : List (Move κ)} :
    Along P t (before ++ after) ↔ Along P t before ∧ Along P (t.run before) after := by
  induction before generalizing t with
  | nil => simp [Along, run]
  | cons x before ih =>
    simp only [List.cons_append, Along, ih, and_assoc]
    rfl

/-- What was answered to those who wait for `who` is not older than its last eviction. -/
structure Asked (who : Address) (t : Resync κ) : Prop where
  since : ∀ k, t.book.waiting.get? k = some who → ∀ n ∈ t.since k, n ∈ t.lately who
  current : t.chain who ∈ t.lately who

/-- Nobody waits for the number of `who` when its state is lost. -/
def Unasked (who : Address) (t : Resync κ) (x : Move κ) : Prop :=
  ∀ e ∈ t.lost x, e.identity = who → ∀ k, t.book.waiting.get? k ≠ some who

theorem Asked.step (h : Asked who t) {x : Move κ} (hx : Unasked who t x) : Asked who (t.step x) := by
  cases x with
  | act a =>
    have hnow : t.chain who ∈ (t.step (.act a)).lately who := by
      simp only [Resync.step]
      split
      · exact List.mem_singleton_self _
      · exact h.current
    refine ⟨fun k hk n hn => ?_, hnow⟩
    rcases Book.waiting_act hk with hasks | ⟨hwaits, hasks⟩
    · have hasked : t.book.asks? a = some (k, who) := hasks
      obtain rfl : n = t.chain who := by simpa [Resync.step, hasked] using hn
      exact hnow
    · have hn' : n ∈ t.since k := by
        simp only [Resync.step] at hn
        cases ha : t.book.asks? a with
        | none => rwa [ha] at hn
        | some p =>
          obtain ⟨j, w⟩ := p
          have hkj : k ≠ j := by
            rintro rfl
            exact hasks w ha
          rw [ha] at hn
          simpa [hkj] using hn
      have hkept : (t.step (.act a)).lately who = t.lately who := by
        refine if_neg fun hany => ?_
        obtain ⟨e, he, hw⟩ := List.any_eq_true.mp hany
        exact hx e he (by simpa using hw) k hwaits
      rw [hkept]
      exact h.since k hwaits n hn'
  | rise w m =>
    simp only [Resync.step]
    split
    · by_cases hw : who = w
      · subst hw
        refine ⟨fun k hk n hn => ?_, by simp⟩
        have hk' : t.book.waiting.get? k = some who := hk
        simp only [hk', if_true, List.mem_cons] at hn ⊢
        exact hn.imp_right (h.since k hk' n)
      · refine ⟨fun k hk n hn => ?_, ?_⟩
        · have hk' : t.book.waiting.get? k = some who := hk
          simp only [hk', Option.some.injEq, if_neg hw] at hn ⊢
          exact h.since k hk' n hn
        · simp only [if_neg hw]
          exact h.current
    · exact h

theorem Asked.fresh (who : Address) (capacity : Nat) (chain : Address → Nat) :
    Asked who (fresh capacity chain : Resync κ) := by
  refine ⟨fun k hk => ?_, List.mem_singleton_self _⟩
  have hnone : (none : Option Address) = some who := hk
  simp at hnone

theorem Asked.prompt (h : Asked who t) (hcalm : Along Calm t moves)
    (hun : Along (Unasked who) t moves) : Along (Prompt who) t moves := by
  induction moves generalizing t with
  | nil => trivial
  | cons x moves ih =>
    refine ⟨fun q hq hw => ?_, ih (h.step hun.1) hcalm.2 hun.2⟩
    have hwaits : t.book.waiting.get? q.caller = some q.identity := by
      cases x with
      | rise w n => simp [reply?] at hq
      | act a =>
        cases a <;> simp [reply?, Book.reply?] at hq
        all_goals
          obtain ⟨w, hk, rfl⟩ := hq
          exact hk
    rw [hw] at hwaits
    exact h.since q.caller hwaits q.number (hcalm.1.current q hq)

/-- Answers are never older than an eviction if no query is out at any. -/
theorem prompt_of_unasked (capacity : Nat) (chain : Address → Nat) (who : Address)
    (moves : List (Move κ)) (hcalm : Along Calm (fresh capacity chain) moves)
    (hun : Along (Unasked who) (fresh capacity chain) moves) :
    Along (Prompt who) (fresh capacity chain) moves :=
  (Asked.fresh who capacity chain).prompt hcalm hun

/-- A number that was committed is not issued again, also after evictions, if the chain had reached
`next` at each of them and no answer is older than the last. The counter is endless: after the last
number of 64 bits a state would start again at zero (`State.release_last`). -/
theorem used_not_reissued (capacity : Nat) (chain : Address → Nat) (who : Address)
    (before after : List (Move κ))
    (hcalm : Along Calm (fresh capacity chain) (before ++ after))
    (hprompt : Along (Prompt who) (fresh capacity chain) (before ++ after)) :
    ∀ q ∈ ((fresh capacity chain).run before).issuesAll after, q.identity = who →
      ∀ r ∈ ((fresh capacity chain).run before).used, r.identity = who → q.nonce ≠ r.nonce := by
  obtain ⟨hc, hc'⟩ := along_append.mp hcalm
  obtain ⟨hp, hp'⟩ := along_append.mp hprompt
  have hsafe := ((Safe.fresh who capacity chain).run hc hp).1
  exact (hsafe.run hc' hp').2

/-- The numbers of `x` on the chain begin at 5. One caller's query is out while another's number is
used, included, and forgotten for the sake of `y`. -/
def lateAnswer (x y : Address) : List (Move Nat) :=
  [.act (.reserve 0 x), .act (.allocate 1 x), .act (.allocated 1 5), .rise x 6,
    .act (.allocate 2 y), .act (.allocated 2 0), .rise y 1]

theorem used_not_reissued_late :
    let x := Address.ofNat 7
    let t : Resync Nat := fresh 1 fun who => if who = x then 5 else 0
    let before := lateAnswer x (Address.ofNat 8)
    Along Calm t (before ++ [.act (.reserved 0 6)]) ∧
      Along (Prompt x) t (before ++ [.act (.reserved 0 6)]) ∧
      (t.run before).issuesAll [.act (.reserved 0 6)] = [⟨x, 6, 3⟩] ∧
      ∀ r ∈ (t.run before).used, r.identity = x → 6 ≠ r.nonce := by
  intro x t before
  have hcalm : Along Calm t (before ++ [.act (.reserved 0 6)]) := by decide
  have hprompt : Along (Prompt x) t (before ++ [.act (.reserved 0 6)]) := by decide
  have hissues : (t.run before).issuesAll [.act (.reserved 0 6)] = [⟨x, 6, 3⟩] := by decide
  refine ⟨hcalm, hprompt, hissues, fun r hr hw => ?_⟩
  have hq : (⟨x, 6, 3⟩ : Reservation) ∈ (t.run before).issuesAll [.act (.reserved 0 6)] := by
    rw [hissues]
    exact List.mem_singleton_self _
  exact used_not_reissued 1 (fun who => if who = x then 5 else 0) x before _ hcalm hprompt _ hq rfl
    r hr hw

/-- The answer that was true when the query was put issues a number that is used. -/
theorem late_answer_reissues :
    let x := Address.ofNat 7
    let t : Resync Nat := fresh 1 fun who => if who = x then 5 else 0
    let before := lateAnswer x (Address.ofNat 8)
    Along Calm t (before ++ [.act (.reserved 0 5)]) ∧
      ∃ q ∈ (t.run before).issuesAll [.act (.reserved 0 5)], ∃ r ∈ (t.run before).used,
        q.identity = x ∧ r.identity = x ∧ q.nonce = r.nonce := by
  decide

end Resync

end Outbox.Nonce
