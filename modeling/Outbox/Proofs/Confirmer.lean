import Mathlib.Data.List.Basic
import Outbox.Confirmer
import Outbox.Proofs.Tracking

namespace Outbox

def Job.submits : Job → List Signed
  | .submit tx => [tx]
  | .track _ => []

def Job.tracks : Job → List Hash
  | .submit _ => []
  | .track hash => [hash]

def Activity.submits : Activity → List Signed
  | .submitting tx => [tx]
  | _ => []

def Activity.checks : Activity → List Hash
  | .checking hash _ rest kept => hash :: (rest ++ kept)
  | _ => []

def Worker.submits (w : Worker) : List Signed := w.activity.submits

def Worker.watches (w : Worker) : List Hash := w.activity.checks ++ w.watching

theorem flatMap_set {α β : Type} {xs : List α} {i : Nat} {x : α} (h : xs[i]? = some x) (f : α → List β)
    (y : α) : ∃ rest, (xs.flatMap f).Perm (f x ++ rest) ∧ ((xs.set i y).flatMap f).Perm (f y ++ rest) := by
  induction xs generalizing i with
  | nil => simp at h
  | cons z xs ih =>
    cases i with
    | zero =>
      obtain rfl : z = x := by simpa using h
      exact ⟨xs.flatMap f, .refl _, .refl _⟩
    | succ i =>
      obtain ⟨rest, hp, hq⟩ := ih (by simpa using h)
      refine ⟨f z ++ rest, ?_, ?_⟩
      · exact (hp.append_left (f z)).trans (List.perm_append_comm_assoc _ _ _)
      · exact (hq.append_left (f z)).trans (List.perm_append_comm_assoc _ _ _)

namespace Confirmer

/-- Transactions that wait in the queue or are being submitted. -/
def unsubmitted (c : Confirmer) : List Signed :=
  c.queue.flatMap Job.submits ++ c.workers.flatMap Worker.submits

def watched (c : Confirmer) : List Hash := c.workers.flatMap Worker.watches

def tracks (c : Confirmer) : List Hash := c.queue.flatMap Job.tracks

/-- The transaction that worker `i` is submitting. -/
def submitting? (c : Confirmer) (i : Nat) : Option Signed :=
  match c.workers[i]? with
  | some ⟨.submitting tx, _⟩ => some tx
  | _ => none

/-- Nothing is taken in any more, and nothing is left to submit. -/
def Closed (c : Confirmer) : Prop := c.stopping = true ∧ c.unsubmitted = []

variable {c c' : Confirmer} {i : Nat} {w w' : Worker}

theorem change_submits (h : c.workers[i]? = some w) (hs : w'.submits = w.submits) :
    (c.change i w').unsubmitted.Perm c.unsubmitted := by
  obtain ⟨rest, hp, hq⟩ := flatMap_set h Worker.submits w'
  simp only [unsubmitted, change]
  refine List.Perm.append_left _ (hq.trans ?_)
  rw [hs]
  exact hp.symm

theorem change_watches (h : c.workers[i]? = some w) {hash : Hash} (hm : hash ∈ (c.change i w').watched) :
    hash ∈ w'.watches ∨ hash ∈ c.watched := by
  obtain ⟨rest, hp, hq⟩ := flatMap_set h Worker.watches w'
  rcases List.mem_append.mp (hq.mem_iff.mp hm) with hw | hr
  · exact .inl hw
  · exact .inr (hp.mem_iff.mpr (List.mem_append_right _ hr))

theorem watches_watched (h : c.workers[i]? = some w) {hash : Hash} (hm : hash ∈ w.watches) :
    hash ∈ c.watched :=
  List.mem_flatMap.mpr ⟨w, List.mem_of_getElem? h, hm⟩

theorem unsubmitted_push (c : Confirmer) (tx : Signed) :
    ({ c with queue := c.queue ++ [.submit tx] } : Confirmer).unsubmitted.Perm
      (tx :: c.unsubmitted) := by
  simp only [unsubmitted]
  rw [List.flatMap_append, List.append_assoc]
  exact List.perm_middle

theorem tracks_push (c : Confirmer) (tx : Signed) :
    ({ c with queue := c.queue ++ [.submit tx] } : Confirmer).tracks = c.tracks := by
  simp [tracks, Job.tracks]

theorem unsubmitted_track (c : Confirmer) (hash : Hash) :
    ({ c with queue := c.queue ++ [.track hash] } : Confirmer).unsubmitted = c.unsubmitted := by
  simp [unsubmitted, Job.submits]

theorem tracks_track (c : Confirmer) (hash : Hash) :
    ({ c with queue := c.queue ++ [.track hash] } : Confirmer).tracks = c.tracks ++ [hash] := by
  simp [tracks, Job.tracks]

/-- A crew does not start to take in again, and goes on reporting. -/
def Keeps (c c' : Confirmer) : Prop :=
  (c.stopping = true → c'.stopping = true) ∧ (c.started = true → c'.started = true)

/-- What one thing that the crew does can come to: what the ledger took, what becomes of the crew,
and what is reported. -/
inductive Handles (c : Confirmer) : List Signed → Confirmer → List Report → Prop where
  /-- Nothing is submitted; watched hashes may be decided or dropped, tracked ones taken up. -/
  | watches (c' : Confirmer) (rs : List Report) (keeps : Keeps c c')
      (jobs : c'.unsubmitted.Perm c.unsubmitted)
      (watched : ∀ h ∈ c'.watched, h ∈ c.watched ∨ h ∈ c.tracks)
      (tracks : ∀ h ∈ c'.tracks, h ∈ c.tracks)
      (reports : ∀ r ∈ rs, r.isTerminal ∧ r.hash ∈ c.watched ∨ ∃ h ∈ c.tracks, r = .sent h) :
      Handles c [] c' rs
  | submits (c' : Confirmer) (tx : Signed) (keeps : Keeps c c')
      (jobs : c.unsubmitted.Perm (tx :: c'.unsubmitted))
      (watched : ∀ h ∈ c'.watched, h = tx.hash ∨ h ∈ c.watched) (tracks : c'.tracks = c.tracks) :
      Handles c [tx] c' [.sent tx.hash]
  | refused (c' : Confirmer) (tx : Signed) (f : Failure) (keeps : Keeps c c')
      (jobs : c.unsubmitted.Perm (tx :: c'.unsubmitted))
      (watched : ∀ h ∈ c'.watched, h ∈ c.watched) (tracks : c'.tracks = c.tracks) :
      Handles c [] c' [.failed tx.hash f]

theorem keeps_refl (c : Confirmer) : Keeps c c := ⟨id, id⟩

theorem handles_refl (c : Confirmer) : Handles c [] c [] :=
  .watches c [] (keeps_refl c) (.refl _) (fun _ h => .inl h) (fun _ h => h) (by simp)

/-- A change of one worker that neither takes up nor drops a submission. -/
theorem handles_change {rs : List Report} (h : c.workers[i]? = some w) (hs : w'.submits = w.submits)
    (hw : ∀ hash ∈ w'.watches, hash ∈ c.watched)
    (hr : ∀ r ∈ rs, r.isTerminal ∧ r.hash ∈ c.watched) : Handles c [] (c.change i w') rs := by
  refine .watches _ rs (keeps_refl c) (change_submits h hs) (fun hash hm => ?_) (fun _ hm => hm)
    fun r hm => .inl (hr r hm)
  rcases change_watches h hm with hin | hin
  · exact .inl (hw hash hin)
  · exact .inl hin

theorem submits_resting (c : Confirmer) (ws : List Hash) :
    (⟨c.resting, ws⟩ : Worker).submits = [] := by
  simp only [Worker.submits, resting]
  split <;> rfl

theorem watches_resting (c : Confirmer) (ws : List Hash) :
    (⟨c.resting, ws⟩ : Worker).watches = ws := by
  simp only [Worker.watches, resting]
  split <;> rfl

/-- A worker that goes on with a pass watches no hash that it did not watch before. -/
theorem handles_proceed {rs : List Report} {rest kept : List Hash} (h : c.workers[i]? = some w)
    (hs : w.submits = []) (hw : ∀ hash ∈ rest ++ kept, hash ∈ c.watched)
    (hr : ∀ r ∈ rs, r.isTerminal ∧ r.hash ∈ c.watched) :
    Handles c [] (c.proceed i rest kept) rs := by
  simp only [proceed]
  split
  · refine handles_change h ?_ ?_ hr
    · rw [hs, submits_resting]
    · rw [watches_resting]
      exact hw
  · refine handles_change h hs.symm ?_ hr
    intro hash hm
    simp only [Worker.watches, Activity.checks, List.append_nil] at hm
    exact hw hash hm

theorem handles_decide {hash : Hash} {check : Ledger.Check} {rest kept watching : List Hash}
    (h : c.workers[i]? = some ⟨.checking hash check rest kept, watching⟩) (v : Except Failure Unit) :
    Handles c [] (c.decide i hash rest kept v).1 (c.decide i hash rest kept v).2 := by
  have hall : ∀ j ∈ hash :: (rest ++ kept), j ∈ c.watched := fun j hj =>
    watches_watched h (List.mem_append_left _ hj)
  have hhash : hash ∈ c.watched := hall hash List.mem_cons_self
  have hrest : ∀ j ∈ rest ++ kept, j ∈ c.watched := fun j hj => hall j (List.mem_cons_of_mem _ hj)
  simp only [decide]
  split
  · refine handles_proceed h rfl hrest fun r hr => ?_
    obtain rfl := List.mem_singleton.mp hr
    exact ⟨rfl, hhash⟩
  · refine handles_proceed h rfl hrest fun r hr => ?_
    obtain rfl := List.mem_singleton.mp hr
    exact ⟨rfl, hhash⟩
  · refine handles_proceed h rfl (fun j hj => ?_) (by simp)
    rw [← List.append_assoc, List.mem_append, List.mem_singleton] at hj
    rcases hj with hj | rfl
    · exact hrest j hj
    · exact hhash

theorem handles_verdict (c : Confirmer) (i : Nat) (v : Except Failure Unit) :
    Handles c [] (c.verdict i v).1 (c.verdict i v).2 := by
  simp only [verdict]
  split
  · next h => exact handles_decide h v
  · exact handles_refl c

theorem handles_tick (c : Confirmer) (i : Nat) : Handles c [] (c.tick i) [] := by
  simp only [tick]
  split
  · next hash rest h =>
    refine handles_proceed h rfl (fun j hj => ?_) (by simp)
    rw [List.append_nil] at hj
    exact watches_watched h hj
  · exact handles_refl c

theorem handles_leave (c : Confirmer) (i : Nat) : Handles c [] (c.leave i) [] := by
  simp only [leave]
  split
  · next watching h =>
    split
    · exact handles_change h rfl (fun j hj => watches_watched h hj) (by simp)
    · exact handles_refl c
  · exact handles_refl c

theorem handles_stop (c : Confirmer) : Handles c [] c.stop [] :=
  .watches c.stop [] ⟨fun _ => rfl, id⟩ (.refl _) (fun _ h => .inl h) (fun _ h => h) (by simp)

theorem handles_start (c : Confirmer) : Handles c [] c.start [] := by
  simp only [start]
  split
  · next hw =>
    have hidle : ∀ (a : Activity), a.submits = [] → a.checks = [] →
        (List.replicate c.crew (⟨a, []⟩ : Worker)).flatMap Worker.submits = [] ∧
          (List.replicate c.crew (⟨a, []⟩ : Worker)).flatMap Worker.watches = [] := by
      intro a hs hc
      refine ⟨List.flatMap_eq_nil_iff.mpr fun w hm => ?_, List.flatMap_eq_nil_iff.mpr fun w hm => ?_⟩
      · rw [(List.mem_replicate.mp hm).2]
        exact hs
      · rw [(List.mem_replicate.mp hm).2]
        simp [Worker.watches, hc]
    have ha : (if c.interval = 0 then Activity.exited else .idle).submits = [] ∧
        (if c.interval = 0 then Activity.exited else .idle).checks = [] := by
      split <;> exact ⟨rfl, rfl⟩
    obtain ⟨hs, hc⟩ := hidle _ ha.1 ha.2
    refine .watches _ [] ⟨id, fun _ => rfl⟩ ?_ (fun j hj => ?_) (fun _ h => h) (by simp)
    · simp only [unsubmitted, hs, hw, List.flatMap_nil]
      exact .refl _
    · simp only [watched, hc] at hj
      simp at hj
  · exact handles_refl c

/-- Worker `i` is idle, and `job` is the first in the queue. -/
def Takes (c : Confirmer) (i : Nat) (job : Job) : Prop :=
  (∃ ws, c.workers[i]? = some ⟨.idle, ws⟩) ∧ c.queue.head? = some job

theorem Takes.tracks {hash : Hash} (h : c.Takes i (.track hash)) : hash ∈ c.tracks :=
  List.mem_flatMap.mpr ⟨_, List.mem_of_head? h.2, List.mem_singleton.mpr rfl⟩

/-- A job that is taken up is in hand instead of in the queue. -/
theorem unsubmitted_take (c : Confirmer) (i : Nat) : (c.take i).1.unsubmitted.Perm c.unsubmitted := by
  simp only [take]
  split
  · next watching job queue hw hq =>
    cases job with
    | submit tx =>
      obtain ⟨rest, hp, hn⟩ := flatMap_set hw Worker.submits ⟨.submitting tx, watching⟩
      show (queue.flatMap Job.submits ++ (c.workers.set i _).flatMap Worker.submits).Perm
        (c.queue.flatMap Job.submits ++ c.workers.flatMap Worker.submits)
      rw [hq]
      refine (hn.append_left _).trans ?_
      refine List.Perm.trans ?_ (hp.append_left _).symm
      exact List.perm_middle
    | track hash =>
      refine (change_submits (c := { c with queue := queue }) hw ?_).trans ?_
      · exact submits_resting _ _
      · simp only [unsubmitted]
        rw [hq]
        exact .refl _
  · exact .refl _

theorem watched_take {hash : Hash} (hm : hash ∈ (c.take i).1.watched) :
    hash ∈ c.watched ∨ c.Takes i (.track hash) := by
  simp only [take] at hm
  split at hm
  · next watching job queue hw hq =>
    cases job with
    | submit tx =>
      rcases change_watches (c := { c with queue := queue }) hw hm with hin | hin
      · exact .inl (watches_watched hw hin)
      · exact .inl hin
    | track g =>
      rcases change_watches (c := { c with queue := queue }) hw hm with hin | hin
      · rw [watches_resting, List.mem_append, List.mem_singleton] at hin
        rcases hin with hin | rfl
        · exact .inl (watches_watched hw hin)
        · exact .inr ⟨⟨_, hw⟩, by rw [hq]; rfl⟩
      · exact .inl hin
  · exact .inl hm

theorem queue_take (c : Confirmer) (i : Nat) : (c.take i).1.queue <:+ c.queue := by
  simp only [take]
  split
  · next watching job queue hw hq =>
    rw [hq]
    cases job <;> exact List.suffix_cons _ _
  · exact List.suffix_rfl

/-- Of a hash to track it is said that it was sent. -/
theorem reports_take {r : Report} (hr : r ∈ (c.take i).2) :
    ∃ hash, r = .sent hash ∧ c.Takes i (.track hash) := by
  simp only [take] at hr
  split at hr
  · next watching job queue hw hq =>
    cases job with
    | submit tx => simp at hr
    | track hash => exact ⟨hash, List.mem_singleton.mp hr, ⟨_, hw⟩, by rw [hq]; rfl⟩
  · simp at hr

theorem keeps_take (c : Confirmer) (i : Nat) : Keeps c (c.take i).1 := by
  simp only [take]
  split
  · next job _ _ _ => cases job <;> exact ⟨id, id⟩
  · exact keeps_refl c

theorem handles_take (c : Confirmer) (i : Nat) : Handles c [] (c.take i).1 (c.take i).2 := by
  refine .watches _ _ (keeps_take c i) (unsubmitted_take c i) (fun j hj => ?_) (fun j hj => ?_)
    fun r hr => ?_
  · exact (watched_take hj).imp_right Takes.tracks
  · obtain ⟨job, hm, hjob⟩ := List.mem_flatMap.mp hj
    exact List.mem_flatMap.mpr ⟨job, (queue_take c i).subset hm, hjob⟩
  · obtain ⟨hash, rfl, ht⟩ := reports_take hr
    exact .inr ⟨hash, ht.tracks, rfl⟩

/-- What the ledger takes when it answers worker `i`. -/
def takenBy (c : Confirmer) (i : Nat) : Except Failure Ledger.Answer → List Signed
  | .ok _ => (c.submitting? i).toList
  | .error _ => []

theorem handles_answer (c : Confirmer) (i : Nat) (a : Except Failure Ledger.Answer) :
    Handles c (c.takenBy i a) (c.answer i a).1 (c.answer i a).2 := by
  have hnone : (∀ tx ws, c.workers[i]? ≠ some ⟨.submitting tx, ws⟩) → c.takenBy i a = [] := by
    intro hw
    cases a with
    | error f => rfl
    | ok x =>
      have hs : c.submitting? i = none := by
        unfold submitting?
        split
        · next tx ws h => exact absurd h (hw tx ws)
        · rfl
      simp [takenBy, hs]
  have jobs : ∀ {tx : Signed} {ws ws' : List Hash}, c.workers[i]? = some ⟨.submitting tx, ws⟩ →
      c.unsubmitted.Perm (tx :: (c.change i ⟨c.resting, ws'⟩).unsubmitted) := by
    intro tx ws ws' hw
    obtain ⟨rest, hp, hn⟩ := flatMap_set hw Worker.submits ⟨c.resting, ws'⟩
    rw [submits_resting] at hn
    refine (hp.append_left _).trans (List.perm_middle.trans ?_)
    exact (hn.symm.append_left _).cons tx
  simp only [answer]
  split
  · next tx watching hw =>
    split
    · next x =>
      have ht : c.takenBy i (.ok x) = [tx] := by simp [takenBy, submitting?, hw]
      rw [ht]
      refine .submits _ tx (keeps_refl c) (jobs hw) (fun j hj => ?_) rfl
      rcases change_watches hw hj with hin | hin
      · rw [watches_resting, List.mem_append, List.mem_singleton] at hin
        rcases hin with hin | rfl
        · exact .inr (watches_watched hw hin)
        · exact .inl rfl
      · exact .inr hin
    · next f =>
      refine .refused _ tx _ (keeps_refl c) (jobs hw) (fun j hj => ?_) rfl
      rcases change_watches hw hj with hin | hin
      · rw [watches_resting] at hin
        exact watches_watched hw hin
      · exact hin
  · next hash check rest kept watching hw =>
    rw [hnone (by rw [hw]; simp)]
    split
    · next next' _ =>
      refine handles_change hw rfl (fun j hj => watches_watched hw hj) (by simp)
    · exact handles_decide hw _
  · next hs hc =>
    rw [hnone (fun tx ws h => hs tx ws h)]
    exact handles_refl c

theorem Handles.keeps {took : List Signed} {rs : List Report} (h : Handles c took c' rs) :
    Keeps c c' := by
  cases h with
  | watches _ _ hk => exact hk
  | submits _ _ hk => exact hk
  | refused _ _ _ hk => exact hk

theorem Handles.closed {took : List Signed} {rs : List Report} (h : Handles c took c' rs)
    (hc : c.Closed) : c'.Closed := by
  refine ⟨h.keeps.1 hc.1, ?_⟩
  cases h with
  | watches _ _ _ hj =>
    rw [hc.2] at hj
    exact hj.eq_nil
  | submits _ tx _ hj =>
    rw [hc.2] at hj
    exact absurd hj.length_eq (by simp)
  | refused _ tx _ _ hj =>
    rw [hc.2] at hj
    exact absurd hj.length_eq (by simp)

/-- What a drained crew reports, of each transaction that was in its queue. -/
def dropReports (txs : List Signed) : List Report :=
  txs.map fun tx => .failed tx.hash (.submission "confirmer stopped" none)

theorem flatMap_dropped (jobs : List Job) :
    jobs.flatMap dropped = dropReports (jobs.flatMap Job.submits) := by
  induction jobs with
  | nil => rfl
  | cons job jobs ih =>
    simp only [dropReports] at ih ⊢
    rw [List.flatMap_cons, List.flatMap_cons, List.map_append, ih]
    cases job <;> rfl

/-- Before all workers have left nothing happens; then everything not submitted is reported. -/
theorem drain_cases (c : Confirmer) (hs : c.started = true) :
    (¬(c.stopping = true ∧ c.allExited = true) ∧ c.drain = (c, [])) ∨
      c.stopping = true ∧ c.allExited = true ∧ c.drain.1.Closed ∧ c.drain.1.started = true ∧
        c.drain.1.watched = [] ∧ c.drain.1.tracks = [] ∧ c.drain.2 = dropReports c.unsubmitted := by
  simp only [drain]
  split
  · next h =>
    have hex : c.workers.flatMap Worker.submits = [] := by
      refine List.flatMap_eq_nil_iff.mpr fun w hw => ?_
      have ha := List.all_eq_true.mp h.2 w hw
      simp only [decide_eq_true_eq] at ha
      simp only [Worker.submits]
      rw [ha]
      rfl
    refine .inr ⟨h.1, h.2, ⟨h.1, rfl⟩, hs, rfl, rfl, ?_⟩
    show c.queue.flatMap dropped = dropReports c.unsubmitted
    simp only [unsubmitted]
    rw [flatMap_dropped, hex, List.append_nil]
  · next h => exact .inl ⟨h, rfl⟩

end Confirmer

end Outbox
