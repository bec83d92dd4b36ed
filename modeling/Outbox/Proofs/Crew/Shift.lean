import Outbox.Proofs.Crew.Sound

namespace Outbox

open Ledger

theorem Failure.asSubmission_submission (f : Failure) :
    ∃ message release, f.asSubmission = .submission message release := by
  cases f <;> exact ⟨_, _, rfl⟩

namespace Confirmer

/-- Everything that can happen to a crew. -/
inductive Act where
  | enqueue (job : Job)
  | take (i : Nat)
  | answer (i : Nat) (a : Except Failure Answer)
  | verdict (i : Nat) (v : Except Failure Unit)
  | tick (i : Nat)
  | leave (i : Nat)
  | stop
  | drain

/-- A job that is refused changes nothing. -/
def act (c : Confirmer) : Act → Confirmer × List Report
  | .enqueue job =>
    match c.push job with
    | .ok c => (c, [])
    | .error _ => (c, [])
  | .take i => c.take i
  | .answer i a => c.answer i a
  | .verdict i v => c.verdict i v
  | .tick i => (c.tick i, [])
  | .leave i => (c.leave i, [])
  | .stop => (c.stop, [])
  | .drain => c.drain

variable {c : Confirmer} {i j : Nat} {tx : Signed}

/-- A job is accepted at the end of the queue, or refused. -/
theorem act_enqueue (c : Confirmer) (job : Job) :
    (c.push job = .ok { c with queue := c.queue ++ [job] } ∧
        c.act (.enqueue job) = ({ c with queue := c.queue ++ [job] }, [])) ∨
      ∃ f, c.push job = .error f ∧ c.act (.enqueue job) = (c, []) := by
  simp only [act, push]
  split
  · exact .inr ⟨_, rfl, rfl⟩
  · split
    · exact .inl ⟨rfl, rfl⟩
    · exact .inr ⟨_, rfl, rfl⟩

theorem checks_resting (c : Confirmer) : c.resting.checks = [] := by
  simp only [resting]
  split <;> rfl

theorem submitting_change {w : Worker} (hs : w.submits = [])
    (h : (c.change j w).submitting? i = some tx) : c.submitting? i = some tx := by
  simp only [change, submitting?] at h ⊢
  split at h
  · next tx' ws hw =>
    rcases getElem?_set_cases hw with ⟨-, rfl⟩ | ⟨-, hw⟩
    · simp [Worker.submits, Activity.submits] at hs
    · rw [hw]
      exact h
  · simp at h

/-- A worker goes on with its pass: what it watches now is what is left of the pass. -/
theorem proceed_eq (c : Confirmer) (i : Nat) (rest kept : List Hash) :
    ∃ w : Worker, c.proceed i rest kept = c.change i w ∧ w.submits = [] ∧
      w.watches = rest ++ kept ∧ (w.activity.checks ≠ [] → w.watching = []) := by
  cases rest with
  | nil =>
    exact ⟨⟨c.resting, kept⟩, rfl, submits_resting c kept, watches_resting c kept,
      fun hn => absurd (checks_resting c) hn⟩
  | cons hash rest =>
    refine ⟨⟨.checking hash .receipt rest kept, []⟩, rfl, rfl, ?_, fun _ => rfl⟩
    simp [Worker.watches, Activity.checks]

theorem submitting_proceed {rest kept : List Hash}
    (h : (c.proceed j rest kept).submitting? i = some tx) : c.submitting? i = some tx := by
  obtain ⟨w, heq, hs, -⟩ := c.proceed_eq j rest kept
  rw [heq] at h
  exact submitting_change hs h

theorem submitting_decide {hash : Hash} {rest kept : List Hash} {v : Except Failure Unit}
    (h : (c.decide j hash rest kept v).1.submitting? i = some tx) : c.submitting? i = some tx := by
  simp only [decide] at h
  split at h <;> exact submitting_proceed h

/-- Only by taking a job does a worker come to offer a transaction to the ledger. -/
theorem offered_by_taking (x : Act) (h : (c.act x).1.submitting? i = some tx) :
    c.submitting? i = some tx ∨ x = .take i := by
  cases x with
  | enqueue job =>
    rcases c.act_enqueue job with ⟨-, hact⟩ | ⟨f, -, hact⟩
    · rw [hact] at h
      exact .inl h
    · rw [hact] at h
      exact .inl h
  | take j =>
    by_cases hij : j = i
    · exact .inr (congrArg Act.take hij)
    · refine .inl ?_
      simp only [act, take] at h
      split at h
      · next ws job queue hw hq =>
        cases job <;>
          simpa only [change, submitting?, List.getElem?_set_ne hij] using h
      · exact h
  | answer j a =>
    refine .inl ?_
    simp only [act, answer] at h
    split at h
    · split at h <;> exact submitting_change (submits_resting _ _) h
    · split at h
      · exact submitting_change rfl h
      · exact submitting_decide h
    · exact h
  | verdict j v =>
    refine .inl ?_
    simp only [act, verdict] at h
    split at h
    · exact submitting_decide h
    · exact h
  | tick j =>
    refine .inl ?_
    simp only [act, tick] at h
    split at h
    · exact submitting_proceed h
    · exact h
  | leave j =>
    refine .inl ?_
    simp only [act, leave] at h
    split at h
    · split at h
      · exact submitting_change rfl h
      · exact h
    · exact h
  | stop => exact .inl h
  | drain =>
    refine .inl ?_
    simp only [act, drain] at h
    split at h
    · simp [submitting?] at h
    · exact h

/-- The answer settles the check of a hash. -/
def settles (c : Confirmer) (i : Nat) (a : Except Failure Answer) : Bool :=
  match c.workers[i]? with
  | some ⟨.checking hash check _ _, _⟩ => (check.answer hash c.depth a).isRight
  | _ => false

end Confirmer

namespace Docket

open Confirmer (Act)

/-- Worker `i` takes a job from the queue; it is seen to offer this to the ledger and to make these
reports. -/
def take (D : Docket) (i : Nat) (job : Job) (offer : Option Signed) (rs : List Report) : Docket :=
  match D.desks[i]? with
  | some d =>
    { D with taken := D.taken + 1 }.turn i (d.receive D.taken job) D.taken
      (.taken (some i) :: (offer.toList.map Mark.submitted ++ rs.map Mark.told))
  | none => D

/-- The ledger answers worker `i`, which submits. -/
def submitted (D : Docket) (i : Nat) (a : Except Failure Answer) (rs : List Report) : Docket :=
  match D.desks[i]? with
  | some ⟨some n, watch⟩ =>
    match a with
    | .ok _ => D.turn i ⟨none, watch ++ [n]⟩ n (.answered none :: rs.map .told)
    | .error f => D.turn i ⟨none, watch⟩ n (.answered (some f) :: rs.map .told)
  | _ => D

/-- The check of the first hash that worker `i` watches is settled: either that is reported, or the
hash is checked again after all others. -/
def settled (D : Docket) (i : Nat) (rs : List Report) : Docket :=
  match D.desks[i]? with
  | some ⟨hand, n :: watch⟩ =>
    match rs with
    | [] => D.turn i ⟨hand, watch ++ [n]⟩ n []
    | rs => D.turn i ⟨hand, watch⟩ n (rs.map .told)
  | _ => D

/-- What the docket notes of a crew. -/
def step (D : Docket) (c : Confirmer) : Act → Docket
  | .enqueue job =>
    match c.push job with
    | .ok _ => { D with jobs := D.jobs ++ [job] }
    | .error _ => D
  | .take i =>
    match c.workers[i]?, c.queue with
    | some ⟨.idle, _⟩, job :: _ => D.take i job ((c.take i).1.submitting? i) (c.take i).2
    | _, _ => D
  | .answer i a =>
    match c.submitting? i with
    | some _ => D.submitted i a (c.answer i a).2
    | none => if c.settles i a then D.settled i (c.answer i a).2 else D
  | .verdict i v =>
    match c.inHand? i with
    | some _ => D.settled i (c.verdict i v).2
    | none => D
  | .drain =>
    if c.stopping ∧ c.allExited then c.queue.foldl (dismiss c.started) { D with desks := [] }
    else D
  | _ => D

end Docket

/-- A crew, the docket that follows it, and all its reports, newest first. -/
structure Shift where
  crew : Confirmer
  docket : Docket := {}
  reports : List Report := []

namespace Shift

open Confirmer (Act)

def step (s : Shift) (x : Act) : Shift where
  crew := (s.crew.act x).1
  docket := s.docket.step s.crew x
  reports := (s.crew.act x).2.reverse ++ s.reports

def run (s : Shift) (acts : List Act) : Shift := acts.foldl step s

/-- The workers come, each to an empty desk. -/
def start (s : Shift) : Shift where
  crew := s.crew.start
  docket := { s.docket with desks := s.crew.start.workers.map fun _ => {} }
  reports := s.reports

/-- A crew that starts to work after some jobs have come in. -/
def opened (c : Confirmer) (early : List Job) : Shift :=
  (run { crew := c } (early.map .enqueue)).start

end Shift

namespace Desk

variable {jobs : List Job} {watch : List Nat} {n : Nat} {ws : List Hash} {hash : Hash}

/-- One more ticket, for one more hash that is watched. -/
theorem map_snoc (h : watch.map (fun n => jobs[n]?.map Job.hash) = ws.map some)
    (hn : jobs[n]?.map Job.hash = some hash) :
    (watch ++ [n]).map (fun n => jobs[n]?.map Job.hash) = (ws ++ [hash]).map some := by
  rw [List.map_append, List.map_append, h, List.map_singleton, List.map_singleton, hn]

theorem nodup_snoc (h : (n :: watch).Nodup) : (⟨none, watch ++ [n]⟩ : Desk).tickets.Nodup := by
  show (watch ++ [n]).Nodup
  exact List.nodup_append_comm.mpr h

theorem fits_resting (h : watch.map (fun n => jobs[n]?.map Job.hash) = ws.map some) (c : Confirmer) :
    (⟨none, watch⟩ : Desk).Fits jobs ⟨c.resting, ws⟩ where
  hand := by
    rw [Confirmer.submits_resting]
    rfl
  watch := by
    rw [Confirmer.watches_resting]
    exact h
  pass := fun hn => absurd (Confirmer.checks_resting c) hn

end Desk

namespace Docket.Sound

variable {D : Docket} {c : Confirmer} {queue : List Job} {workers : List Worker}
  {reports : List Report} {i : Nat} {w w' : Worker}

theorem push (h : D.Sound c.queue c.workers reports) (job : Job) :
    (D.step c (.enqueue job)).Sound (c.act (.enqueue job)).1.queue (c.act (.enqueue job)).1.workers
      ((c.act (.enqueue job)).2.reverse ++ reports) := by
  simp only [Docket.step]
  rcases c.act_enqueue job with ⟨hpush, hact⟩ | ⟨f, hpush, hact⟩
  · rw [hpush, hact]
    exact h.enqueue job
  · rw [hpush, hact]
    exact h

/-- The desk of an idle worker: nothing in hand, and no ticket that is still in the queue. -/
theorem idle_desk (h : D.Sound queue workers reports) {ws : List Hash}
    (hw : workers[i]? = some ⟨.idle, ws⟩) :
    ∃ watch, D.desks[i]? = some ⟨none, watch⟩ ∧ (⟨none, watch⟩ : Desk).Fits D.jobs ⟨.idle, ws⟩ ∧
      (D.taken :: watch).Nodup := by
  obtain ⟨⟨hand, watch⟩, hd, hf⟩ := h.desk? hw
  obtain rfl : hand = none := hand_none hf rfl
  have hfresh : D.taken ∉ watch := fun hm => absurd (h.desk_ticketed hd hm) (Nat.lt_irrefl _)
  exact ⟨watch, hd, hf, List.nodup_cons.mpr ⟨hfresh, h.desk_nodup hd⟩⟩

theorem take_submit {tx : Signed} {ws : List Hash} (h : D.Sound (.submit tx :: queue) workers reports)
    (hw : workers[i]? = some ⟨.idle, ws⟩) :
    (D.take i (.submit tx) (some tx) []).Sound queue (workers.set i ⟨.submitting tx, ws⟩) reports := by
  obtain ⟨hlt, hjob, hqueue⟩ := h.head
  obtain ⟨watch, hd, hf, hnodup⟩ := h.idle_desk hw
  have hstep : D.take i (.submit tx) (some tx) [] = { D with taken := D.taken + 1 }.turn i
      ⟨some D.taken, watch⟩ D.taken [.taken (some i), .submitted tx] := by
    simp only [Docket.take, hd]
    rfl
  have hT : D.Turn i ⟨none, watch⟩ ⟨some D.taken, watch⟩ D.taken (D.taken + 1) :=
    ⟨hd, .inr ⟨rfl, hlt, rfl⟩, fun m s hm => by cases s <;> simp [Desk.Holds, Ne.symm hm], hnodup⟩
  have hfits : (⟨some D.taken, watch⟩ : Desk).Fits D.jobs ⟨.submitting tx, ws⟩ := by
    refine ⟨?_, hf.watch, fun hn => absurd rfl hn⟩
    show [D.jobs[D.taken]?] = [some (.submit tx)]
    rw [hjob]
  rw [hstep, hqueue]
  refine h.turn hT hfits (fun job hj => ?_) (.inr ⟨rfl, _, rfl⟩)
  obtain rfl := Option.some.inj (hjob.symm.trans hj)
  refine ⟨.desk i .submission, at_desk hd rfl, ?_⟩
  rw [h.marks_nil (Nat.le_refl _)]
  exact .submitted tx i

theorem take_track {hash : Hash} {ws : List Hash} (h : D.Sound (.track hash :: queue) workers reports)
    (hw : workers[i]? = some ⟨.idle, ws⟩) (c : Confirmer) :
    (D.take i (.track hash) none [.sent hash]).Sound queue (workers.set i ⟨c.resting, ws ++ [hash]⟩)
      (.sent hash :: reports) := by
  obtain ⟨hlt, hjob, hqueue⟩ := h.head
  obtain ⟨watch, hd, hf, hnodup⟩ := h.idle_desk hw
  have hstep : D.take i (.track hash) none [.sent hash] = { D with taken := D.taken + 1 }.turn i
      ⟨none, watch ++ [D.taken]⟩ D.taken [.taken (some i), .told (.sent hash)] := by
    simp only [Docket.take, hd]
    rfl
  have hT : D.Turn i ⟨none, watch⟩ ⟨none, watch ++ [D.taken]⟩ D.taken (D.taken + 1) :=
    ⟨hd, .inr ⟨rfl, hlt, rfl⟩, fun m s hm => by cases s <;> simp [Desk.Holds, hm],
      Desk.nodup_snoc hnodup⟩
  have hhash : D.jobs[D.taken]?.map Job.hash = some hash := by
    rw [hjob]
    rfl
  rw [hstep, hqueue]
  refine h.turn hT (Desk.fits_resting (Desk.map_snoc hf.watch hhash) c) (fun job hj => ?_) (.inl rfl)
  obtain rfl := Option.some.inj (hjob.symm.trans hj)
  refine ⟨.desk i .watch, at_desk hd (List.mem_append_right _ List.mem_cons_self), ?_⟩
  rw [h.marks_nil (Nat.le_refl _)]
  exact .tracked hash i

theorem take (h : D.Sound c.queue c.workers reports) (i : Nat) :
    (D.step c (.take i)).Sound (c.take i).1.queue (c.take i).1.workers
      ((c.take i).2.reverse ++ reports) := by
  simp only [Docket.step]
  split
  · next ws job queue hw hq =>
    rw [hq] at h
    have hi : i < c.workers.length := (List.getElem?_eq_some_iff.mp hw).1
    cases job with
    | submit tx =>
      have hoffer : (c.take i).1.submitting? i = some tx := by
        simp only [Confirmer.take, hw, hq, Confirmer.change, Confirmer.submitting?]
        rw [List.getElem?_set_self hi]
      rw [hoffer]
      simp only [Confirmer.take, hw, hq]
      exact h.take_submit hw
    | track hash =>
      have hoffer : (c.take i).1.submitting? i = none := by
        simp only [Confirmer.take, hw, hq, Confirmer.change, Confirmer.submitting?]
        rw [List.getElem?_set_self hi]
        simp only [Confirmer.resting]
        cases c.stopping <;> rfl
      rw [hoffer]
      simp only [Confirmer.take, hw, hq]
      exact h.take_track hw c
  · next hno =>
    have htake : c.take i = (c, []) := by
      simp only [Confirmer.take]
    rw [htake]
    exact h

/-- The ledger answered: the transaction is watched from now on, or gone. -/
theorem submitted {tx : Signed} {ws : List Hash} (h : D.Sound queue workers reports)
    (hw : workers[i]? = some ⟨.submitting tx, ws⟩) (c : Confirmer) :
    (∀ x, (D.submitted i (.ok x) [.sent tx.hash]).Sound queue
      (workers.set i ⟨c.resting, ws ++ [tx.hash]⟩) (.sent tx.hash :: reports)) ∧
    ∀ f, (D.submitted i (.error f) [.failed tx.hash f.asSubmission]).Sound queue
      (workers.set i ⟨c.resting, ws⟩) (.failed tx.hash f.asSubmission :: reports) := by
  obtain ⟨⟨hand, watch⟩, hd, hf⟩ := h.desk? hw
  obtain ⟨n, hn, hjob⟩ := mem_hand hf rfl
  obtain rfl : hand = some n := hn
  have hwatch : watch.map (fun n => D.jobs[n]?.map Job.hash) = ws.map some := hf.watch
  have hhash : D.jobs[n]?.map Job.hash = some tx.hash := by
    rw [hjob]
    rfl
  have hnodup : (n :: watch).Nodup := h.desk_nodup hd
  have hmarks : D.marks n = [.taken (some i), .submitted tx] := by
    have hstory := h.story_on hd (s := .submission) rfl hjob
    generalize D.marks n = ms at hstory
    cases hstory with
    | submitted _ _ => rfl
  have hon : n ∈ (⟨some n, watch⟩ : Desk).tickets := List.mem_cons_self
  refine ⟨fun x => ?_, fun f => ?_⟩
  · have hstep : D.submitted i (.ok x) [.sent tx.hash] = { D with taken := D.taken }.turn i
        ⟨none, watch ++ [n]⟩ n [.answered none, .told (.sent tx.hash)] := by
      simp only [Docket.submitted, hd]
      rfl
    have hT : D.Turn i ⟨some n, watch⟩ ⟨none, watch ++ [n]⟩ n D.taken :=
      ⟨hd, .inl ⟨hon, rfl⟩, fun m s hm => by cases s <;> simp [Desk.Holds, hm, Ne.symm hm],
        Desk.nodup_snoc hnodup⟩
    rw [hstep, h.queue]
    refine h.turn hT (Desk.fits_resting (Desk.map_snoc hwatch hhash) c) (fun job hj => ?_) (.inl rfl)
    obtain rfl := Option.some.inj (hjob.symm.trans hj)
    refine ⟨.desk i .watch, at_desk hd (List.mem_append_right _ List.mem_cons_self), ?_⟩
    rw [hmarks]
    exact .sent tx i
  · have hstep : D.submitted i (.error f) [.failed tx.hash f.asSubmission] =
        { D with taken := D.taken }.turn i ⟨none, watch⟩ n
          [.answered (some f), .told (.failed tx.hash f.asSubmission)] := by
      simp only [Docket.submitted, hd]
      rfl
    have hT : D.Turn i ⟨some n, watch⟩ ⟨none, watch⟩ n D.taken :=
      ⟨hd, .inl ⟨hon, rfl⟩, fun m s hm => by cases s <;> simp [Desk.Holds, Ne.symm hm],
        (List.nodup_cons.mp hnodup).2⟩
    rw [hstep, h.queue]
    refine h.turn hT (Desk.fits_resting hwatch c) (fun job hj => ?_) (.inl rfl)
    obtain rfl := Option.some.inj (hjob.symm.trans hj)
    refine ⟨.gone, h.at_gone hd hon (List.nodup_cons.mp hnodup).1, ?_⟩
    obtain ⟨message, release, hf⟩ := f.asSubmission_submission
    rw [hmarks, hf]
    exact .refused tx i f message release hf

/-- Of the hash that a worker watches first either the end is reported, or nothing. -/
theorem settled {hash : Hash} {rest : List Hash} (h : D.Sound queue workers reports)
    (hw : workers[i]? = some w) (hs : w.submits = []) (hws : w.watches = hash :: rest)
    (hs' : w'.submits = []) (hp : w'.activity.checks ≠ [] → w'.watching = []) :
    (w'.watches = rest → ∀ r, r.hash = hash → r.isTerminal = true →
      (D.settled i [r]).Sound queue (workers.set i w') (r :: reports)) ∧
    (w'.watches = rest ++ [hash] → (D.settled i []).Sound queue (workers.set i w') reports) := by
  obtain ⟨⟨hand, tickets⟩, hd, hf⟩ := h.desk? hw
  obtain rfl : hand = none := hand_none hf hs
  obtain ⟨n, watch, hcons, hhash, hrest⟩ := mem_watch hf hws
  obtain rfl : tickets = n :: watch := hcons
  have hnodup : (n :: watch).Nodup := h.desk_nodup hd
  have hon : n ∈ (⟨none, n :: watch⟩ : Desk).tickets := List.mem_cons_self
  have hstory : ∀ {job}, D.jobs[n]? = some job → job.Story False (.desk i .watch) (D.marks n) :=
    fun hj => h.story_on hd (s := .watch) List.mem_cons_self hj
  have hhand : ([] : List Nat).map (fun n => D.jobs[n]?) = w'.submits.map fun tx => some (.submit tx) := by
    rw [hs']
    rfl
  refine ⟨fun hws' r hr hterminal => ?_, fun hws' => ?_⟩
  · have hstep : D.settled i [r] = { D with taken := D.taken }.turn i ⟨none, watch⟩ n [.told r] := by
      simp only [Docket.settled, hd]
      rfl
    have hT : D.Turn i ⟨none, n :: watch⟩ ⟨none, watch⟩ n D.taken :=
      ⟨hd, .inl ⟨hon, rfl⟩, fun m s hm => by cases s <;> simp [Desk.Holds, hm],
        (List.nodup_cons.mp hnodup).2⟩
    rw [hstep, h.queue]
    refine h.turn hT ⟨hhand, hws' ▸ hrest, hp⟩ (fun job hj => ?_) (.inl rfl)
    refine ⟨.gone, h.at_gone hd hon (List.nodup_cons.mp hnodup).1, ?_⟩
    rw [hj] at hhash
    exact .ended job i _ r (hstory hj) (hr.trans (Option.some.inj hhash).symm) hterminal
  · have hstep : D.settled i [] = { D with taken := D.taken }.turn i ⟨none, watch ++ [n]⟩ n [] := by
      simp only [Docket.settled, hd]
    have hT : D.Turn i ⟨none, n :: watch⟩ ⟨none, watch ++ [n]⟩ n D.taken :=
      ⟨hd, .inl ⟨hon, rfl⟩, fun m s hm => by cases s <;> simp [Desk.Holds, hm],
        Desk.nodup_snoc hnodup⟩
    rw [hstep, h.queue]
    refine h.turn hT ⟨hhand, hws' ▸ Desk.map_snoc hrest hhash, hp⟩ (fun job hj => ?_) (.inl rfl)
    refine ⟨.desk i .watch, at_desk hd (List.mem_append_right _ List.mem_cons_self), ?_⟩
    rw [List.append_nil]
    exact hstory hj

/-- A check is settled. -/
theorem decide {hash : Hash} {check : Check} {rest kept ws : List Hash}
    (h : D.Sound c.queue c.workers reports)
    (hw : c.workers[i]? = some ⟨.checking hash check rest kept, ws⟩) (v : Except Failure Unit) :
    (D.settled i (c.decide i hash rest kept v).2).Sound (c.decide i hash rest kept v).1.queue
      (c.decide i hash rest kept v).1.workers ((c.decide i hash rest kept v).2.reverse ++ reports) := by
  obtain ⟨d, hd, hf⟩ := h.desk? hw
  obtain rfl : ws = [] := hf.pass (by simp [Activity.checks])
  have hws : (⟨.checking hash check rest kept, []⟩ : Worker).watches = hash :: (rest ++ kept) :=
    List.append_nil _
  have hends : ∀ r : Report, r.hash = hash → r.isTerminal = true →
      (D.settled i [r]).Sound (c.proceed i rest kept).queue (c.proceed i rest kept).workers
        (r :: reports) := by
    intro r hr hterminal
    obtain ⟨w', heq, hs', hws', hp⟩ := c.proceed_eq i rest kept
    rw [heq]
    exact (h.settled hw rfl hws hs' hp).1 hws' r hr hterminal
  simp only [Confirmer.decide]
  split
  · exact hends (.confirmed hash) rfl rfl
  · next g => exact hends (.failed hash (.reverted g)) rfl rfl
  · -- the hash goes behind all others that are kept, and its ticket does the same
    obtain ⟨w', heq, hs', hws', hp⟩ := c.proceed_eq i rest (kept ++ [hash])
    rw [heq]
    rw [← List.append_assoc] at hws'
    exact (h.settled hw rfl hws hs' hp).2 hws'

theorem verdict (h : D.Sound c.queue c.workers reports) (i : Nat) (v : Except Failure Unit) :
    (D.step c (.verdict i v)).Sound (c.verdict i v).1.queue (c.verdict i v).1.workers
      ((c.verdict i v).2.reverse ++ reports) := by
  cases hw : c.workers[i]? with
  | none =>
    simp only [Docket.step, Confirmer.inHand?, Confirmer.verdict, hw]
    exact h
  | some w =>
    obtain ⟨activity, ws⟩ := w
    cases activity with
    | checking hash check rest kept =>
      simp only [Docket.step, Confirmer.inHand?, Confirmer.verdict, hw]
      exact h.decide hw v
    | _ =>
      simp only [Docket.step, Confirmer.inHand?, Confirmer.verdict, hw]
      exact h

theorem answer (h : D.Sound c.queue c.workers reports) (i : Nat) (a : Except Failure Answer) :
    (D.step c (.answer i a)).Sound (c.answer i a).1.queue (c.answer i a).1.workers
      ((c.answer i a).2.reverse ++ reports) := by
  cases hw : c.workers[i]? with
  | none =>
    simp only [Docket.step, Confirmer.submitting?, Confirmer.settles, Confirmer.answer, hw]
    exact h
  | some w =>
    obtain ⟨activity, ws⟩ := w
    cases activity with
    | submitting tx =>
      simp only [Docket.step, Confirmer.submitting?, Confirmer.answer, hw]
      cases a with
      | ok x => exact (h.submitted hw c).1 x
      | error f => exact (h.submitted hw c).2 f
    | checking hash check rest kept =>
      simp only [Docket.step, Confirmer.submitting?, Confirmer.settles, Confirmer.answer, hw]
      cases check.answer hash c.depth a with
      | inl next =>
        refine h.rework hw fun d hd => ⟨hd.hand, hd.watch, fun _ => ?_⟩
        exact hd.pass (by simp [Activity.checks])
      | inr v => exact h.decide hw v
    | _ =>
      simp only [Docket.step, Confirmer.submitting?, Confirmer.settles, Confirmer.answer, hw]
      exact h

theorem tick (h : D.Sound c.queue c.workers reports) (i : Nat) :
    D.Sound (c.tick i).queue (c.tick i).workers reports := by
  simp only [Confirmer.tick]
  split
  · next hash rest hw =>
    obtain ⟨w', heq, hs', hws', hp⟩ := c.proceed_eq i (hash :: rest) []
    rw [heq]
    refine h.rework hw fun d hd => ⟨?_, ?_, hp⟩
    · rw [hs']
      exact hd.hand
    · rw [hws', List.append_nil]
      exact hd.watch
  · exact h

theorem leave (h : D.Sound c.queue c.workers reports) (i : Nat) :
    D.Sound (c.leave i).queue (c.leave i).workers reports := by
  simp only [Confirmer.leave]
  split
  · next ws hw =>
    split
    · exact h.rework hw fun d hd => ⟨hd.hand, hd.watch, hd.pass⟩
    · exact h
  · exact h

theorem drain (h : D.Sound c.queue c.workers reports) (hs : c.started = true) :
    (D.step c .drain).Sound c.drain.1.queue c.drain.1.workers (c.drain.2.reverse ++ reports) := by
  simp only [Docket.step, Confirmer.drain, hs]
  split
  · next hover =>
    have hexited : ∀ w ∈ c.workers, w.activity = .exited := fun w hw => by
      have hw' := List.all_eq_true.mp hover.2 w hw
      exact of_decide_eq_true hw'
    exact (h.clear hexited).dismissAll
  · exact h

end Docket.Sound

end Outbox
