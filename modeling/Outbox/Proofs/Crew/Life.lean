import Outbox.Proofs.Crew.Shift

namespace Outbox

namespace Shift

open Confirmer (Act)

variable {s : Shift}

/-- The docket is true, and reports are wanted. -/
structure Sound (s : Shift) : Prop where
  docket : s.docket.Sound s.crew.queue s.crew.workers s.reports
  started : s.crew.started = true

theorem keeps_act (c : Confirmer) (x : Act) : Confirmer.Keeps c (c.act x).1 := by
  cases x with
  | enqueue job =>
    rcases c.act_enqueue job with ⟨-, hact⟩ | ⟨f, -, hact⟩
    · rw [hact]
      exact ⟨id, id⟩
    · rw [hact]
      exact ⟨id, id⟩
  | take i => exact (c.handles_take i).keeps
  | answer i a => exact (c.handles_answer i a).keeps
  | verdict i v => exact (c.handles_verdict i v).keeps
  | tick i => exact (c.handles_tick i).keeps
  | leave i => exact (c.handles_leave i).keeps
  | stop => exact c.handles_stop.keeps
  | drain =>
    simp only [Confirmer.act, Confirmer.drain]
    split <;> exact ⟨id, id⟩

theorem Sound.step (h : s.Sound) (x : Act) : (s.step x).Sound := by
  have hd := h.docket
  refine ⟨?_, (keeps_act s.crew x).2 h.started⟩
  cases x with
  | enqueue job => exact hd.push job
  | take i => exact hd.take i
  | answer i a => exact hd.answer i a
  | verdict i v => exact hd.verdict i v
  | tick i => exact hd.tick i
  | leave i => exact hd.leave i
  | stop => exact hd
  | drain => exact hd.drain h.started

theorem Sound.run (h : s.Sound) (acts : List Act) : (s.run acts).Sound := by
  induction acts generalizing s with
  | nil => exact h
  | cons x acts ih => exact ih (h.step x)

/-- Nobody works yet, and jobs only come in. -/
structure Waiting (s : Shift) : Prop where
  docket : s.docket.Sound s.crew.queue [] s.reports
  workers : s.crew.workers = []
  taken : s.docket.taken = 0

theorem Waiting.enqueue (h : s.Waiting) (job : Job) : (s.step (.enqueue job)).Waiting := by
  have hd := h.docket
  rw [← h.workers] at hd
  have hpush := hd.push job
  have hworkers : (s.crew.act (.enqueue job)).1.workers = [] := by
    rcases s.crew.act_enqueue job with ⟨-, hact⟩ | ⟨f, -, hact⟩
    · rw [hact]
      exact h.workers
    · rw [hact]
      exact h.workers
  have htaken : (s.docket.step s.crew (.enqueue job)).taken = 0 := by
    simp only [Docket.step]
    split <;> exact h.taken
  rw [hworkers] at hpush
  exact ⟨hpush, hworkers, htaken⟩

/-- At the start nobody holds anything, so every job that came in is still in the queue. -/
theorem Waiting.start (h : s.Waiting) : s.start.Sound := by
  obtain ⟨a, ha, hstart⟩ : ∃ a : Activity, (a = .exited ∨ a = .idle) ∧ s.crew.start =
      { s.crew with started := true, workers := List.replicate s.crew.crew ⟨a, []⟩ } := by
    refine ⟨if s.crew.interval = 0 then .exited else .idle, ?_, ?_⟩
    · split
      · exact .inl rfl
      · exact .inr rfl
    · simp only [Confirmer.start, h.workers]
  have hempty : ∀ d ∈ s.start.docket.desks, d = {} := by
    intro d hd
    obtain ⟨w, -, rfl⟩ := List.mem_map.mp hd
    rfl
  have htickets : s.start.docket.tickets = [] :=
    List.flatMap_eq_nil_iff.mpr fun d hd => by rw [hempty d hd]; rfl
  have hworkers : s.start.crew.workers = List.replicate s.crew.crew ⟨a, []⟩ := by
    rw [Shift.start, hstart]
  have hqueue : s.start.crew.queue = s.crew.queue := by
    rw [Shift.start, hstart]
  have hstarted : s.start.crew.started = true := by
    rw [Shift.start, hstart]
  refine ⟨?_, hstarted⟩
  rw [hqueue]
  refine
    { h.docket with
      size := List.length_map _
      fits := fun i d w hd hw => ?fits
      nodup := htickets ▸ List.nodup_nil
      ticketed := fun n hn => absurd (htickets ▸ hn) List.not_mem_nil
      stories := fun n job hj => ⟨.queued, .queued (h.taken ▸ Nat.zero_le n), ?story⟩ }
  case fits =>
    obtain rfl := hempty d (List.mem_of_getElem? hd)
    rw [hworkers] at hw
    obtain rfl := (List.mem_replicate.mp (List.mem_of_getElem? hw)).2
    rcases ha with rfl | rfl <;> exact ⟨rfl, rfl, fun _ => rfl⟩
  case story =>
    show job.Story _ .queued (s.docket.marks n)
    rw [h.docket.marks_nil (h.taken ▸ Nat.zero_le n)]
    exact .queued job

theorem opened_sound (size crew interval : Nat) (depth : Option Nat) (chainId : Nat)
    (early : List Job) : (opened (.ofSettings size crew interval depth chainId) early).Sound := by
  have hrun : ∀ (jobs : List Job) {s : Shift}, s.Waiting → (s.run (jobs.map .enqueue)).Waiting := by
    intro jobs
    induction jobs with
    | nil => exact fun h => h
    | cons job jobs ih => exact fun h => ih (h.enqueue job)
  exact (hrun early ⟨Docket.fresh_sound, rfl, rfl⟩).start

theorem dismissAll_keeps (wanted : Bool) (queue : List Job) (D : Docket) :
    (queue.foldl (Docket.dismiss wanted) D).desks = D.desks ∧
      (queue.foldl (Docket.dismiss wanted) D).jobs = D.jobs := by
  induction queue generalizing D with
  | nil => exact ⟨rfl, rfl⟩
  | cons job queue ih => exact ih (D.dismiss wanted job)

/-- The stop has come to its end. -/
structure Over (s : Shift) : Prop where
  stopping : s.crew.stopping = true
  queue : s.crew.queue = []
  workers : s.crew.workers = []
  desks : s.docket.desks = []

theorem Over.push (h : s.Over) (job : Job) :
    s.crew.push job = .error (.enqueue "confirmer stopped" none) := by
  simp only [Confirmer.push, h.stopping, if_true]

/-- Everybody has gone, so nothing that happens finds anybody who could do anything. -/
theorem Over.step (h : s.Over) (x : Act) :
    (s.step x).docket = s.docket ∧ (s.step x).reports = s.reports ∧ (s.step x).Over := by
  have hnobody : ∀ i : Nat, s.crew.workers[i]? = none := fun i => by rw [h.workers]; rfl
  have hidle : s.crew.act x = (s.crew, []) → s.docket.step s.crew x = s.docket →
      (s.step x).docket = s.docket ∧ (s.step x).reports = s.reports ∧ (s.step x).Over := by
    intro hact hdocket
    have hstep : s.step x = s := by
      simp only [Shift.step, hact, hdocket, List.reverse_nil, List.nil_append]
    rw [hstep]
    exact ⟨rfl, rfl, h⟩
  cases x with
  | enqueue job => exact hidle (by simp only [Confirmer.act, h.push]) (by simp only [Docket.step, h.push])
  | take i =>
    exact hidle (by simp only [Confirmer.act, Confirmer.take, hnobody])
      (by simp only [Docket.step, hnobody])
  | answer i a =>
    refine hidle (by simp only [Confirmer.act, Confirmer.answer, hnobody]) ?_
    simp only [Docket.step, Confirmer.submitting?, Confirmer.settles, hnobody]
    rfl
  | verdict i v =>
    exact hidle (by simp only [Confirmer.act, Confirmer.verdict, hnobody])
      (by simp only [Docket.step, Confirmer.inHand?, hnobody])
  | tick i => exact hidle (by simp only [Confirmer.act, Confirmer.tick, hnobody]) rfl
  | leave i => exact hidle (by simp only [Confirmer.act, Confirmer.leave, hnobody]) rfl
  | stop => exact ⟨rfl, rfl, rfl, h.queue, h.workers, h.desks⟩
  | drain =>
    have hcrew : { s.crew with queue := [], workers := [] } = s.crew := by
      rw [← h.queue, ← h.workers]
    have hdesks : { s.docket with desks := [] } = s.docket := by
      rw [← h.desks]
    refine hidle ?_ ?_
    · simp only [Confirmer.act, Confirmer.drain, h.queue, hcrew, List.flatMap_nil, ite_self]
    · simp only [Docket.step, h.queue, hdesks, List.foldl_nil, ite_self]

theorem Over.run (h : s.Over) (acts : List Act) :
    (s.run acts).docket = s.docket ∧ (s.run acts).reports = s.reports ∧ (s.run acts).Over := by
  induction acts generalizing s with
  | nil => exact ⟨rfl, rfl, h⟩
  | cons x acts ih =>
    obtain ⟨hd, hr, hover⟩ := h.step x
    obtain ⟨hd', hr', hover'⟩ := ih hover
    exact ⟨hd'.trans hd, hr'.trans hr, hover'⟩

/-- The end of a stop, once all workers have left. -/
theorem drain_over (hs : s.crew.stopping = true) (he : s.crew.allExited = true) :
    (s.step .drain).Over ∧ (s.step .drain).docket.jobs = s.docket.jobs := by
  obtain ⟨hdesks, hjobs⟩ := dismissAll_keeps s.crew.started s.crew.queue { s.docket with desks := [] }
  have hdocket : (s.step .drain).docket =
      s.crew.queue.foldl (Docket.dismiss s.crew.started) { s.docket with desks := [] } := by
    simp only [Shift.step, Docket.step, hs, he, and_self, if_true]
  have hcrew : (s.step .drain).crew = { s.crew with queue := [], workers := [] } := by
    simp only [Shift.step, Confirmer.act, Confirmer.drain, hs, he, and_self, if_true]
  refine ⟨⟨?_, ?_, ?_, ?_⟩, ?_⟩
  · rw [hcrew]
    exact hs
  · rw [hcrew]
  · rw [hcrew]
  · rw [hdocket]
    exact hdesks
  · rw [hdocket]
    exact hjobs

/-- When it is over, every job has left the queue, and something was reported of every transaction
that was to be submitted. -/
theorem Sound.all_reported (h : s.Sound) (hover : s.Over) :
    s.docket.taken = s.docket.jobs.length ∧
      ∀ n tx, s.docket.jobs[n]? = some (.submit tx) →
        ∃ r, .told r ∈ s.docket.marks n ∧ r.hash = tx.hash := by
  have hd := h.docket
  have hdrop : s.docket.jobs.drop s.docket.taken = [] := hd.queue.symm.trans hover.queue
  have htaken : s.docket.taken = s.docket.jobs.length :=
    Nat.le_antisymm hd.bound (List.drop_eq_nil_iff.mp hdrop)
  refine ⟨htaken, fun n tx hn => ?_⟩
  obtain ⟨p, hp, hstory⟩ := hd.stories n _ hn
  cases hp with
  | queued hle =>
    have hlt : n < s.docket.jobs.length := (List.getElem?_eq_some_iff.mp hn).1
    omega
  | desk i d spot hdesk _ => simp [hover.desks] at hdesk
  | gone _ _ => exact hstory.reported

/-- The docket accounts for every job that was accepted, and for everything that the crew did; and
the crew does what it can. -/
structure Accounted (s : Shift) : Prop where
  /-- The jobs that were not taken wait in the order of acceptance. -/
  queue : s.crew.queue = s.docket.jobs.drop s.docket.taken
  bound : s.docket.taken ≤ s.docket.jobs.length
  /-- Each worker has a desk, with exactly the tickets of what it submits and watches. -/
  size : s.docket.desks.length = s.crew.workers.length
  fits : ∀ (i : Nat) (d : Desk) (w : Worker),
    s.docket.desks[i]? = some d → s.crew.workers[i]? = some w → d.Fits s.docket.jobs w
  /-- Each job is in one place, and has a story that fits the place. -/
  placed : ∀ n job, s.docket.jobs[n]? = some job →
    ∃ p, s.docket.At n p ∧ (∀ q, s.docket.At n q → q = p) ∧
      job.Story (s.docket.desks = []) p (s.docket.marks n)
  /-- Nothing is noted but in the story of a job that was taken, and all reports are noted. -/
  logged : ∀ e ∈ s.docket.log, e.1 < s.docket.taken
  told : s.docket.told = s.reports
  /-- Transactions are offered to the ledger in the order of acceptance, and only by a worker that
  takes the job. -/
  asked : s.docket.asked.Pairwise (· > ·)
  offered : ∀ (x : Act) (i : Nat) (tx : Signed), (s.step x).crew.submitting? i = some tx →
    s.crew.submitting? i = some tx ∨ x = .take i
  /-- A job is accepted as long as there is room, an idle worker takes the first one that waits, and
  what the ledger answers to an offer is told at once. -/
  accepts : ∀ job, s.crew.stopping = false → s.crew.queue.length < s.crew.size →
    (s.step (.enqueue job)).docket.jobs = s.docket.jobs ++ [job]
  takes : ∀ (i : Nat) (ws : List Hash), s.crew.workers[i]? = some ⟨.idle, ws⟩ →
    s.crew.queue ≠ [] → (s.step (.take i)).docket.taken = s.docket.taken + 1
  answers : ∀ (i : Nat) (tx : Signed) (a : Except Failure Ledger.Answer),
    s.crew.submitting? i = some tx →
      ∃ r, (s.step (.answer i a)).reports = r :: s.reports ∧ r.hash = tx.hash

theorem step_accepts (job : Job) (hs : s.crew.stopping = false)
    (hroom : s.crew.queue.length < s.crew.size) :
    (s.step (.enqueue job)).docket.jobs = s.docket.jobs ++ [job] := by
  have hpush : s.crew.push job = .ok { s.crew with queue := s.crew.queue ++ [job] } := by
    simp only [Confirmer.push, hs, Bool.false_eq_true, if_false, if_pos hroom]
  simp only [Shift.step, Docket.step, hpush]

theorem Sound.step_takes (h : s.Sound) {i : Nat} {ws : List Hash}
    (hw : s.crew.workers[i]? = some ⟨.idle, ws⟩) (hq : s.crew.queue ≠ []) :
    (s.step (.take i)).docket.taken = s.docket.taken + 1 := by
  obtain ⟨job, rest, hqueue⟩ := List.exists_cons_of_ne_nil hq
  obtain ⟨d, hd, -⟩ := h.docket.desk? hw
  simp only [Shift.step, Docket.step, hw, hqueue, Docket.take, hd]
  rfl

theorem step_answers {i : Nat} {tx : Signed} (a : Except Failure Ledger.Answer)
    (hs : s.crew.submitting? i = some tx) :
    ∃ r, (s.step (.answer i a)).reports = r :: s.reports ∧ r.hash = tx.hash := by
  obtain ⟨ws, hw⟩ : ∃ ws, s.crew.workers[i]? = some ⟨.submitting tx, ws⟩ := by
    simp only [Confirmer.submitting?] at hs
    split at hs
    · next tx' ws hw =>
      obtain rfl := Option.some.inj hs
      exact ⟨ws, hw⟩
    · simp at hs
  simp only [Shift.step, Confirmer.act, Confirmer.answer, hw]
  cases a with
  | ok x => exact ⟨.sent tx.hash, rfl, rfl⟩
  | error f => exact ⟨.failed tx.hash f.asSubmission, rfl, rfl⟩

theorem Sound.accounted (h : s.Sound) : s.Accounted where
  queue := h.docket.queue
  bound := h.docket.bound
  size := h.docket.size
  fits := h.docket.fits
  placed := fun n job hn => by
    obtain ⟨p, hp, hstory⟩ := h.docket.stories n job hn
    exact ⟨p, hp, fun q hq => hq.unique h.docket.nodup h.docket.ticketed hp, hstory⟩
  logged := h.docket.logged
  told := h.docket.told
  asked := h.docket.asked
  offered := fun x _ _ hx => s.crew.offered_by_taking x hx
  accepts := step_accepts
  takes := fun _ _ hw hq => h.step_takes hw hq
  answers := fun _ _ a hs => step_answers a hs

/-- At every moment of the life of a crew each accepted job is accounted for. When the crew is to
stop and everybody has left, the end of the stop takes what is left in the queue; of every
transaction something has then been reported, and afterwards nothing is accepted or reported any
more. -/
theorem every_job_accounted (size crew interval : Nat) (depth : Option Nat) (chainId : Nat)
    (early : List Job) (acts : List Act) :
    let s := (opened (.ofSettings size crew interval depth chainId) early).run acts
    s.Accounted ∧
    (s.crew.stopping = true → s.crew.allExited = true →
      let e := s.step .drain
      e.docket.jobs = s.docket.jobs ∧ e.docket.taken = s.docket.jobs.length ∧
      (∀ n tx, s.docket.jobs[n]? = some (.submit tx) →
        ∃ r, .told r ∈ e.docket.marks n ∧ r.hash = tx.hash) ∧
      ∀ more, (e.run more).docket = e.docket ∧ (e.run more).reports = e.reports ∧
        ∀ job, (e.run more).crew.push job = .error (.enqueue "confirmer stopped" none)) := by
  intro s
  have h : s.Sound := (opened_sound size crew interval depth chainId early).run acts
  refine ⟨h.accounted, fun hs he => ?_⟩
  obtain ⟨hover, hjobs⟩ := drain_over hs he
  obtain ⟨htaken, hreported⟩ := (h.step .drain).all_reported hover
  rw [hjobs] at htaken hreported
  refine ⟨hjobs, htaken, hreported, fun more => ?_⟩
  obtain ⟨hdocket, hreports, hstill⟩ := hover.run more
  exact ⟨hdocket, hreports, hstill.push⟩

/-- A transaction that only its hash tells apart. -/
def anyTransaction (hash : Nat) : Signed where
  hash := ⟨hash⟩
  sender := Address.ofNat 1
  raw := []
  tx := ⟨1, 0, 21000, .legacy 5, none, 0, []⟩

/-- A stop comes while the only worker submits the first of two transactions. -/
def stopped : Shift :=
  (opened (.ofSettings 2 1 500 none 1) [.submit (anyTransaction 1), .submit (anyTransaction 2)]).run
    [.take 0, .stop, .answer 0 (.ok (.accepted (anyTransaction 1).hash))]

/-- The first transaction is sent and the other one dropped, and then the crew is closed. -/
theorem every_job_accounted_stopped :
    let e := stopped.step .drain
    let more := [.enqueue (.submit (anyTransaction 3)), .take 0, .tick 0]
    stopped.Accounted ∧ stopped.crew.stopping = true ∧ stopped.crew.allExited = true ∧
      stopped.crew.queue = [.submit (anyTransaction 2)] ∧ e.docket.taken = 2 ∧
      e.docket.told = [.failed (anyTransaction 2).hash (.submission "confirmer stopped" none),
        .sent (anyTransaction 1).hash] ∧
      (∃ r, .told r ∈ e.docket.marks 1 ∧ r.hash = (anyTransaction 2).hash) ∧
      (e.run more).reports = e.reports ∧
      (e.run more).crew.push (.track (anyTransaction 1).hash) =
        .error (.enqueue "confirmer stopped" none) := by
  intro e more
  have hstopping : stopped.crew.stopping = true := rfl
  have hexited : stopped.crew.allExited = true := by decide
  have hjobs : stopped.docket.jobs = [.submit (anyTransaction 1), .submit (anyTransaction 2)] := by
    decide
  obtain ⟨haccounted, hend⟩ := every_job_accounted 2 1 500 none 1
    [.submit (anyTransaction 1), .submit (anyTransaction 2)]
    [.take 0, .stop, .answer 0 (.ok (.accepted (anyTransaction 1).hash))]
  obtain ⟨-, htaken, hreported, hclosed⟩ := hend hstopping hexited
  obtain ⟨-, hsilent, hrefused⟩ := hclosed more
  have hlast : stopped.docket.jobs[1]? = some (.submit (anyTransaction 2)) := by
    rw [hjobs]
    rfl
  have htwo : (stopped.step .drain).docket.taken = 2 := htaken.trans (congrArg List.length hjobs)
  exact ⟨haccounted, hstopping, hexited, by decide, htwo, by decide, hreported 1 _ hlast, hsilent,
    hrefused _⟩

end Shift

end Outbox
