import Outbox.Proofs.Crew.Docket

namespace Outbox

theorem getElem?_set_cases {α : Type} {l : List α} {i j : Nat} {x y : α}
    (h : (l.set i x)[j]? = some y) : i = j ∧ y = x ∨ i ≠ j ∧ l[j]? = some y := by
  by_cases hij : i = j
  · subst hij
    have hi : i < l.length := by
      have hlen := (List.getElem?_eq_some_iff.mp h).1
      rwa [List.length_set] at hlen
    rw [List.getElem?_set_self hi] at h
    exact .inl ⟨rfl, (Option.some.inj h).symm⟩
  · rw [List.getElem?_set_ne hij] at h
    exact .inr ⟨hij, h⟩

/-- The docket accounts for what the crew has, and for every report that was made, newest first. -/
structure Docket.Sound (D : Docket) (queue : List Job) (workers : List Worker)
    (reports : List Report) : Prop where
  queue : queue = D.jobs.drop D.taken
  bound : D.taken ≤ D.jobs.length
  size : D.desks.length = workers.length
  fits : ∀ (i : Nat) (d : Desk) (w : Worker), D.desks[i]? = some d → workers[i]? = some w →
    d.Fits D.jobs w
  nodup : D.tickets.Nodup
  ticketed : ∀ n ∈ D.tickets, n < D.taken
  logged : ∀ e ∈ D.log, e.1 < D.taken
  stories : ∀ n job, D.jobs[n]? = some job →
    ∃ p, D.At n p ∧ job.Story (D.desks = []) p (D.marks n)
  told : D.told = reports
  /-- Transactions are submitted in the order in which they were accepted. -/
  asked : D.asked.Pairwise (· > ·)

namespace Docket

/-- At the end of a stop a job that is still in the queue is taken out of it. -/
def dismiss (wanted : Bool) (D : Docket) (job : Job) : Docket :=
  { D with taken := D.taken + 1 }.note D.taken
    (.taken none :: (if wanted then Confirmer.dropped job else []).map .told)

variable {D : Docket} {queue : List Job} {workers : List Worker} {reports : List Report} {job : Job}
  {i n t : Nat} {d d' : Desk} {w w' : Worker} {ms : List Mark} {p : Place}

theorem fresh_sound : ({} : Docket).Sound [] [] [] where
  queue := rfl
  bound := Nat.le_refl 0
  size := rfl
  fits := fun i d w hd _ => by simp at hd
  nodup := List.nodup_nil
  ticketed := fun n hn => absurd hn List.not_mem_nil
  logged := fun e he => absurd he List.not_mem_nil
  stories := fun n job hn => by simp at hn
  told := rfl
  asked := List.Pairwise.nil

namespace Sound

theorem marks_nil (h : D.Sound queue workers reports) (hn : D.taken ≤ n) : D.marks n = [] := by
  refine marks_eq_nil fun e he hen => ?_
  have hlt := h.logged e he
  omega

/-- The first job of the queue is the next to be taken. -/
theorem head (h : D.Sound (job :: queue) workers reports) :
    D.taken < D.jobs.length ∧ D.jobs[D.taken]? = some job ∧
      queue = D.jobs.drop (D.taken + 1) := by
  have hdrop := h.queue
  have hlt : D.taken < D.jobs.length := by
    by_contra hge
    rw [List.drop_eq_nil_of_le (Nat.le_of_not_lt hge)] at hdrop
    simp at hdrop
  rw [List.drop_eq_getElem_cons hlt] at hdrop
  obtain ⟨rfl, rfl⟩ := List.cons.inj hdrop
  exact ⟨hlt, List.getElem?_eq_getElem hlt, rfl⟩

theorem desk? (h : D.Sound queue workers reports) (hw : workers[i]? = some w) :
    ∃ d, D.desks[i]? = some d ∧ d.Fits D.jobs w := by
  have hi : i < D.desks.length := by
    rw [h.size]
    exact (List.getElem?_eq_some_iff.mp hw).1
  exact ⟨D.desks[i], List.getElem?_eq_getElem hi, h.fits i _ w (List.getElem?_eq_getElem hi) hw⟩

theorem desk_nodup (h : D.Sound queue workers reports) (hd : D.desks[i]? = some d) :
    d.tickets.Nodup :=
  (List.nodup_flatMap.mp h.nodup).1 d (List.mem_of_getElem? hd)

theorem desk_ticketed (h : D.Sound queue workers reports) (hd : D.desks[i]? = some d)
    (hn : n ∈ d.tickets) : n < D.taken :=
  h.ticketed n (List.mem_flatMap.mpr ⟨d, List.mem_of_getElem? hd, hn⟩)

/-- The story of a ticket that lies on a desk. -/
theorem story_on (h : D.Sound queue workers reports) (hd : D.desks[i]? = some d) {s : Spot}
    (hs : d.Holds n s) (hj : D.jobs[n]? = some job) :
    job.Story False (.desk i s) (D.marks n) := by
  obtain ⟨p, hp, hstory⟩ := h.stories n job hj
  obtain rfl := hp.unique h.nodup h.ticketed (.desk i d s hd hs)
  refine hstory.mono fun hover => ?_
  rw [hover] at hd
  simp at hd

theorem mem_hand (hf : d.Fits D.jobs w) {tx : Signed} (hw : w.submits = [tx]) :
    ∃ n, d.hand = some n ∧ D.jobs[n]? = some (.submit tx) := by
  have hhand := hf.hand
  rw [hw] at hhand
  cases hn : d.hand with
  | none => simp [hn] at hhand
  | some n =>
    rw [hn] at hhand
    exact ⟨n, rfl, List.singleton_inj.mp hhand⟩

theorem hand_none (hf : d.Fits D.jobs w) (hw : w.submits = []) : d.hand = none := by
  have hhand := hf.hand
  rw [hw] at hhand
  simpa using hhand

/-- The ticket of the hash that a worker watches first. -/
theorem mem_watch (hf : d.Fits D.jobs w) {hash : Hash} {rest : List Hash}
    (hw : w.watches = hash :: rest) :
    ∃ n watch, d.watch = n :: watch ∧ D.jobs[n]?.map Job.hash = some hash ∧
      watch.map (fun n => D.jobs[n]?.map Job.hash) = rest.map some := by
  have hwatch := hf.watch
  rw [hw] at hwatch
  cases hd : d.watch with
  | nil => simp [hd] at hwatch
  | cons n watch =>
    rw [hd, List.map_cons, List.map_cons] at hwatch
    obtain ⟨hn, hrest⟩ := List.cons.inj hwatch
    exact ⟨n, watch, rfl, hn, hrest⟩

/-- A worker goes on, with the same hashes and the same submission. -/
theorem rework (h : D.Sound queue workers reports) (hw : workers[i]? = some w)
    (hf : ∀ d : Desk, d.Fits D.jobs w → d.Fits D.jobs w') :
    D.Sound queue (workers.set i w') reports := by
  refine { h with size := by rw [List.length_set]; exact h.size, fits := fun j d v hd hv => ?_ }
  rcases getElem?_set_cases hv with ⟨rfl, rfl⟩ | ⟨-, hv⟩
  · exact hf d (h.fits i d w hd hw)
  · exact h.fits j d v hd hv

theorem desks_ne (hd : D.desks[i]? = some d) : D.desks ≠ [] := by
  intro hnil
  rw [hnil] at hd
  simp at hd

end Sound

/-- A worker finishes one thing with ticket `n`, which lay on its desk or comes from the queue, and
leaves all other tickets where they are. -/
structure Turn (D : Docket) (i : Nat) (d d' : Desk) (n t : Nat) : Prop where
  desk : D.desks[i]? = some d
  ticket : n ∈ d.tickets ∧ t = D.taken ∨ n = D.taken ∧ n < D.jobs.length ∧ t = n + 1
  others : ∀ m s, m ≠ n → (d'.Holds m s ↔ d.Holds m s)
  nodup : d'.tickets.Nodup

namespace Turn

variable (hT : D.Turn i d d' n t)
include hT

theorem taken_le : D.taken ≤ t := by
  have h := hT.ticket
  omega

theorem ticket_lt (h : D.Sound queue workers reports) : n < t := by
  rcases hT.ticket with ⟨hn, rfl⟩ | ⟨-, -, rfl⟩
  · exact h.desk_ticketed hT.desk hn
  · exact Nat.lt_succ_self n

theorem mem_or {m : Nat} (hm : m ∈ d'.tickets) : m = n ∨ m ∈ d.tickets := by
  by_cases hmn : m = n
  · exact .inl hmn
  · obtain ⟨s, hs⟩ := Desk.mem_tickets.mp hm
    exact .inr (Desk.mem_tickets.mpr ⟨s, (hT.others m s hmn).mp hs⟩)

theorem tickets_nodup (h : D.Sound queue workers reports) :
    ({ D with taken := t }.turn i d' n ms).tickets.Nodup := by
  obtain ⟨rest, hold, hnew⟩ := flatMap_set hT.desk Desk.tickets d'
  obtain ⟨-, hrest, hapart⟩ := List.nodup_append.mp (hold.nodup_iff.mp h.nodup)
  refine hnew.nodup_iff.mpr (List.nodup_append.mpr ⟨hT.nodup, hrest, fun m hm k hk => ?_⟩)
  rintro rfl
  rcases hT.mem_or hm with rfl | hmd
  · rcases hT.ticket with ⟨hmd, -⟩ | ⟨rfl, -, -⟩
    · exact hapart m hmd m hk rfl
    · -- it was in the queue, so it lay on no desk
      have hin : D.taken ∈ D.tickets := hold.mem_iff.mpr (List.mem_append_right _ hk)
      exact absurd (h.ticketed _ hin) (Nat.lt_irrefl _)
  · exact hapart m hmd m hk rfl

theorem tickets_lt (h : D.Sound queue workers reports) :
    ∀ m ∈ ({ D with taken := t }.turn i d' n ms).tickets, m < t := by
  intro m hm
  obtain ⟨j, e, s, he, hs⟩ := mem_tickets.mp hm
  have hold : ∀ {j : Nat} {e : Desk}, D.desks[j]? = some e → m ∈ e.tickets → m < t :=
    fun he hme => Nat.lt_of_lt_of_le (h.desk_ticketed he hme) hT.taken_le
  have hme : m ∈ e.tickets := Desk.mem_tickets.mpr ⟨s, hs⟩
  rcases getElem?_set_cases (l := D.desks) he with ⟨-, rfl⟩ | ⟨-, he⟩
  · rcases hT.mem_or hme with rfl | hmd
    · exact hT.ticket_lt h
    · exact hold hT.desk hmd
  · exact hold he hme

/-- Another ticket stays where it is. -/
theorem at_other {m : Nat} (hm : m ≠ n) (h : D.At m p) :
    ({ D with taken := t }.turn i d' n ms).At m p := by
  have hi : i < D.desks.length := (List.getElem?_eq_some_iff.mp hT.desk).1
  cases h with
  | queued h =>
    refine .queued ?_
    show t ≤ m
    have hn := hT.ticket
    omega
  | desk j e s he hs =>
    by_cases hij : i = j
    · subst hij
      obtain rfl : d = e := Option.some.inj (hT.desk.symm.trans he)
      refine .desk i d' s ?_ ((hT.others m s hm).mpr hs)
      show (D.desks.set i d')[i]? = some d'
      rw [List.getElem?_set_self hi]
    · refine .desk j e s ?_ hs
      show (D.desks.set i d')[j]? = some e
      rw [List.getElem?_set_ne hij]
      exact he
  | gone h hnot =>
    refine .gone (Nat.lt_of_lt_of_le h hT.taken_le) fun hin => hnot ?_
    obtain ⟨j, e, s, he, hs⟩ := mem_tickets.mp hin
    rcases getElem?_set_cases (l := D.desks) he with ⟨rfl, rfl⟩ | ⟨-, he⟩
    · exact mem_tickets.mpr ⟨i, d, s, hT.desk, (hT.others m s hm).mp hs⟩
    · exact mem_tickets.mpr ⟨j, e, s, he, hs⟩

end Turn

namespace Sound

/-- The ticket on which the worker did something lies on its desk. -/
theorem at_desk (hd : D.desks[i]? = some d) {s : Spot} (hs : d'.Holds n s) :
    ({ D with taken := t }.turn i d' n ms).At n (.desk i s) := by
  refine .desk i d' s ?_ hs
  show (D.desks.set i d')[i]? = some d'
  exact List.getElem?_set_self (List.getElem?_eq_some_iff.mp hd).1

/-- The ticket on which the worker did something lies on no desk any more. -/
theorem at_gone (h : D.Sound queue workers reports) (hd : D.desks[i]? = some d)
    (hn : n ∈ d.tickets) (hnot : n ∉ d'.tickets) : (D.turn i d' n ms).At n .gone := by
  refine .gone (h.desk_ticketed hd hn) fun hin => ?_
  obtain ⟨j, e, s, he, hs⟩ := mem_tickets.mp hin
  have hne : n ∈ e.tickets := Desk.mem_tickets.mpr ⟨s, hs⟩
  rcases getElem?_set_cases (l := D.desks) he with ⟨-, rfl⟩ | ⟨hij, he⟩
  · exact hnot hne
  · exact hij (desk_unique h.nodup hd he hn hne)

/-- After a turn the docket is true of the worker's new state, if the ticket's story goes on. -/
theorem turn (h : D.Sound queue workers reports) (hT : D.Turn i d d' n t)
    (hfits : d'.Fits D.jobs w')
    (hstory : ∀ job, D.jobs[n]? = some job →
      ∃ p, ({ D with taken := t }.turn i d' n ms).At n p ∧ job.Story False p (D.marks n ++ ms))
    (hasked : ms.filter Mark.isSubmission = [] ∨
      n = D.taken ∧ ∃ m, ms.filter Mark.isSubmission = [m]) :
    ({ D with taken := t }.turn i d' n ms).Sound (D.jobs.drop t) (workers.set i w')
      ((ms.filterMap Mark.report?).reverse ++ reports) := by
  refine
    { queue := rfl
      bound := ?bound
      size := ?size
      fits := ?fits
      nodup := hT.tickets_nodup h
      ticketed := hT.tickets_lt h
      logged := ?logged
      stories := ?stories
      told := ?told
      asked := ?asked }
  case bound =>
    show t ≤ D.jobs.length
    have hb := h.bound
    have hn := hT.ticket
    omega
  case size =>
    show (D.desks.set i d').length = _
    rw [List.length_set, List.length_set]
    exact h.size
  case fits =>
    intro j e v he hv
    rcases getElem?_set_cases (l := D.desks) he with ⟨hij, rfl⟩ | ⟨hij, he⟩
    · rcases getElem?_set_cases hv with ⟨-, rfl⟩ | ⟨hne, -⟩
      · exact hfits
      · exact absurd hij hne
    · rcases getElem?_set_cases hv with ⟨heq, -⟩ | ⟨-, hv⟩
      · exact absurd heq hij
      · exact h.fits j e v he hv
  case logged =>
    intro e he
    rcases List.mem_append.mp he with he | he
    · rw [List.mem_reverse, List.mem_map] at he
      obtain ⟨m, -, rfl⟩ := he
      exact hT.ticket_lt h
    · exact Nat.lt_of_lt_of_le (h.logged e he) hT.taken_le
  case stories =>
    intro m job hj
    by_cases hmn : m = n
    · subst hmn
      obtain ⟨p, hp, hs⟩ := hstory job hj
      refine ⟨p, hp, ?_⟩
      rw [Docket.turn, marks_note_self]
      exact hs.mono False.elim
    · obtain ⟨p, hp, hs⟩ := h.stories m job hj
      refine ⟨p, hT.at_other hmn hp, ?_⟩
      -- there is a desk, so no story so far is one of a crew that is over
      rw [Docket.turn, marks_note_of_ne hmn]
      exact hs.mono fun hover => absurd hover (desks_ne hT.desk)
  case told =>
    rw [Docket.turn, told_note, ← h.told]
    rfl
  case asked =>
    have hbelow : ∀ m ∈ D.asked, m < D.taken := by
      intro m hm
      obtain ⟨e, he, rfl⟩ := List.mem_map.mp hm
      exact h.logged e (List.mem_of_mem_filter he)
    rw [Docket.turn, asked_note]
    rcases hasked with hnone | ⟨rfl, m, hone⟩
    · rw [hnone]
      exact h.asked
    · rw [hone]
      exact List.pairwise_cons.mpr ⟨hbelow, h.asked⟩

/-- A job is accepted at the end of the queue. -/
theorem enqueue (h : D.Sound queue workers reports) (job : Job) :
    ({ D with jobs := D.jobs ++ [job] } : Docket).Sound (queue ++ [job]) workers reports := by
  have hold : ∀ {n}, n < D.taken → (D.jobs ++ [job])[n]? = D.jobs[n]? := fun hn =>
    List.getElem?_append_left (Nat.lt_of_lt_of_le hn h.bound)
  have hstays : ∀ {n p}, D.At n p → ({ D with jobs := D.jobs ++ [job] } : Docket).At n p := by
    intro n p hp
    cases hp with
    | queued h => exact .queued h
    | desk i d s hd hs => exact .desk i d s hd hs
    | gone h hnot => exact .gone h hnot
  refine { h with queue := ?queue, bound := ?bound, fits := ?fits, stories := ?stories }
  case queue =>
    rw [h.queue, List.drop_append_of_le_length h.bound]
  case bound =>
    show D.taken ≤ (D.jobs ++ [job]).length
    rw [List.length_append]
    exact Nat.le_add_right_of_le h.bound
  case fits =>
    intro i d w hd hw
    obtain ⟨hhand, hwatch, hpass⟩ := h.fits i d w hd hw
    have hlt : ∀ n ∈ d.tickets, n < D.taken := fun n hn => h.desk_ticketed hd hn
    refine ⟨hhand ▸ List.map_congr_left fun n hn => ?_, hwatch ▸ List.map_congr_left fun n hn => ?_,
      hpass⟩
    · exact hold (hlt n (List.mem_append_left _ hn))
    · exact congrArg (Option.map Job.hash) (hold (hlt n (List.mem_append_right _ hn)))
  case stories =>
    intro n j hj
    by_cases hn : n < D.jobs.length
    · rw [List.getElem?_append_left hn] at hj
      obtain ⟨p, hp, hs⟩ := h.stories n j hj
      exact ⟨p, hstays hp, hs⟩
    · have hle : D.taken ≤ n := Nat.le_trans h.bound (Nat.le_of_not_lt hn)
      refine ⟨.queued, .queued hle, ?_⟩
      show j.Story _ .queued (D.marks n)
      rw [h.marks_nil hle]
      exact .queued j

/-- All workers have left, and what they watched is watched no more. -/
theorem clear (h : D.Sound queue workers reports) (hw : ∀ w ∈ workers, w.activity = .exited) :
    ({ D with desks := [] } : Docket).Sound queue [] reports := by
  refine
    { h with
      size := rfl
      fits := fun i d w hd _ => by simp at hd
      nodup := List.nodup_nil
      ticketed := fun n hn => absurd hn List.not_mem_nil
      stories := fun n job hj => ?_ }
  have hgone : ∀ {n}, n < D.taken → ({ D with desks := [] } : Docket).At n .gone := fun hn =>
    .gone hn List.not_mem_nil
  obtain ⟨p, hp, hs⟩ := h.stories n job hj
  have hs' : job.Story ([] = ([] : List Desk)) p (D.marks n) := hs.mono fun _ => rfl
  cases hp with
  | queued hn => exact ⟨.queued, .queued hn, hs'⟩
  | gone hn _ => exact ⟨.gone, hgone hn, hs'⟩
  | desk i d s hd hn =>
    have hin : n < D.taken := h.desk_ticketed hd (Desk.mem_tickets.mpr ⟨s, hn⟩)
    cases s with
    | watch => exact ⟨.gone, hgone hin, .unwatched job i _ hs' rfl⟩
    | submission =>
      have hi : i < workers.length := by
        rw [← h.size]
        exact (List.getElem?_eq_some_iff.mp hd).1
      have hidle : workers[i].submits = [] := by
        simp only [Worker.submits, hw _ (List.getElem_mem hi)]
        rfl
      have hnone := hand_none (h.fits i d _ hd (List.getElem?_eq_getElem hi)) hidle
      rw [show d.hand = some n from hn] at hnone
      simp at hnone

theorem dismiss (h : D.Sound (job :: queue) [] reports) :
    (D.dismiss true job).Sound queue [] ((Confirmer.dropped job).reverse ++ reports) := by
  obtain ⟨hlt, hjob, hqueue⟩ := h.head
  have hdesks : D.desks = [] := List.eq_nil_of_length_eq_zero h.size
  have htickets : D.tickets = [] := by
    simp [tickets, hdesks]
  refine
    { queue := hqueue
      bound := hlt
      size := h.size
      fits := h.fits
      nodup := h.nodup
      ticketed := fun n hn => Nat.lt_succ_of_lt (h.ticketed n hn)
      logged := fun e he => ?logged
      stories := fun n j hj => ?stories
      told := ?told
      asked := ?asked }
  case logged =>
    rcases List.mem_append.mp he with he | he
    · rw [List.mem_reverse, List.mem_map] at he
      obtain ⟨m, -, rfl⟩ := he
      exact Nat.lt_succ_self _
    · exact Nat.lt_succ_of_lt (h.logged e he)
  case stories =>
    show ∃ p, _ ∧ j.Story _ p ((D.dismiss true job).marks n)
    have hgone : ∀ {m}, m < D.taken + 1 → (D.dismiss true job).At m .gone := fun hm =>
      .gone hm (by
        show _ ∉ D.tickets
        rw [htickets]
        exact List.not_mem_nil)
    by_cases hn : n = D.taken
    · subst hn
      obtain rfl : job = j := Option.some.inj (hjob.symm.trans hj)
      refine ⟨.gone, hgone (Nat.lt_succ_self _), ?_⟩
      rw [Docket.dismiss, marks_note_self]
      show job.Story (D.desks = []) .gone (D.marks D.taken ++ _)
      rw [h.marks_nil (Nat.le_refl _)]
      cases job with
      | submit tx => exact .dropped tx hdesks
      | track hash => exact .forgotten hash hdesks
    · obtain ⟨p, hp, hs⟩ := h.stories n j hj
      rw [Docket.dismiss, marks_note_of_ne hn]
      refine ⟨p, ?_, hs⟩
      cases hp with
      | queued hle => exact .queued (Nat.lt_of_le_of_ne hle (Ne.symm hn))
      | desk i d s hd _ =>
        rw [hdesks] at hd
        simp at hd
      | gone hm _ => exact hgone (Nat.lt_succ_of_lt hm)
  case told =>
    rw [Docket.dismiss, told_note]
    show _ ++ D.told = _
    rw [h.told, List.filterMap_cons]
    exact congrArg (fun rs => rs.reverse ++ reports) (Mark.reports_told _)
  case asked =>
    have hnone : ((Mark.taken none :: (Confirmer.dropped job).map .told).filter
        Mark.isSubmission) = [] := by
      cases job <;> rfl
    rw [Docket.dismiss, asked_note]
    show ((List.filter _ _).map _ ++ D.asked).Pairwise _
    simp only [if_true]
    rw [hnone]
    exact h.asked

theorem dismissAll (h : D.Sound queue [] reports) :
    (queue.foldl (Docket.dismiss true) D).Sound [] []
      ((queue.flatMap Confirmer.dropped).reverse ++ reports) := by
  induction queue generalizing D reports with
  | nil => exact h
  | cons job queue ih =>
    have hrest := ih h.dismiss
    rw [← List.append_assoc, ← List.reverse_append] at hrest
    exact hrest

end Sound

end Docket

end Outbox
