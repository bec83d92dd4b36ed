import Outbox.Proofs.Crew.Visit
import Outbox.Proofs.Send.Handing

namespace Outbox.Dispatch

open Ledger

/-- The worker that a label is about. -/
def Label.worker? (l : Label) : Option Nat := l.act?.bind Confirmer.Act.worker?

/-- The labels about worker `i`. -/
def own (i : Nat) (labels : List Label) : List Label :=
  labels.filter fun l => l.worker? = some i

/-- The last thing that happens is about worker `i`. -/
def EndsWith (i : Nat) (labels : List Label) : Prop := ∀ l ∈ labels.getLast?, l.worker? = some i

/-- What happens to worker `i` is a tick and then, at each visit, an answer to each thing it asks;
with the last of them the run ends. -/
structure Passes (i : Nat) (visits : List Visit) (labels : List Label) : Prop where
  order : own i labels = .tick i :: (visits.flatMap Visit.answers).map (.workerAnswer i)
  ends : EndsWith i labels

/-- What is asked when an answer comes. -/
def askedOf (d : Dispatch) : Label → List Query
  | .workerAnswer i _ =>
    match d.tracker.confirmer with
    | some c => (c.query? i).toList
    | none => []
  | _ => []

/-- What worker `i` does at a step, oldest first. -/
def deedsOf (d : Dispatch) (i : Nat) (l : Label) : List Deed :=
  if l.worker? = some i then
    (d.askedOf l).map .asks ++ ((d.momentsOf l).map Moment.report).reverse.map .tells
  else []

/-- What worker `i` does in a run, oldest first. -/
def deeds (d : Dispatch) (i : Nat) : List Label → List Deed
  | [] => []
  | l :: labels => d.deedsOf i l ++ (d.step l).deeds i labels

/-- The crew waits for `required` blocks, and its worker `i` is `w`. -/
def Mans (d : Dispatch) (required i : Nat) (w : Worker) : Prop :=
  ∃ c, d.tracker.confirmer = some c ∧ c.depth = required ∧ c.workers[i]? = some w

/-- Worker `i` goes on with its pass, or is at the end of it. -/
def Goes (d : Dispatch) (required i : Nat) (rest kept : List Hash) : Prop :=
  ∃ c, d.tracker.confirmer = some c ∧ c.depth = required ∧
    c.workers[i]? = some (c.onward rest kept)

variable {d : Dispatch} {required i : Nat} {w : Worker} {l : Label} {labels : List Label}

theorem deeds_append (d : Dispatch) (i : Nat) (xs ys : List Label) :
    d.deeds i (xs ++ ys) = d.deeds i xs ++ (d.run xs).deeds i ys := by
  induction xs generalizing d with
  | nil => rfl
  | cons l xs ih =>
    show d.deedsOf i l ++ (d.step l).deeds i (xs ++ ys) = _
    rw [ih (d.step l), ← List.append_assoc]
    rfl

/-- What a worker tells is reported. -/
theorem reported_of_tells {r : Report} (h : .tells r ∈ d.deeds i labels) :
    .reported r ∈ (d.run labels).events := by
  have htold : r ∈ (d.momentsOver labels).map Moment.report := by
    induction labels generalizing d with
    | nil => simp [deeds] at h
    | cons l labels ih =>
      rw [momentsOver, List.map_append, List.mem_append]
      rcases List.mem_append.mp h with hnow | hlater
      · simp only [deedsOf] at hnow
        split at hnow
        · exact .inr (by simpa using hnow)
        · simp at hnow
      · exact .inl (ih hlater)
  have hreports : r ∈ reports (d.run labels).events := by
    rw [reports_run]
    exact List.mem_append_left _ htold
  simp only [reports, List.mem_filterMap] at hreports
  obtain ⟨e, he, hr⟩ := hreports
  cases e with
  | reported q =>
    obtain rfl := Option.some.inj hr
    exact he
  | enqueued g n => simp at hr
  | tracked g => simp at hr
  | checked g n => simp at hr

namespace Mans

theorem step_elsewhere (h : d.Mans required i w) (ha : w.activity ≠ .exited)
    (hl : l.worker? ≠ some i) : (d.step l).Mans required i w := by
  obtain ⟨c, hc, hd, hw⟩ := h
  obtain ⟨c', rs, hc', hstep, -⟩ := step_crew hc l
  refine ⟨c', hc', ?_⟩
  cases hstep with
  | rests => exact ⟨hd, hw⟩
  | told r _ => exact ⟨hd, hw⟩
  | tracks g => exact ⟨hd, hw⟩
  | submits tx n _ => exact ⟨hd, hw⟩
  | starts =>
    have hsame : c.start = c := by
      simp only [Confirmer.start]
      split
      · next hnone =>
        rw [hnone] at hw
        simp at hw
      · rfl
    rw [hsame]
    exact ⟨hd, hw⟩
  | acts x hx =>
    have hne : x.worker? ≠ some i := by
      simpa [Label.worker?, hx] using hl
    obtain ⟨hdepth, hstays⟩ := Confirmer.act_elsewhere hne hw ha
    exact ⟨hdepth.trans hd, hstays⟩

/-- What is not about a worker is nothing to it, and it does nothing meanwhile. -/
theorem run_elsewhere (h : d.Mans required i w) (ha : w.activity ≠ .exited)
    (hl : ∀ l ∈ labels, l.worker? ≠ some i) :
    (d.run labels).Mans required i w ∧ d.deeds i labels = [] := by
  induction labels generalizing d with
  | nil => exact ⟨h, rfl⟩
  | cons l labels ih =>
    obtain ⟨hne, hrest⟩ := List.forall_mem_cons.mp hl
    obtain ⟨hstays, hnone⟩ := ih (h.step_elsewhere ha hne) hrest
    refine ⟨hstays, ?_⟩
    rw [deeds, hnone, deedsOf, if_neg hne, List.append_nil]

variable {c : Confirmer} {hash : Hash} {check : Check} {rest kept ws : List Hash}
  {a : Except Failure Answer}

theorem deedsOf_answer (hc : d.tracker.confirmer = some c)
    (hw : c.workers[i]? = some ⟨.checking hash check rest kept, ws⟩) :
    d.deedsOf i (.workerAnswer i a) =
      .asks (check.query hash) :: (c.answer i a).2.map .tells := by
  have hasked : d.askedOf (.workerAnswer i a) = [check.query hash] := by
    simp only [askedOf, hc, Confirmer.query?, hw]
    rfl
  have htold : (d.momentsOf (.workerAnswer i a)).map Moment.report = (c.answer i a).2.reverse :=
    crewMoments_reports hc _
  have hown : (Label.workerAnswer i a).worker? = some i := rfl
  rw [deedsOf, if_pos hown, hasked, htold, List.reverse_reverse]
  rfl

/-- An answer that leaves the check open. -/
theorem answer_next (h : d.Mans required i ⟨.checking hash check rest kept, ws⟩) {next : Check}
    (ha : check.answer hash required a = .inl next) :
    (d.step (.workerAnswer i a)).Mans required i ⟨.checking hash next rest kept, ws⟩ ∧
      d.deedsOf i (.workerAnswer i a) = [.asks (check.query hash)] := by
  obtain ⟨c, hc, rfl, hw⟩ := h
  have hlt : i < c.workers.length := (List.getElem?_eq_some_iff.mp hw).1
  have hanswer : c.answer i a = (c.change i ⟨.checking hash next rest kept, ws⟩, []) := by
    simp only [Confirmer.answer, hw, ha]
  have hcrew : (d.step (.workerAnswer i a)).tracker.confirmer = some (c.answer i a).1 :=
    withConfirmer_crew hc _
  rw [hanswer] at hcrew
  refine ⟨⟨_, hcrew, rfl, List.getElem?_set_self hlt⟩, ?_⟩
  rw [deedsOf_answer hc hw, hanswer]
  rfl

/-- An answer that settles the check. -/
theorem answer_verdict (h : d.Mans required i ⟨.checking hash check rest kept, ws⟩)
    {v : Except Failure Unit} (ha : check.answer hash required a = .inr v) :
    (d.step (.workerAnswer i a)).Goes required i rest
        (if (Confirmer.verdictReport? hash v).isNone then kept ++ [hash] else kept) ∧
      d.deedsOf i (.workerAnswer i a) =
        .asks (check.query hash) :: (Confirmer.verdictReport? hash v).toList.map .tells := by
  obtain ⟨c, hc, rfl, hw⟩ := h
  have hlt : i < c.workers.length := (List.getElem?_eq_some_iff.mp hw).1
  have hanswer : c.answer i a = c.decide i hash rest kept v := by
    simp only [Confirmer.answer, hw, ha]
  have hcrew : (d.step (.workerAnswer i a)).tracker.confirmer = some (c.answer i a).1 :=
    withConfirmer_crew hc _
  rw [hanswer, Confirmer.decide_eq, Confirmer.proceed_onward] at hcrew
  refine ⟨⟨_, hcrew, rfl, List.getElem?_set_self hlt⟩, ?_⟩
  rw [deedsOf_answer hc hw, hanswer, Confirmer.decide_eq]

end Mans

/-- The next thing that is about a worker comes after some that are not. -/
theorem next_own {ls : List Label} (h : own i labels = l :: ls) :
    ∃ before after, labels = before ++ l :: after ∧ (∀ m ∈ before, m.worker? ≠ some i) ∧
      own i after = ls := by
  obtain ⟨before, after, rfl, hbefore, -, hafter⟩ := List.filter_eq_cons_iff.mp h
  exact ⟨before, after, rfl, fun m hm => by simpa using hbefore m hm, hafter⟩

/-- A run that ends with a label about worker `i` is over when there is none any more. -/
theorem eq_nil_of_own (h : own i labels = []) (hlast : EndsWith i labels) : labels = [] := by
  cases hl : labels.getLast? with
  | none => exact List.getLast?_eq_none_iff.mp hl
  | some l =>
    have hnot := List.filter_eq_nil_iff.mp h l (List.mem_of_getLast? hl)
    simp [hlast l hl] at hnot

theorem EndsWith.right {xs ys : List Label} (h : EndsWith i (xs ++ ys)) : EndsWith i ys := by
  intro l hl
  apply h
  rw [List.getLast?_append, Option.mem_def.mp hl]
  rfl

/-- A worker at some point of its pass gets its next answer, in a state `e`. -/
theorem Mans.next_answer {hash : Hash} {check : Check} {rest kept : List Hash}
    {a : Except Failure Answer} {ls : List Label}
    (h : d.Mans required i ⟨.checking hash check rest kept, []⟩)
    (hown : own i labels = .workerAnswer i a :: ls) :
    ∃ (e : Dispatch) (before after : List Label), labels = before ++ after ∧ own i after = ls ∧
      e.Mans required i ⟨.checking hash check rest kept, []⟩ ∧
      d.run before = e.step (.workerAnswer i a) ∧
      d.deeds i before = e.deedsOf i (.workerAnswer i a) := by
  obtain ⟨before, after, rfl, hbefore, hafter⟩ := next_own hown
  obtain ⟨hstays, hnone⟩ := h.run_elsewhere (by simp) hbefore
  refine ⟨d.run before, before ++ [.workerAnswer i a], after, by simp, hafter, hstays, ?_, ?_⟩
  · rw [run_append]
    rfl
  · rw [deeds_append, hnone]
    exact List.append_nil _

/-- One visit, up to the answer that decides it. -/
theorem Mans.visit {x : Visit} {rest kept : List Hash} {ls : List Label}
    (h : d.Mans required i ⟨.checking x.hash .receipt rest kept, []⟩) (hx : x.Credible)
    (hown : own i labels = x.answers.map (.workerAnswer i) ++ ls) :
    ∃ before after, labels = before ++ after ∧ own i after = ls ∧
      (d.run before).Goes required i rest (if x.isOpen required then kept ++ [x.hash] else kept) ∧
      d.deeds i before = x.deeds required := by
  rw [x.isOpen_eq required]
  cases hb : x.block? with
  | none =>
    simp only [Visit.answers, hb] at hown
    obtain ⟨e, before, after, rfl, hafter, hmans, hrun, hdeeds⟩ := h.next_answer hown
    obtain ⟨v, hv, hreport⟩ := Visit.answer_decided hx hb required
    obtain ⟨hgoes, hdone⟩ := hmans.answer_verdict hv
    rw [hreport] at hgoes hdone
    refine ⟨before, after, rfl, hafter, hrun ▸ hgoes, ?_⟩
    rw [hdeeds, hdone, Visit.deeds, Visit.queries, hb]
    rfl
  | some b =>
    simp only [Visit.answers, hb] at hown
    obtain ⟨e, before, between, rfl, hbetween, hmans, hrun, hdeeds⟩ := h.next_answer hown
    obtain ⟨hhead, hasked⟩ := hmans.answer_next (Visit.answer_included hb required)
    rw [← hrun] at hhead
    obtain ⟨e', before', after, rfl, hafter, hmans', hrun', hdeeds'⟩ := hhead.next_answer hbetween
    obtain ⟨v, hv, hreport⟩ := Visit.answer_head hx hb required
    obtain ⟨hgoes, hdone⟩ := hmans'.answer_verdict hv
    rw [hreport] at hgoes hdone
    refine ⟨before ++ before', after, (List.append_assoc _ _ _).symm, hafter, ?_, ?_⟩
    · rw [run_append, hrun']
      exact hgoes
    · rw [deeds_append, hdeeds, hasked, hdeeds', hdone, Visit.deeds, Visit.queries, hb]
      rfl

/-- The rest of a pass. -/
theorem Goes.pass {visits : List Visit} {kept : List Hash}
    (h : d.Goes required i (visits.map Visit.hash) kept) (hx : ∀ x ∈ visits, x.Credible)
    (hown : own i labels = (visits.flatMap Visit.answers).map (.workerAnswer i))
    (hlast : EndsWith i labels) :
    (d.run labels).Goes required i []
        (kept ++ (visits.filter fun x => x.isOpen required).map Visit.hash) ∧
      d.deeds i labels = visits.flatMap (Visit.deeds required) := by
  induction visits generalizing d kept labels with
  | nil =>
    obtain rfl := eq_nil_of_own hown hlast
    refine ⟨?_, rfl⟩
    rw [List.filter_nil, List.map_nil, List.append_nil]
    exact h
  | cons x visits ih =>
    obtain ⟨hx, hrest⟩ := List.forall_mem_cons.mp hx
    rw [List.flatMap_cons, List.map_append] at hown
    have hmans : d.Mans required i ⟨.checking x.hash .receipt (visits.map Visit.hash) kept, []⟩ := h
    obtain ⟨before, after, rfl, hafter, hgoes, hdeeds⟩ := hmans.visit hx hown
    obtain ⟨hend, hdone⟩ := ih hgoes hrest hafter hlast.right
    rw [run_append, deeds_append, hdeeds, hdone, List.flatMap_cons]
    refine ⟨?_, rfl⟩
    cases hopen : x.isOpen required with
    | true =>
      simp only [hopen, if_true] at hend
      simpa [hopen] using hend
    | false => simpa [hopen] using hend

/-- The tick, with all that comes before it; a worker that watches nothing stays as it is. -/
theorem Passes.begins {c : Confirmer} {visits : List Visit} (hl : Passes i visits labels)
    (hc : d.tracker.confirmer = some c)
    (hw : c.workers[i]? = some ⟨.idle, visits.map Visit.hash⟩) :
    ∃ before after, labels = before ++ after ∧
      own i after = (visits.flatMap Visit.answers).map (.workerAnswer i) ∧
      ((d.run before).Goes c.depth i (visits.map Visit.hash) [] ∨
        visits = [] ∧ (d.run before).Mans c.depth i ⟨.idle, []⟩) ∧
      d.deeds i before = [] := by
  obtain ⟨before, after, rfl, hbefore, hafter⟩ := next_own hl.order
  have hmans : d.Mans c.depth i ⟨.idle, visits.map Visit.hash⟩ := ⟨c, hc, rfl, hw⟩
  obtain ⟨⟨e, he, hd, hstays⟩, hnone⟩ := hmans.run_elsewhere (by simp) hbefore
  have hlt : i < e.workers.length := (List.getElem?_eq_some_iff.mp hstays).1
  have hcrew : (d.run (before ++ [.tick i])).tracker.confirmer = some (e.tick i) := by
    have hstep : ((d.run before).step (.tick i)).tracker.confirmer = some (e.tick i) :=
      withConfirmer_crew he _
    rw [run_append]
    exact hstep
  refine ⟨before ++ [.tick i], after, by simp, hafter, ?_, ?_⟩
  · cases visits with
    | nil =>
      have htick : e.tick i = e := by
        simp only [Confirmer.tick, hstays, List.map_nil]
      rw [htick] at hcrew
      exact .inr ⟨rfl, e, hcrew, hd, hstays⟩
    | cons x visits =>
      have htick : e.tick i = e.change i (e.onward ((x :: visits).map Visit.hash) []) := by
        simp only [Confirmer.tick, hstays, List.map_cons]
        exact e.proceed_onward i _ _
      rw [htick] at hcrew
      exact .inl ⟨_, hcrew, hd, List.getElem?_set_self hlt⟩
  · have hquiet : (d.run before).deedsOf i (.tick i) = [] := by
      have hown : (Label.tick i).worker? = some i := rfl
      rw [deedsOf, if_pos hown]
      rfl
    rw [deeds_append, hnone, List.nil_append, deeds, hquiet]
    rfl

theorem Passes.run {c : Confirmer} {visits : List Visit} (hl : Passes i visits labels)
    (hc : d.tracker.confirmer = some c)
    (hw : c.workers[i]? = some ⟨.idle, visits.map Visit.hash⟩) (hx : ∀ x ∈ visits, x.Credible) :
    (∃ activity, (d.run labels).Mans c.depth i
        ⟨activity, (visits.filter fun x => x.isOpen c.depth).map Visit.hash⟩ ∧
        (activity = .idle ∨ activity = .exited)) ∧
      d.deeds i labels = visits.flatMap (Visit.deeds c.depth) := by
  obtain ⟨before, after, rfl, hafter, hstands, hnone⟩ := hl.begins hc hw
  have hlast := hl.ends.right
  rw [run_append, deeds_append, hnone]
  rcases hstands with hgoes | ⟨rfl, hmans⟩
  · obtain ⟨⟨e, he, hd, hend⟩, hdone⟩ := hgoes.pass hx hafter hlast
    refine ⟨⟨e.resting, ⟨e, he, hd, hend⟩, ?_⟩, hdone⟩
    simp only [Confirmer.resting]
    cases e.stopping with
    | true => exact .inr rfl
    | false => exact .inl rfl
  · obtain rfl := eq_nil_of_own hafter hlast
    exact ⟨⟨.idle, hmans, .inl rfl⟩, rfl⟩

/-- An idle worker makes a pass over the hashes that it watches, in whatever else happens. It comes
to each once, in order, and does with it what that visit alone tells: exactly the hashes that are
final at the depth to reach are confirmed, exactly those whose receipt reports a revert fail, and the
others are kept in their order. On top of the same receipt a higher head or a smaller depth gives the
same report again. -/
theorem pass_decides_each_hash (d : Dispatch) (c : Confirmer) (i : Nat) (visits : List Visit)
    (labels : List Label) (hc : d.tracker.confirmer = some c)
    (hw : c.workers[i]? = some ⟨.idle, visits.map Visit.hash⟩)
    (hx : ∀ x ∈ visits, x.Credible) (hl : Passes i visits labels) :
    (∃ c' activity, (d.run labels).tracker.confirmer = some c' ∧
        c'.workers[i]? = some ⟨activity, (visits.filter fun x => x.isOpen c.depth).map Visit.hash⟩ ∧
        (activity = .idle ∨ activity = .exited)) ∧
      d.deeds i labels = visits.flatMap (Visit.deeds c.depth) ∧
      (∀ r, .tells r ∈ d.deeds i labels → .reported r ∈ (d.run labels).events) ∧
      (∀ g, .tells (.confirmed g) ∈ d.deeds i labels ↔ ∃ x ∈ visits, x.hash = g ∧
        ∃ r b h, x.receipt = .ok (some r) ∧ r.status ≠ some 0 ∧ r.block = some b ∧
          x.head = .ok h ∧ c.depth ≤ h - b) ∧
      (∀ g f, .tells (.failed g f) ∈ d.deeds i labels ↔ f = .reverted g ∧ ∃ x ∈ visits,
        x.hash = g ∧ ∃ r, x.receipt = .ok (some r) ∧ r.status = some 0) ∧
      ∀ x y : Visit, y.hash = x.hash → y.receipt = x.receipt →
        (∀ h, x.head = .ok h → ∃ h', y.head = .ok h' ∧ h ≤ h') → ∀ smaller ≤ c.depth, ∀ r,
          x.report? c.depth = some r → y.report? smaller = some r := by
  obtain ⟨⟨activity, ⟨e, he, -, hworker⟩, ha⟩, hdeeds⟩ := hl.run hc hw hx
  refine ⟨⟨e, activity, he, hworker, ha⟩, hdeeds, fun r hr => reported_of_tells hr,
    fun g => ?_, fun g f => ?_, ?_⟩
  · rw [hdeeds, List.mem_flatMap]
    simp only [Visit.tells_confirmed_iff]
  · rw [hdeeds, List.mem_flatMap]
    simp only [Visit.tells_failed_iff]
    constructor
    · rintro ⟨x, hx, rfl, hhash, hr⟩
      exact ⟨rfl, x, hx, hhash, hr⟩
    · rintro ⟨rfl, x, hx, hhash, hr⟩
      exact ⟨x, hx, rfl, hhash, hr⟩
  · intro x y hhash hreceipt hhead smaller hs r hr
    exact Visit.report?_of_later hhash hreceipt hhead hs hr

section Runs

/-- A hash that is deep enough, one whose receipt cannot be read, and one that was reverted. -/
def threeVisits : List Visit :=
  [⟨⟨1⟩, .ok (some ⟨some 7, some 1⟩), .ok 9⟩, ⟨⟨2⟩, .error (.timeout "receipt"), .ok 0⟩,
    ⟨⟨3⟩, .ok (some ⟨none, some 0⟩), .ok 0⟩]

def watchman : Confirmer where
  size := 1
  crew := 1
  interval := 1000
  depth := 2
  workers := [⟨.idle, threeVisits.map Visit.hash⟩]

/-- While the pass goes on, somebody reports of a hash that is watched, and the crew is told to stop. -/
def stoppedPass : List Label :=
  [.stop, .tick 0, .workerAnswer 0 (.ok (.receipt (some ⟨some 7, some 1⟩))), .report (.confirmed ⟨2⟩),
    .workerAnswer 0 (.ok (.amount 9)), .drain, .workerAnswer 0 (.error (.timeout "receipt")),
    .workerAnswer 0 (.ok (.receipt (some ⟨none, some 0⟩)))]

theorem pass_decides_each_hash_of_three :
    let d := fresh Sample.terms Sample.fees Sample.fees 4 { confirmer := some watchman }
    (∃ c activity, (d.run stoppedPass).tracker.confirmer = some c ∧
        c.workers[0]? = some ⟨activity, [⟨2⟩]⟩) ∧
      d.deeds 0 stoppedPass = [.asks (.receipt ⟨1⟩), .asks .head, .tells (.confirmed ⟨1⟩),
        .asks (.receipt ⟨2⟩), .asks (.receipt ⟨3⟩), .tells (.failed ⟨3⟩ (.reverted ⟨3⟩))] := by
  intro d
  have hx : ∀ x ∈ threeVisits, x.Credible := by
    simp [threeVisits, Visit.Credible, Visit.answers, Visit.block?, Except.map]
  have hends : EndsWith 0 stoppedPass := by
    intro l hl
    obtain rfl := Option.some.inj hl
    rfl
  have hl : Passes 0 threeVisits stoppedPass := ⟨rfl, hends⟩
  obtain ⟨⟨c, activity, hc, hw, -⟩, hdeeds, -⟩ :=
    pass_decides_each_hash d watchman 0 threeVisits stoppedPass rfl rfl hx hl
  exact ⟨⟨c, activity, hc, hw⟩, hdeeds⟩

end Runs

end Outbox.Dispatch
