import Mathlib.Data.List.Induction
import Outbox.Proofs.Send.Effect

namespace Outbox

open Nonce

/-- A report that takes effect, and whether somebody waits for its hash when that is asked. -/
structure Callback where
  report : Report
  waited : Bool

def Callback.steps (c : Callback) : List Pending.Step :=
  match c.report with
  | .sent h => Pending.sentSteps h
  | .confirmed h | .failed h _ => .dropUnconfirmed h :: if c.waited then [] else [.dropSent h]

theorem Tracking.pending_settle (t : Tracking) (h : Hash) :
    (t.settle h).pending =
      t.pending.run (.dropUnconfirmed h :: if t.isWaiting h then [] else [.dropSent h]) := by
  cases hw : t.isWaiting h <;>
    simp [settle, hw, Pending.run, Pending.clearUnconfirmed, Pending.clearSent]

theorem Tracking.pending_report (t : Tracking) (a : Allocator) (r : Report) :
    (t.report a r).1.pending = t.pending.run (Callback.steps ⟨r, t.isWaiting r.hash⟩) := by
  cases r with
  | sent h => rfl
  | confirmed h => exact t.pending_settle h
  | failed h f =>
    cases hq : t.enqueued.get? h with
    | none =>
      simp only [report, onFailed_unrecorded hq]
      exact pending_settle _ h
    | some q =>
      simp only [report, onFailed_recorded hq]
      exact pending_settle _ h

namespace Pending

/-- An elementary step and the callback that takes it. -/
structure Act where
  callback : Callback
  step : Step

/-- All steps of callbacks that come one after the other. -/
def acts (calls : List Callback) : List Act := calls.flatMap fun c => c.steps.map (Act.mk c)

/-- What the two sets hold after these steps, if they were empty before. -/
def after (done : List Act) : Pending := ({} : Pending).run (done.map Act.step)

/-- The callback that reports `h` sent has begun. -/
def SentBegun (h : Hash) (done : List Act) : Prop := ∃ a ∈ done, a.callback.report = .sent h

/-- A callback that reports the end of `h` has begun after one that reports it sent. -/
def EndBegun (h : Hash) (done : List Act) : Prop :=
  ∃ before a, before ++ [a] <+: done ∧ SentBegun h before ∧
    a.callback.report.hash = h ∧ a.callback.report.isTerminal = true

/-- The last step is the first insertion made for `h`. -/
def HalfSent (h : Hash) (done : List Act) : Prop :=
  ∃ before c, done = before ++ [⟨c, .addSent h⟩] ∧ ¬SentBegun h before

variable {p : Pending} {h g : Hash} {calls : List Callback} {done before : List Act} {a : Act}
  {c : Callback} {s : Step}

theorem isSent_apply (p : Pending) (s : Step) (h : Hash) :
    (p.apply s).isSent h =
      match s with
      | .addSent g => decide (h = g) || p.isSent h
      | .dropSent g => decide (h ≠ g) && p.isSent h
      | _ => p.isSent h := by
  cases s with
  | addSent g => simp [apply, isSent]
  | dropSent g => exact isSent_clearSent p g h
  | addUnconfirmed g => rfl
  | dropUnconfirmed g => rfl

theorem isUnconfirmed_apply (p : Pending) (s : Step) (h : Hash) :
    (p.apply s).isUnconfirmed h =
      match s with
      | .addUnconfirmed g => decide (h = g) || p.isUnconfirmed h
      | .dropUnconfirmed g => decide (h ≠ g) && p.isUnconfirmed h
      | _ => p.isUnconfirmed h := by
  cases s with
  | addSent g => rfl
  | dropSent g => rfl
  | addUnconfirmed g => simp [apply, isUnconfirmed]
  | dropUnconfirmed g => exact isUnconfirmed_clearUnconfirmed p g h

theorem after_concat (done : List Act) (a : Act) :
    after (done ++ [a]) = (after done).apply a.step := by
  simp [after, run]

theorem sentBegun_concat :
    SentBegun h (done ++ [a]) ↔ SentBegun h done ∨ a.callback.report = .sent h := by
  simp [SentBegun, or_and_right, exists_or]

theorem endBegun_concat :
    EndBegun h (done ++ [a]) ↔ EndBegun h done ∨
      SentBegun h done ∧ a.callback.report.hash = h ∧ a.callback.report.isTerminal = true := by
  constructor
  · intro he
    obtain ⟨before, b, hpre, hsent, hend⟩ := he
    rcases List.prefix_concat_iff.mp hpre with heq | hpre
    · obtain ⟨rfl, heq⟩ := List.append_inj' heq rfl
      obtain rfl : b = a := by simpa using heq
      exact .inr ⟨hsent, hend⟩
    · exact .inl ⟨before, b, hpre, hsent, hend⟩
  · intro he
    obtain he | ⟨hsent, hend⟩ := he
    · obtain ⟨before, b, hpre, hsent, hend⟩ := he
      exact ⟨before, b, hpre.trans (List.prefix_append done [a]), hsent, hend⟩
    · exact ⟨done, a, List.prefix_rfl, hsent, hend⟩

theorem EndBegun.sentBegun (he : EndBegun h done) : SentBegun h done := by
  obtain ⟨before, a, hpre, ⟨b, hb, hsent⟩, -⟩ := he
  exact ⟨b, hpre.subset (List.mem_append_left [a] hb), hsent⟩

theorem acts_concat (calls : List Callback) (c : Callback) :
    acts (calls ++ [c]) = acts calls ++ c.steps.map (Act.mk c) := by
  simp [acts]

/-- The steps of a callback: two insertions, or one or two removals. -/
theorem steps_cases (c : Callback) :
    (∃ g, c.report = .sent g ∧ c.steps = [.addSent g, .addUnconfirmed g]) ∨
      ∃ g, c.report.hash = g ∧ c.report.isTerminal = true ∧
        (c.steps = [.dropUnconfirmed g] ∨ c.steps = [.dropUnconfirmed g, .dropSent g]) := by
  obtain ⟨r, w⟩ := c
  cases r with
  | sent g => exact .inl ⟨g, rfl, rfl⟩
  | confirmed g | failed g f =>
    refine .inr ⟨g, rfl, rfl, ?_⟩
    cases w
    · exact .inr rfl
    · exact .inl rfl

theorem report_of_insertion (hs : .addSent g ∈ c.steps ∨ .addUnconfirmed g ∈ c.steps) :
    c.report = .sent g := by
  rcases steps_cases c with ⟨j, hr, hst⟩ | ⟨j, -, -, hst | hst⟩
  · rw [hst] at hs
    obtain rfl : g = j := by simpa using hs
    exact hr
  · simp [hst] at hs
  · simp [hst] at hs

theorem step_of_callback (hd : done <+: acts calls) : ∀ a ∈ done, a.step ∈ a.callback.steps := by
  intro a ha
  obtain ⟨c, -, hc⟩ := List.mem_flatMap.mp (hd.subset ha)
  obtain ⟨s, hs, rfl⟩ := List.mem_map.mp hc
  exact hs

/-- Nothing is in one of the sets but what was reported sent. -/
theorem sentBegun_of_held (hd : ∀ a ∈ done, a.step ∈ a.callback.steps)
    (hheld : (after done).isSent h = true ∨ (after done).isUnconfirmed h = true) :
    SentBegun h done := by
  induction done using List.reverseRecOn with
  | nil => simp [after, run, isSent, isUnconfirmed] at hheld
  | append_singleton done a ih =>
    have hmem : a.step ∈ a.callback.steps := hd a (by simp)
    have hbefore := ih fun b hb => hd b (List.mem_append_left [a] hb)
    rw [after_concat, isSent_apply, isUnconfirmed_apply] at hheld
    apply sentBegun_concat.mpr
    obtain ⟨c, s⟩ := a
    cases s with
    | addSent g =>
      by_cases hg : h = g
      · subst hg
        exact .inr (report_of_insertion (.inl hmem))
      · exact .inl (hbefore (by simpa [hg] using hheld))
    | addUnconfirmed g =>
      by_cases hg : h = g
      · subst hg
        exact .inr (report_of_insertion (.inr hmem))
      · exact .inl (hbefore (by simpa [hg] using hheld))
    | dropSent g => exact .inl (hbefore (hheld.imp_left fun hs => (Bool.and_eq_true_iff.mp hs).2))
    | dropUnconfirmed g =>
      exact .inl (hbefore (hheld.imp_right fun hs => (Bool.and_eq_true_iff.mp hs).2))

theorem EndBegun.mono (he : EndBegun h before) (hp : before <+: done) : EndBegun h done := by
  obtain ⟨earlier, a, hpre, hend⟩ := he
  exact ⟨earlier, a, hpre.trans hp, hend⟩

theorem acts_prefix_concat (calls : List Callback) (c : Callback) :
    acts calls <+: acts (calls ++ [c]) := by
  rw [acts_concat]
  exact List.prefix_append _ _

theorem sentBegun_of_acts_concat (hs : SentBegun h (acts (calls ++ [c]))) :
    SentBegun h (acts calls) ∨ c.report = .sent h := by
  obtain ⟨a, ha, hr⟩ := hs
  rw [acts_concat] at ha
  rcases List.mem_append.mp ha with ha | ha
  · exact .inl ⟨a, ha, hr⟩
  · obtain ⟨s, -, rfl⟩ := List.mem_map.mp ha
    exact .inr hr

theorem endBegun_acts_concat (hs : SentBegun h (acts calls)) (hc : c.report.hash = h)
    (ht : c.report.isTerminal = true) : EndBegun h (acts (calls ++ [c])) := by
  have hsteps : ∃ s rest, c.steps = s :: rest := by
    rcases steps_cases c with ⟨g, -, hst⟩ | ⟨g, -, -, hst | hst⟩ <;> exact ⟨_, _, hst⟩
  obtain ⟨s, rest, hst⟩ := hsteps
  refine ⟨acts calls, ⟨c, s⟩, ?_, hs, hc, ht⟩
  rw [acts_concat, hst]
  exact ⟨rest.map (Act.mk c), by simp⟩

theorem isUnconfirmed_acts_concat :
    (after (acts (calls ++ [c]))).isUnconfirmed h =
      if c.report.hash = h then !c.report.isTerminal else (after (acts calls)).isUnconfirmed h := by
  have hrun : after (acts (calls ++ [c])) = (after (acts calls)).run c.steps := by
    simp [acts_concat, after, run, Function.comp_def]
  rw [hrun]
  rcases steps_cases c with ⟨g, hr, hst⟩ | ⟨g, hg, ht, hst⟩
  · by_cases hj : g = h
    · simp [hst, hr, run, isUnconfirmed_apply, Report.hash, Report.isTerminal, hj]
    · simp [hst, hr, run, isUnconfirmed_apply, Report.hash, hj, Ne.symm hj]
  · by_cases hj : g = h
    · rcases hst with hst | hst <;> simp [hst, hg, ht, run, isUnconfirmed_apply, hj]
    · rcases hst with hst | hst <;> simp [hst, hg, run, isUnconfirmed_apply, hj, Ne.symm hj]

/-- Between two callbacks, what was reported sent and has not come to its end is unconfirmed. -/
theorem isUnconfirmed_of_not_ended (hs : SentBegun h (acts calls))
    (hn : ¬EndBegun h (acts calls)) : (after (acts calls)).isUnconfirmed h = true := by
  induction calls using List.reverseRecOn with
  | nil => simp [acts, SentBegun] at hs
  | append_singleton calls c ih =>
    have hopen : ¬EndBegun h (acts calls) := fun he => hn (he.mono (acts_prefix_concat calls c))
    rw [isUnconfirmed_acts_concat]
    -- either `h` was sent before and the last callback does not end it, or the last one sends it
    rcases sentBegun_of_acts_concat hs with hs | hc
    · split
      next hg =>
        by_contra hend
        exact hn (endBegun_acts_concat hs hg (by simpa using hend))
      next => exact ih hs hopen
    · simp [hc, Report.hash, Report.isTerminal]

/-- Where a prefix of the steps of some callbacks stops. -/
inductive Moment : List Act → Prop
  | between (passed : List Callback) : Moment (acts passed)
  | sending (passed : List Callback) (c : Callback) (g : Hash) (hr : c.report = .sent g) :
      Moment (acts passed ++ [⟨c, .addSent g⟩])
  | ending (passed : List Callback) (c : Callback) (g : Hash) (hg : c.report.hash = g)
      (ht : c.report.isTerminal = true) : Moment (acts passed ++ [⟨c, .dropUnconfirmed g⟩])

theorem moment_reached (hd : done <+: acts calls) : Moment done := by
  induction calls using List.reverseRecOn with
  | nil =>
    obtain rfl : done = [] := List.prefix_nil.mp hd
    exact .between []
  | append_singleton calls c ih =>
    have hall := Moment.between (calls ++ [c])
    rw [acts_concat] at hd hall
    rcases steps_cases c with ⟨g, hr, hst⟩ | ⟨g, hg, ht, hst | hst⟩
    · rw [hst, List.map_cons, List.append_cons, List.map_cons, List.map_nil] at hd hall
      rcases List.prefix_concat_iff.mp hd with rfl | hd
      · exact hall
      rcases List.prefix_concat_iff.mp hd with rfl | hd
      · exact .sending calls c g hr
      · exact ih hd
    · rw [hst, List.map_cons, List.map_nil] at hd hall
      rcases List.prefix_concat_iff.mp hd with rfl | hd
      · exact hall
      · exact ih hd
    · rw [hst, List.map_cons, List.append_cons, List.map_cons, List.map_nil] at hd hall
      rcases List.prefix_concat_iff.mp hd with rfl | hd
      · exact hall
      rcases List.prefix_concat_iff.mp hd with rfl | hd
      · exact .ending calls c g hg ht
      · exact ih hd

theorem halfSent_of_settled (hd : done <+: acts calls) (hset : (after done).isSettled h = true)
    (hn : ¬EndBegun h done) : HalfSent h done := by
  obtain ⟨hsent, hopen⟩ : (after done).isSent h = true ∧ (after done).isUnconfirmed h = false := by
    simpa [isSettled] using hset
  have hbegun : SentBegun h done := sentBegun_of_held (step_of_callback hd) (.inl hsent)
  -- no end has begun, so that `h` was unconfirmed after the last callback that returned
  have hunended {passed : List Callback} (hp : acts passed <+: done)
      (hs : SentBegun h (acts passed)) : (after (acts passed)).isUnconfirmed h = true :=
    isUnconfirmed_of_not_ended hs fun he => hn (he.mono hp)
  cases moment_reached hd with
  | between passed => simp [hunended List.prefix_rfl hbegun] at hopen
  | sending passed c g hr =>
    rw [after_concat, isUnconfirmed_apply] at hopen
    by_cases hs : SentBegun h (acts passed)
    · simp [hunended (List.prefix_append _ _) hs] at hopen
    · obtain rfl : g = h := by simpa [hs, hr] using sentBegun_concat.mp hbegun
      exact ⟨acts passed, c, rfl, hs⟩
  | ending passed c g hg ht =>
    have hs : SentBegun h (acts passed) := by
      apply (sentBegun_concat.mp hbegun).resolve_right
      intro hr
      rw [show c.report = .sent h from hr] at ht
      exact Bool.false_ne_true ht
    have hne : h ≠ g := fun heq => hn (endBegun_concat.mpr (.inr ⟨hs, hg.trans heq.symm, ht⟩))
    rw [after_concat, isUnconfirmed_apply] at hopen
    simp [hne, hunended (List.prefix_append _ _) hs] at hopen

theorem HalfSent.settled (hd : done <+: acts calls) (hh : HalfSent h done) :
    (after done).isSettled h = true ∧ ¬EndBegun h done := by
  obtain ⟨before, c, rfl, hs⟩ := hh
  have hmem : ∀ a ∈ before, a.step ∈ a.callback.steps := fun a ha =>
    step_of_callback hd a (List.mem_append_left _ ha)
  have hopen : (after before).isUnconfirmed h = false := by
    by_contra hu
    exact hs (sentBegun_of_held hmem (.inr (by simpa using hu)))
  constructor
  · rw [after_concat, isSettled, isSent_apply, isUnconfirmed_apply]
    simp [hopen]
  · intro he
    rcases endBegun_concat.mp he with he | ⟨hs', -⟩
    · exact hs he.sentBegun
    · exact hs hs'

end Pending

namespace Dispatch

variable {d : Dispatch} {k : SendId} {h : Hash}

/-- A poll returns a hash exactly if no rejection is kept for it and it looks settled. -/
theorem poll_ok_iff (hw : d.Waits k h) :
    (d.poll k).results = (k, .ok (.hash h)) :: d.results ↔
      d.tracking.rejected.get? h = none ∧ d.tracking.pending.isSettled h = true := by
  obtain ⟨s, hs, hst⟩ := hw
  rw [poll_eq hs hst]
  cases hrej : d.tracking.rejected.get? h with
  | some f => simp [fail, finish]
  | none =>
    cases hset : d.tracking.pending.isSettled h with
    | true => simp [finish]
    | false => simp

end Dispatch

namespace Pending

/-- After any of the elementary steps of callbacks that come one after the other, a hash looks
settled before its end exactly if the step is the first insertion made for it, and so does a sender
that polls at that moment. -/
theorem settled_before_end_iff {calls : List Callback} {done : List Act} (hd : done <+: acts calls)
    (h : Hash) :
    (∀ (t : Tracking) (a : Allocator) (r : Report),
      (t.report a r).1.pending = t.pending.run (Callback.steps ⟨r, t.isWaiting r.hash⟩)) ∧
    ((after done).isSettled h = true ∧ ¬EndBegun h done ↔ HalfSent h done) ∧
    ∀ (d : Dispatch) (k : SendId), d.tracking.pending = after done → d.Waits k h →
      ((d.poll k).results = (k, .ok (.hash h)) :: d.results ∧ ¬EndBegun h done ↔
        d.tracking.rejected.get? h = none ∧ HalfSent h done) := by
  have hiff : (after done).isSettled h = true ∧ ¬EndBegun h done ↔ HalfSent h done :=
    ⟨fun ⟨hset, hn⟩ => halfSent_of_settled hd hset hn, fun hh => hh.settled hd⟩
  refine ⟨Tracking.pending_report, hiff, ?_⟩
  intro d k hp hw
  rw [Dispatch.poll_ok_iff hw, hp, and_assoc, hiff]

/-- The first transaction. -/
def firstHash : Hash := (Sample.signed 0).hash

/-- The report that it was sent, while its sender waits. -/
def firstSent : Callback := ⟨.sent firstHash, true⟩

/-- A send that waits for it, with these steps taken. -/
def seenAfter (done : List Act) : Dispatch :=
  let d := (Dispatch.fresh Sample.terms Sample.fees Sample.fees 4 {}).run (Sample.first 1 .sync 0)
  { d with tracking := { d.tracking with pending := after done } }

theorem waits_seenAfter (done : List Act) : (seenAfter done).Waits 1 firstHash := ⟨_, rfl, rfl⟩

theorem settled_before_end_iff_sent :
    acts [firstSent] <+: acts [firstSent] ∧ (seenAfter (acts [firstSent])).Waits 1 firstHash ∧
      ¬(((seenAfter (acts [firstSent])).poll 1).results = [(1, .ok (.hash firstHash))] ∧
        ¬EndBegun firstHash (acts [firstSent])) := by
  have hd : acts [firstSent] <+: acts [firstSent] := List.prefix_rfl
  refine ⟨hd, waits_seenAfter _, ?_⟩
  intro htold
  obtain ⟨-, before, c, heq, -⟩ := ((settled_before_end_iff hd firstHash).2.2
    (seenAfter (acts [firstSent])) 1 rfl (waits_seenAfter _)).mp htold
  have hlast := congrArg List.getLast? heq
  simp [acts, firstSent, Callback.steps, sentSteps] at hlast

/-- After the first step of the very first report the hash looks settled, and its sender is told
that the transaction has ended. -/
theorem settled_half_sent :
    [⟨firstSent, .addSent firstHash⟩] <+: acts [firstSent] ∧
      (after [⟨firstSent, .addSent firstHash⟩]).isSettled firstHash = true ∧
      ¬EndBegun firstHash [⟨firstSent, .addSent firstHash⟩] ∧
      ((seenAfter [⟨firstSent, .addSent firstHash⟩]).poll 1).results =
        [(1, .ok (.hash firstHash))] := by
  have hset : (after [⟨firstSent, .addSent firstHash⟩]).isSettled firstHash = true := by
    simp [after, run, apply, isSettled, isSent, isUnconfirmed]
  refine ⟨⟨[⟨firstSent, .addUnconfirmed firstHash⟩], rfl⟩, hset, ?_, ?_⟩
  · intro hend
    obtain ⟨before, a, hpre, ⟨b, hb, -⟩, -⟩ := hend
    have hlen := hpre.length_le
    obtain rfl : before = [] := by simpa using hlen
    simp at hb
  · exact (Dispatch.poll_ok_iff (waits_seenAfter _)).mpr ⟨rfl, hset⟩

end Pending
end Outbox
