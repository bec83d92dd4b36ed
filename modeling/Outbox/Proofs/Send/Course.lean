import Outbox.Proofs.Send.Secondary

namespace Outbox

open Nonce

def Span.inNanos (s : Span) : Nat := s.secs * 1000000000 + s.nanos

namespace Failure

/-- `g` is `f` with what is told of the number's return replaced by `release`, if there is a place
for it. -/
inductive RetoldAs (release : Option String) : Failure → Failure → Prop where
  | submission (message : String) (earlier : Option String) :
      RetoldAs release (.submission message earlier) (.submission message release)
  | enqueue (message : String) (earlier : Option String) :
      RetoldAs release (.enqueue message earlier) (.enqueue message release)
  | other (f : Failure) (h : ¬f.HasRoom) : RetoldAs release f f

theorem retoldAs_iff {f g : Failure} {release : Option Failure} :
    f.RetoldAs (release.map message) g ↔ g = f.withRelease release := by
  constructor
  · intro h
    cases h with
    | submission m r => rfl
    | enqueue m r => rfl
    | other f h =>
      cases f with
      | submission m r => exact absurd ⟨m, r, .inl rfl⟩ h
      | enqueue m r => exact absurd ⟨m, r, .inr rfl⟩ h
      | _ => rfl
  · rintro rfl
    cases f with
    | submission m r => exact .submission m r
    | enqueue m r => exact .enqueue m r
    | _ => exact .other _ (by simp [HasRoom])

end Failure

/-- What is told of how the return of `q` ends: nothing if it succeeds, and otherwise why it does
not. -/
inductive ReturnTold (a : Allocator) (q : Reservation) : Option String → Prop where
  | taken (h : (a.giveBack q).1 = .ok ()) : ReturnTold a q none
  | refused (e : Refusal) (h : (a.giveBack q).1 = .error e) :
      ReturnTold a q (some ("Nonce error for " ++ q.identity.text ++ ": " ++ e.message))

theorem returnTold_iff {a : Allocator} {q : Reservation} {release : Option String} :
    ReturnTold a q release ↔ release = (Tracking.releaseError a q).map Failure.message := by
  unfold Tracking.releaseError
  constructor
  · intro h
    cases h with
    | taken h =>
      rw [h]
      rfl
    | refused e h =>
      rw [h]
      rfl
  · rintro rfl
    cases h : (a.giveBack q).1 with
    | ok _ => exact .taken h
    | error e => exact .refused e h

/-- What the reports of a transaction, recorded with the number `q`, entitle its send to be told: the
first failure, if nothing was reported sent before it, together with how the number's return ended;
and otherwise the end of what was reported sent. -/
inductive Verdict (hash : Hash) (q : Reservation) (heard : List Moment) :
    Except Fault Send.Outcome → Prop where
  | refused (a : Allocator) (f g : Failure) (release : Option String) (h : Refused hash heard a f)
      (hr : ReturnTold a q release) (hg : f.RetoldAs release g) :
      Verdict hash q heard (.error (.failed g))
  | ended (hr : ∀ a f, ¬Refused hash heard a f)
      (h : Report.Ended hash (heard.map Moment.report)) : Verdict hash q heard (.ok (.hash hash))

theorem verdict_iff {hash : Hash} {q : Reservation} {heard : List Moment}
    {R : Except Fault Send.Outcome} : Verdict hash q heard R ↔ Ruling hash q heard R := by
  constructor
  · intro h
    cases h with
    | refused a f g release h hr hg =>
      obtain rfl := returnTold_iff.mp hr
      obtain rfl := Failure.retoldAs_iff.mp hg
      exact .refused a f h
    | ended hr h => exact .ended hr h
  · intro h
    cases h with
    | refused a f h =>
      exact .refused a f _ _ h (returnTold_iff.mpr rfl) (Failure.retoldAs_iff.mpr rfl)
    | ended hr h => exact .ended hr h

namespace Dispatch

/-- Something that happens, and how many nanoseconds after the hand-over. -/
structure Happening where
  time : Nat
  label : Label

/-- What happens while send `k` waits, in the order of time, from `now` on. The send itself looks when
its timer is due, which is then set to one period later; when it is due only after the patience is
over, the send does not wait for it and gives up. -/
inductive Course (k : SendId) (period patience : Nat) : Nat → Nat → List Happening → Prop where
  | aside {due now : Nat} {x : Happening} {course : List Happening} (hx : x.label.send? ≠ some k)
      (hnow : now ≤ x.time) (hdue : x.time ≤ due) (hover : x.time ≤ patience)
      (h : Course k period patience due x.time course) :
      Course k period patience due now (x :: course)
  | look {due now : Nat} {course : List Happening} (hnow : now ≤ due) (hover : due ≤ patience)
      (h : Course k period patience (due + period) due course) :
      Course k period patience due now (⟨due, .poll k⟩ :: course)
  | lapses {due now : Nat} (hnow : now ≤ patience) (hdue : patience < due) :
      Course k period patience due now [⟨patience, .expire k⟩]

/-- Send `k` looks at `time`, and these happen before. -/
def Look (k : SendId) (time : Nat) (earlier course : List Happening) : Prop :=
  ∃ later, course = earlier ++ ⟨time, .poll k⟩ :: later

section Timing

variable {k : SendId} {period patience due now time : Nat} {x : Happening}
  {earlier course : List Happening}

theorem look_cons : Look k time earlier (x :: course) ↔
    (earlier = [] ∧ x = ⟨time, .poll k⟩) ∨ ∃ rest, earlier = x :: rest ∧ Look k time rest course := by
  constructor
  · rintro ⟨later, h⟩
    cases earlier with
    | nil => exact .inl ⟨rfl, (List.cons.inj h).1⟩
    | cons y rest =>
      obtain ⟨rfl, hrest⟩ := List.cons.inj h
      exact .inr ⟨rest, rfl, later, hrest⟩
  · rintro (⟨rfl, rfl⟩ | ⟨rest, rfl, later, rfl⟩)
    · exact ⟨course, rfl⟩
    · exact ⟨later, rfl⟩

theorem look_aside (hx : x.label.send? ≠ some k) : Look k time earlier (x :: course) ↔
    ∃ rest, earlier = x :: rest ∧ Look k time rest course := by
  rw [look_cons]
  refine or_iff_right ?_
  rintro ⟨-, rfl⟩
  exact hx rfl

namespace Course

theorem now_le (h : Course k period patience due now course) :
    ∀ x ∈ course, now ≤ x.time := by
  induction h with
  | aside _ hnow _ _ _ ih =>
    intro y hy
    rcases List.mem_cons.mp hy with rfl | hy
    · exact hnow
    · exact Nat.le_trans hnow (ih y hy)
  | look hnow _ _ ih =>
    intro y hy
    rcases List.mem_cons.mp hy with rfl | hy
    · exact hnow
    · exact Nat.le_trans hnow (ih y hy)
  | lapses hnow _ =>
    intro y hy
    rw [List.mem_singleton.mp hy]
    exact hnow

theorem ordered (h : Course k period patience due now course) :
    course.Pairwise fun x y => x.time ≤ y.time := by
  induction h with
  | aside _ _ _ _ h ih => exact List.pairwise_cons.mpr ⟨h.now_le, ih⟩
  | look _ _ h ih => exact List.pairwise_cons.mpr ⟨h.now_le, ih⟩
  | lapses _ _ => exact List.pairwise_singleton _ _

/-- What happens earlier than a look comes before it, and nothing later does. -/
theorem around_look (h : Course k period patience due now course) (hl : Look k time earlier course) :
    ∀ x ∈ course, (x.time < time → x ∈ earlier) ∧ (x ∈ earlier → x.time ≤ time) := by
  obtain ⟨later, rfl⟩ := hl
  obtain ⟨-, htail, hcross⟩ := List.pairwise_append.mp h.ordered
  have hafter := (List.pairwise_cons.mp htail).1
  intro x hx
  refine ⟨fun hlt => ?_, fun hmem => hcross x hmem _ List.mem_cons_self⟩
  rcases List.mem_append.mp hx with hx | hx
  · exact hx
  · rcases List.mem_cons.mp hx with rfl | hx
    · exact absurd hlt (Nat.lt_irrefl _)
    · exact absurd hlt (Nat.not_lt.mpr (hafter x hx))

/-- The looks are one period apart, the first when it is due, and go on until the patience is over. -/
theorem look_iff (h : Course k period patience due now course) (time : Nat) :
    (∃ earlier, Look k time earlier course) ↔ time ≤ patience ∧ ∃ j, time = due + j * period := by
  induction h with
  | @aside due now x course hx hnow hdue hover h ih =>
    rw [← ih]
    constructor
    · rintro ⟨earlier, hl⟩
      obtain ⟨rest, -, hl⟩ := (look_aside hx).mp hl
      exact ⟨rest, hl⟩
    · rintro ⟨rest, hl⟩
      exact ⟨x :: rest, (look_aside hx).mpr ⟨rest, rfl, hl⟩⟩
  | @look due now course hnow hover h ih =>
    constructor
    · rintro ⟨earlier, hl⟩
      rcases look_cons.mp hl with ⟨-, heq⟩ | ⟨rest, -, hl⟩
      · obtain rfl : due = time := (Happening.mk.inj heq).1
        exact ⟨hover, 0, by omega⟩
      · obtain ⟨hle, j, rfl⟩ := ih.mp ⟨rest, hl⟩
        exact ⟨hle, j + 1, by rw [Nat.succ_mul]; omega⟩
    · rintro ⟨hle, j, rfl⟩
      cases j with
      | zero => exact ⟨[], course, by simp⟩
      | succ j =>
        have hnext : due + (j + 1) * period = due + period + j * period := by
          rw [Nat.succ_mul]
          omega
        obtain ⟨rest, hl⟩ := ih.mpr ⟨hle, j, hnext⟩
        exact ⟨_, look_cons.mpr (.inr ⟨rest, rfl, hl⟩)⟩
  | @lapses due now hnow hdue =>
    constructor
    · rintro ⟨earlier, hl⟩
      rcases look_cons.mp hl with ⟨-, heq⟩ | ⟨rest, -, later, hl⟩
      · exact absurd (Happening.mk.inj heq).2 (by simp)
      · simp at hl
    · rintro ⟨hle, j, rfl⟩
      omega

/-- There is one look at a time. -/
theorem look_unique (h : Course k period patience due now course) (hp : 0 < period)
    {before : List Happening} (hl : Look k time earlier course) (hb : Look k time before course) :
    earlier = before := by
  induction h generalizing earlier before with
  | aside hx _ _ _ _ ih =>
    obtain ⟨rest, rfl, hrest⟩ := (look_aside hx).mp hl
    obtain ⟨others, rfl, hothers⟩ := (look_aside hx).mp hb
    rw [ih hrest hothers]
  | @look due _ course _ _ h ih =>
    have hlater : ∀ {rest}, Look k due rest course → False := fun hr => by
      obtain ⟨-, j, hj⟩ := (h.look_iff due).mp ⟨_, hr⟩
      omega
    rcases look_cons.mp hl with ⟨rfl, heq⟩ | ⟨rest, rfl, hrest⟩
    · obtain rfl : due = time := (Happening.mk.inj heq).1
      rcases look_cons.mp hb with ⟨rfl, -⟩ | ⟨_, -, hothers⟩
      · rfl
      · exact absurd hothers hlater
    · rcases look_cons.mp hb with ⟨-, heq⟩ | ⟨others, rfl, hothers⟩
      · obtain rfl : due = time := (Happening.mk.inj heq).1
        exact absurd hrest hlater
      · rw [ih hrest hothers]
  | lapses _ _ =>
    rcases look_cons.mp hl with ⟨-, heq⟩ | ⟨_, -, later, hl⟩
    · exact absurd (Happening.mk.inj heq).2 (by simp)
    · simp at hl

end Course

end Timing

variable {d : Dispatch} {k : SendId} {hash : Hash} {q : Reservation} {heard : List Moment}
  {period patience due now : Nat} {earlier course : List Happening}

/-- The dispatch after these. -/
def after (d : Dispatch) (course : List Happening) : Dispatch := d.run (course.map Happening.label)

/-- What is reported meanwhile. -/
def heardIn (d : Dispatch) (course : List Happening) : List Moment :=
  d.momentsOver (course.map Happening.label)

theorem after_cons (d : Dispatch) (x : Happening) (course : List Happening) :
    d.after (x :: course) = (d.step x.label).after course := rfl

theorem heardIn_cons (d : Dispatch) (x : Happening) (course : List Happening) :
    d.heardIn (x :: course) = (d.step x.label).heardIn course ++ d.momentsOf x.label := rfl

/-- What `heard` and the reports meanwhile entitle send `k` to be told is still open, so that its look
changes nothing. -/
structure Vain (d : Dispatch) (k : SendId) (hash : Hash) (q : Reservation) (heard : List Moment)
    (earlier : List Happening) : Prop where
  unruled : ∀ R, ¬Ruling hash q (d.heardIn earlier ++ heard) R
  unmoved : (d.after earlier).step (.poll k) = d.after earlier

theorem Vain.cons {x : Happening}
    (h : (d.step x.label).Vain k hash q (d.momentsOf x.label ++ heard) earlier) :
    d.Vain k hash q heard (x :: earlier) := by
  refine ⟨fun R hR => ?_, h.unmoved⟩
  rw [heardIn_cons, List.append_assoc] at hR
  exact h.unruled R hR

theorem Attends.vain (h : Attends d k hash q heard) (hr : ∀ R, ¬Ruling hash q heard R) :
    d.Vain k hash q heard [] :=
  ⟨hr, h.unmoved hr⟩

/-- How the wait ends: some look is the first at which the reports rule, or none is and the patience
ends it. -/
inductive Outcome (d : Dispatch) (k : SendId) (hash : Hash) (q : Reservation) (heard : List Moment)
    (patience : Nat) (course : List Happening) : Prop where
  | learns (time : Nat) (earlier : List Happening) (hl : Look k time earlier course)
      (hvain : ∀ t before, t < time → Look k t before course → d.Vain k hash q heard before)
      (hr : ∃ R, Ruling hash q (d.heardIn earlier ++ heard) R)
      (h : Attends (d.after earlier) k hash q (d.heardIn earlier ++ heard))
  | lapses (earlier : List Happening) (hl : course = earlier ++ [⟨patience, .expire k⟩])
      (hvain : ∀ t before, Look k t before course → d.Vain k hash q heard before)
      (h : Attends (d.after earlier) k hash q (d.heardIn earlier ++ heard))

/-- A happening at which send `k` learns nothing belongs before whatever ends the wait. -/
theorem Outcome.cons {x : Happening}
    (hx : ∀ time, x = ⟨time, .poll k⟩ → d.Vain k hash q heard [])
    (h : (d.step x.label).Outcome k hash q (d.momentsOf x.label ++ heard) patience course) :
    d.Outcome k hash q heard patience (x :: course) := by
  have hsame : ∀ earlier, d.heardIn (x :: earlier) ++ heard =
      (d.step x.label).heardIn earlier ++ (d.momentsOf x.label ++ heard) := fun earlier => by
    rw [heardIn_cons, List.append_assoc]
  cases h with
  | learns time earlier hl hvain hr h =>
    refine .learns time (x :: earlier) (look_cons.mpr (.inr ⟨earlier, rfl, hl⟩)) ?_ ?_ ?_
    · intro t before ht hbefore
      rcases look_cons.mp hbefore with ⟨rfl, heq⟩ | ⟨rest, rfl, hrest⟩
      · exact hx t heq
      · exact (hvain t rest ht hrest).cons
    · rw [hsame]
      exact hr
    · rw [hsame]
      exact h
  | lapses earlier hl hvain h =>
    refine .lapses (x :: earlier) (by rw [hl]; rfl) ?_ ?_
    · intro t before hbefore
      rcases look_cons.mp hbefore with ⟨rfl, heq⟩ | ⟨rest, rfl, hrest⟩
      · exact hx t heq
      · exact (hvain t rest hrest).cons
    · rw [hsame]
      exact h

/-- By induction on the course: the send attends to its transaction from each happening to the
next. -/
theorem Attends.outcome (h : Attends d k hash q heard)
    (hc : Course k period patience due now course)
    (hn : Unoffered hash d.events (d.after course).events) :
    d.Outcome k hash q heard patience course := by
  induction hc generalizing d heard with
  | @aside due now x course hx hnow hdue hover hc ih =>
    have hold := (step_moves d x.label).events
    have hnew := (run_moves (d.step x.label) (course.map Happening.label)).2
    have hother : ∀ l ∈ [x.label], l.send? ≠ some k := by simpa using hx
    have hstep : Attends (d.step x.label) k hash q (d.momentsOf x.label ++ heard) :=
      h.run hother (hn.within List.suffix_rfl hnew)
    refine (ih hstep (hn.within hold List.suffix_rfl)).cons ?_
    rintro time rfl
    exact absurd rfl hx
  | @look due now course hnow hover hc ih =>
    by_cases hr : ∃ R, Ruling hash q heard R
    · refine .learns due [] ⟨course, rfl⟩ (fun t before ht hbefore => ?_) hr h
      -- the first look of the course is the one that is due
      obtain ⟨-, j, rfl⟩ := ((Course.look hnow hover hc).look_iff t).mp ⟨before, hbefore⟩
      omega
    · have hvain := h.vain fun R hR => hr ⟨R, hR⟩
      have hstill : d.step (.poll k) = d := hvain.unmoved
      have hcourse : d.after (⟨due, .poll k⟩ :: course) = d.after course := by
        rw [after_cons, hstill]
      rw [hcourse] at hn
      refine Outcome.cons (fun _ _ => hvain) ?_
      rw [hstill]
      exact ih h hn
  | @lapses due now hnow hdue =>
    refine .lapses [] rfl (fun t before hbefore => ?_) h
    have hc : Course k period patience due now [⟨patience, .expire k⟩] := .lapses hnow hdue
    obtain ⟨hle, j, rfl⟩ := (hc.look_iff t).mp ⟨before, hbefore⟩
    omega

/-- Send `k` looks after these, finds nothing decided and changes nothing. -/
structure LooksInVain (d : Dispatch) (k : SendId) (hash : Hash) (q : Reservation)
    (earlier : List Happening) : Prop where
  undecided : ∀ R, ¬Verdict hash q (d.heardIn earlier) R
  unmoved : (d.after earlier).step (.poll k) = d.after earlier

/-- Send `k` looks after these and is told what has been decided. -/
structure Learns (d : Dispatch) (k : SendId) (hash : Hash) (q : Reservation)
    (earlier : List Happening) : Prop where
  decided : ∃ R, Verdict hash q (d.heardIn earlier) R
  told : ∀ R, Verdict hash q (d.heardIn earlier) R →
    Tells (d.after earlier) k R ((d.after earlier).step (.poll k))

theorem Vain.looksInVain (h : d.Vain k hash q [] earlier) : d.LooksInVain k hash q earlier := by
  refine ⟨fun R hR => h.unruled R ?_, h.unmoved⟩
  rw [List.append_nil]
  exact verdict_iff.mp hR

theorem Attends.learns (h : Attends (d.after earlier) k hash q (d.heardIn earlier))
    (hr : ∃ R, Ruling hash q (d.heardIn earlier) R) : d.Learns k hash q earlier := by
  obtain ⟨R, hR⟩ := hr
  exact ⟨⟨R, verdict_iff.mpr hR⟩, fun R hR => h.tells (verdict_iff.mp hR)⟩

/-- How the wait ends, in the words of the caller. -/
theorem Attends.decided (h : Attends d k hash q [])
    (hc : Course k period patience due now course)
    (hn : Unoffered hash d.events (d.after course).events) :
    (∃ time earlier, Look k time earlier course ∧ d.Learns k hash q earlier ∧
        ∀ t before, t < time → Look k t before course → d.LooksInVain k hash q before) ∨
      (∃ earlier, course = earlier ++ [⟨patience, .expire k⟩] ∧ (d.after earlier).Waits k hash) ∧
        ∀ t before, Look k t before course → d.LooksInVain k hash q before := by
  cases h.outcome hc hn with
  | learns time earlier hl hvain hr h =>
    rw [List.append_nil] at hr h
    exact .inl ⟨time, earlier, hl, h.learns hr, fun t before ht hb =>
      (hvain t before ht hb).looksInVain⟩
  | lapses earlier hl hvain h =>
    exact .inr ⟨⟨earlier, hl, h.waits⟩, fun t before hb => (hvain t before hb).looksInVain⟩

/-- A send hands over a transaction of whose hash nobody has heard, and nobody else uses that hash. It
looks at once and then every poll interval until its patience is over, and what happened earlier has
taken effect by then. At the first look at which the reports decide what it is entitled to be told, it
is told that, whatever is reported later; if they never do, it gives up. -/
theorem first_ruling_told (terms : Terms) (tip baseFee : Fee.Shared SendId) (capacity : Nat)
    (tracker : Tracker) (labels : List Label) (l : Label) (k : SendId) (hash : Hash) (n : Nat)
    (course : List Happening)
    (he : (((fresh terms tip baseFee capacity tracker).run labels).step l).events =
      .enqueued hash n :: ((fresh terms tip baseFee capacity tracker).run labels).events)
    (hk : (((fresh terms tip baseFee capacity tracker).run labels).step l).Waits k hash)
    (honly : ∀ j, ¬((fresh terms tip baseFee capacity tracker).run labels).Waits j hash)
    (hnew : ∀ r ∈ reports ((fresh terms tip baseFee capacity tracker).run labels).events,
      r.hash ≠ hash)
    (hc : Course k (terms.pollInterval * 1000000) terms.patience.inNanos 0 0 course)
    (hn : Unoffered hash (((fresh terms tip baseFee capacity tracker).run labels).step l).events
      ((((fresh terms tip baseFee capacity tracker).run labels).step l).after course).events) :
    let d := ((fresh terms tip baseFee capacity tracker).run labels).step l
    ∃ q, d.tracking.enqueued.get? hash = some q ∧
      (∀ more, reports (d.run more).events =
        (d.momentsOver more).map Moment.report ++ reports d.events) ∧
      (∀ time, (∃ earlier, Look k time earlier course) ↔
        time ≤ terms.patience.inNanos ∧ ∃ j, time = j * (terms.pollInterval * 1000000)) ∧
      (∀ time earlier, Look k time earlier course →
        ∀ x ∈ course, (x.time < time → x ∈ earlier) ∧ (x ∈ earlier → x.time ≤ time)) ∧
      ((∃ time earlier, Look k time earlier course ∧ d.Learns k hash q earlier ∧
          ∀ t before, t < time → Look k t before course → d.LooksInVain k hash q before) ∨
        (∃ earlier, course = earlier ++ [⟨terms.patience.inNanos, .expire k⟩] ∧
            (d.after earlier).GivesUp k hash terms.patience) ∧
          ∀ t before, Look k t before course → d.LooksInVain k hash q before) := by
  intro d
  obtain ⟨q, hq, hattends⟩ :=
    attends_handOver terms tip baseFee capacity tracker labels he hk honly hnew
  refine ⟨q, hq, reports_run d, fun time => ?_, fun time earlier => hc.around_look, ?_⟩
  · have hiff := hc.look_iff time
    simp only [Nat.zero_add] at hiff
    exact hiff
  · rcases hattends.decided hc hn with hlearns | ⟨⟨earlier, hl, hwaits⟩, hvain⟩
    · exact .inl hlearns
    · refine .inr ⟨⟨earlier, hl, ?_⟩, hvain⟩
      have hterms : (d.after earlier).terms = terms :=
        (terms_run d _).trans ((step_moves _ l).terms.trans (terms_run _ labels))
      have hgives := hwaits.givesUp
      rw [hterms] at hgives
      exact hgives

section Runs

/-- Two looks, at once and after 2 ms, before 3 ms are over. -/
def hasty : Dispatch := fresh ⟨1, 5, .ofMillis 3, 2⟩ Sample.fees Sample.fees 4 {}

def underpriced : Failure := .submission "underpriced" (some "not released")

/-- After the first look the next number of the signer is set, so that the first number cannot go back
when the transaction is refused. It is reported sent and confirmed all the same. -/
def resetAndRefused : List Happening :=
  [⟨0, .poll 1⟩, ⟨500000, .reset Sample.signer.address 0⟩,
    ⟨1000000, .report (.failed (Sample.signed 0).hash underpriced)⟩,
    ⟨1500000, .report (.sent (Sample.signed 0).hash)⟩,
    ⟨1500000, .report (.confirmed (Sample.signed 0).hash)⟩,
    ⟨2000000, .poll 1⟩, ⟨3000000, .expire 1⟩]

theorem course_resetAndRefused : Course 1 2000000 3000000 0 0 resetAndRefused := by
  apply Course.look (by decide) (by decide)
  apply Course.aside (by simp [Label.send?]) (by decide) (by decide) (by decide)
  apply Course.aside (by simp [Label.send?]) (by decide) (by decide) (by decide)
  apply Course.aside (by simp [Label.send?]) (by decide) (by decide) (by decide)
  apply Course.aside (by simp [Label.send?]) (by decide) (by decide) (by decide)
  apply Course.look (by decide) (by decide)
  exact Course.lapses (by decide) (by decide)

/-- The send is told of the refusal, and that its number has not come back. -/
theorem refusal_told_with_stale_return :
    let d := (hasty.run (Sample.begin 1 .sync)).step (.answer 1 (.ok (.amount 0)) 0)
    let hash := (Sample.signed 0).hash
    let earlier := resetAndRefused.take 5
    d.events = [.enqueued hash 0] ∧ d.Waits 1 hash ∧
      Course 1 2000000 3000000 0 0 resetAndRefused ∧ Look 1 2000000 earlier resetAndRefused ∧
      d.LooksInVain 1 hash ⟨Sample.signer.address, 0, 1⟩ [] ∧
      ((d.after earlier).step (.poll 1)).results = [(1, .error (.failed (.submission "underpriced"
        (some ("Nonce error for " ++ Sample.signer.address.text ++ ": stale release of 0: state was " ++
          "re-synchronized or reset since allocation")))))] := by
  intro d hash earlier
  have hevents : d.events = [.enqueued hash 0] := rfl
  have hwaits : d.Waits 1 hash := ⟨_, rfl, rfl⟩
  have honly : ∀ j, ¬(hasty.run (Sample.begin 1 .sync)).Waits j hash := by
    rintro j ⟨s, hs, hst⟩
    have hs' : (if 1 = j then some (⟨.sync, Sample.signer, Sample.request,
      .number (.legacy 5) 21000⟩ : Send) else none) = some s := hs
    split at hs'
    · obtain rfl := Option.some.inj hs'
      simp at hst
    · simp at hs'
  have hquiet : Unoffered hash d.events (d.after resetAndRefused).events := by
    apply unoffered_run
    simp [resetAndRefused, Label.isPassive]
  have hrec : d.tracking.enqueued.get? hash = some ⟨Sample.signer.address, 0, 1⟩ :=
    Keyed.get?_put_self [] _ _
  obtain ⟨q, hq, -, hlooks, -, hcases⟩ := first_ruling_told ⟨1, 5, .ofMillis 3, 2⟩ Sample.fees
    Sample.fees 4 {} (Sample.begin 1 .sync) (.answer 1 (.ok (.amount 0)) 0) 1 hash 0 resetAndRefused
    rfl hwaits honly (fun r hr => absurd hr List.not_mem_nil) course_resetAndRefused hquiet
  obtain rfl : ⟨Sample.signer.address, 0, 1⟩ = q := Option.some.inj (hrec.symm.trans hq)
  have hsecond : Look 1 2000000 earlier resetAndRefused := ⟨[⟨3000000, .expire 1⟩], rfl⟩
  have hstay : d.step (.poll 1) = d := rfl
  let e := d.step (.reset Sample.signer.address 0)
  have hrefused : Refused hash (d.heardIn earlier) e.allocator underpriced := by
    show Refused hash ((d.step (.poll 1)).heardIn (earlier.drop 1) ++ []) _ _
    rw [hstay]
    exact ⟨[⟨_, .confirmed _⟩, ⟨_, .sent _⟩], [], rfl, by simp [Unanswered]⟩
  have hstate : e.allocator.entries.get? Sample.signer.address = some ⟨0, [], 2⟩ := rfl
  have hreturn : (e.allocator.giveBack ⟨Sample.signer.address, 0, 1⟩).1 = .error (.stale 0) := by
    simp [Allocator.giveBack, Allocator.release, hstate]
  have hverdict : Verdict hash ⟨Sample.signer.address, 0, 1⟩ (d.heardIn earlier)
      (.error (.failed (.submission "underpriced" (some ("Nonce error for " ++
        Sample.signer.address.text ++ ": " ++ (Refusal.stale 0).message))))) :=
    .refused e.allocator underpriced _ _ hrefused (.refused (.stale 0) hreturn) (.submission _ _)
  have hopen : ∀ R, ¬Verdict hash ⟨Sample.signer.address, 0, 1⟩ (d.heardIn []) R := fun R hR =>
    not_ruling (fun x hx => absurd hx List.not_mem_nil) R (verdict_iff.mp hR)
  have hnone : (d.after earlier).results = [] := by
    show ((d.step (.poll 1)).after (earlier.drop 1)).results = []
    rw [hstay]
    show (((e.report _).report _).report _).results = []
    rw [report_eq, report_eq, report_eq]
    rfl
  have hlearns : d.Learns 1 hash ⟨Sample.signer.address, 0, 1⟩ earlier := by
    rcases hcases with ⟨time, before, hl, hlearns, -⟩ | ⟨-, hvain⟩
    · obtain ⟨hle, j, rfl⟩ := (course_resetAndRefused.look_iff time).mp ⟨before, hl⟩
      obtain rfl | rfl : j = 0 ∨ j = 1 := by omega
      · obtain rfl : before = [] := course_resetAndRefused.look_unique (by decide) hl ⟨_, rfl⟩
        obtain ⟨R, hR⟩ := hlearns.decided
        exact absurd hR (hopen R)
      · obtain rfl : before = earlier := course_resetAndRefused.look_unique (by decide) hl hsecond
        exact hlearns
    · exact absurd hverdict ((hvain 2000000 earlier hsecond).undecided _)
  refine ⟨hevents, hwaits, course_resetAndRefused, hsecond, ⟨hopen, hstay⟩, ?_⟩
  rw [← hnone]
  exact (hlearns.told _ hverdict).results

end Runs

end Dispatch
end Outbox
