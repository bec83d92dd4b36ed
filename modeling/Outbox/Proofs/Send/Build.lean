import Mathlib.Data.List.Induction
import Outbox.Proofs.Send.Findings

namespace Outbox

open Ledger Nonce

namespace Dispatch

variable {d d' e : Dispatch} {k : SendId} {s : Send} {f : Findings} {x : Label}

theorem learns_of_ne (hx : x.send? ≠ some k) : d.learns k x = {} := by
  cases x with
  | answer j a now =>
    have hj : j ≠ k := fun h => hx (congrArg some h)
    cases hs : d.sends.get? k <;> simp [learns, hs, hj]
  | turn j now =>
    have hj : j ≠ k := fun h => hx (congrArg some h)
    cases hs : d.sends.get? k <;> simp [learns, hs, hj]
  | _ => simp [learns]

/-- What was read of a cache is what the cache holds now. -/
structure Cached (d : Dispatch) (f : Findings) : Prop where
  tip : ∀ v, f.tip = some v → d.tip.cache.value = some v
  baseFee : ∀ v, f.baseFee = some v → d.baseFee.cache.value = some v

section Cached

variable {now : Int} {tip : Nat}

theorem value_of_fresh? {c : Fee.Cache} {v : Nat} (h : c.fresh? now = some v) :
    c.value = some v := by
  simp only [Fee.Cache.fresh?] at h
  split at h
  · exact h
  · simp at h

theorem look?_eq_some {c : Fee.Shared SendId} {v : Nat} :
    c.look? k now = some v ↔ c.hasTurn k = true ∧ c.cache.fresh? now = some v := by
  simp only [Fee.Shared.look?]
  split <;> simp [*]

theorem cached_nothing (d : Dispatch) : Cached d {} := by
  constructor <;> simp

theorem applyFees_shared (d : Dispatch) (kind : Fee.Kind) (k : SendId) (s : Send)
    (tip baseFee : Nat) : (d.applyFees k s tip baseFee).shared kind = d.shared kind :=
  (applyFees_elsewhere d k s tip baseFee).shared

theorem baseTurn_tip (d : Dispatch) (k : SendId) (s : Send) (tip : Nat) (now : Int) :
    (d.baseTurn k s tip now).tip = d.tip := by
  simp only [baseTurn]
  split
  · rfl
  · exact applyFees_shared _ .tip k s tip _

theorem baseTurn_cached (d : Dispatch) (k : SendId) (s : Send) (tip : Nat) (now : Int) :
    Cached (d.baseTurn k s tip now) { baseFee := d.baseFee.cache.fresh? now } := by
  refine ⟨by simp, fun v hv => ?_⟩
  have hfresh : d.baseFee.cache.fresh? now = some v := hv
  have hkept := applyFees_shared { d with baseFee := d.baseFee.leave k } .baseFee k s tip v
  simp only [baseTurn, hfresh]
  rw [show (Dispatch.applyFees _ k s tip v).baseFee = d.baseFee.leave k from hkept]
  exact value_of_fresh? hfresh

/-- A call that has read the tip and goes on to the base fee. -/
theorem askBase_cached (ht : d.tip.cache.value = some tip) (k : SendId) (s : Send) (now : Int) :
    Cached (d.askBase k s tip now) (d.tipThenBase k (some tip) now) := by
  refine ⟨fun v hv => ?_, fun v hv => ?_⟩
  · obtain rfl : tip = v := Option.some.inj hv
    have hkept : (d.askBase k s tip now).tip = d.tip := by
      simp only [askBase]
      split
      · exact baseTurn_tip { d with baseFee := d.baseFee.join k } k s tip now
      · rfl
    rw [hkept, ht]
  · obtain ⟨hturn, hfresh⟩ := look?_eq_some.mp hv
    simp only [askBase, if_pos hturn]
    exact (baseTurn_cached { d with baseFee := d.baseFee.join k } k s tip now).baseFee v hfresh

theorem tipTurn_cached (d : Dispatch) (k : SendId) (s : Send) (now : Int) :
    Cached (d.tipTurn k s now) (d.tipThenBase k (d.tip.cache.fresh? now) now) := by
  simp only [tipTurn]
  cases hf : d.tip.cache.fresh? now with
  | none => exact cached_nothing _
  | some tip =>
    have ht : ({ d with tip := d.tip.leave k } : Dispatch).tip.cache.value = some tip :=
      value_of_fresh? hf
    exact askBase_cached ht k s now

theorem askTip_cached (d : Dispatch) (k : SendId) (s : Send) (now : Int) :
    Cached (d.askTip k s now) (d.tipThenBase k ((d.tip.join k).look? k now) now) := by
  simp only [askTip, Fee.Shared.look?]
  split
  · exact tipTurn_cached { d with tip := d.tip.join k } k s now
  · exact cached_nothing _

theorem tipAnswered_cached (d : Dispatch) (k : SendId) (s : Send) (a : Except Failure Answer)
    (now : Int) : Cached (d.tipAnswered k s a now)
      (d.tipThenBase k (Fee.Kind.tip.ofAnswer a).toOption now) := by
  simp only [tipAnswered]
  cases Fee.Kind.tip.ofAnswer a with
  | error err => exact cached_nothing _
  | ok tip =>
    have ht : ({ d with tip := d.tip.finish k tip now } : Dispatch).tip.cache.value = some tip := rfl
    exact askBase_cached ht k s now

theorem baseAnswered_cached (d : Dispatch) (k : SendId) (s : Send) (tip : Nat)
    (a : Except Failure Answer) (now : Int) : Cached (d.baseAnswered k s tip a now)
      { baseFee := (Fee.Kind.baseFee.ofAnswer a).toOption } := by
  simp only [baseAnswered]
  cases Fee.Kind.baseFee.ofAnswer a with
  | error err => exact cached_nothing _
  | ok fee =>
    refine ⟨by simp, fun v hv => ?_⟩
    obtain rfl : fee = v := Option.some.inj hv
    have hkept :=
      applyFees_shared { d with baseFee := d.baseFee.finish k fee now } .baseFee k s tip fee
    rw [show (Dispatch.applyFees _ k s tip fee).baseFee = d.baseFee.finish k fee now from hkept]
    rfl

theorem cached_of_learns (h : d.learns k x = {}) (d' : Dispatch) : Cached d' (d.learns k x) := by
  rw [h]
  exact cached_nothing d'

theorem answer_cached (d : Dispatch) (k : SendId) (a : Except Failure Answer) (now : Int) :
    Cached (d.answer k a now) (d.learns k (.answer k a now)) := by
  cases hs : d.sends.get? k with
  | none => exact cached_of_learns (by simp [learns, hs]) _
  | some s =>
    obtain ⟨mode, signer, request, stage⟩ := s
    cases stage with
    | probe =>
      rcases a with err | ⟨n⟩ | ⟨h⟩ | ⟨hash⟩ | ⟨receipt⟩ | ⟨bytes⟩
      case ok.header =>
        simp only [learns, answer, hs, if_true, probed]
        split
        · have hread := askTip_cached d k ⟨mode, signer, request, .probe⟩ now
          exact ⟨hread.tip, hread.baseFee⟩
        · constructor <;> simp
      all_goals exact cached_of_learns (by simp [learns, hs]) _
    | tipAnswer =>
      simp only [learns, answer, hs, if_true]
      exact tipAnswered_cached d k _ a now
    | baseAnswer tip =>
      simp only [learns, answer, hs, if_true]
      exact baseAnswered_cached d k _ tip a now
    | estimate price =>
      rcases a with err | ⟨n⟩ | ⟨h⟩ | ⟨hash⟩ | ⟨receipt⟩ | ⟨bytes⟩
      case ok.amount =>
        simp only [learns, hs, if_true]
        constructor <;> simp
      all_goals exact cached_of_learns (by simp [learns, hs]) _
    | _ => exact cached_of_learns (by simp [learns, hs]) _

theorem turn_cached (d : Dispatch) (k : SendId) (now : Int) :
    Cached (d.turn k now) (d.learns k (.turn k now)) := by
  cases hs : d.sends.get? k with
  | none => exact cached_of_learns (by simp [learns, hs]) _
  | some s =>
    obtain ⟨mode, signer, request, stage⟩ := s
    cases stage with
    | tipTurn =>
      simp only [learns, turn, hs, if_true, Fee.Shared.look?]
      split
      · exact tipTurn_cached d k _ now
      · exact cached_nothing _
    | baseTurn tip =>
      simp only [learns, turn, hs, if_true, Fee.Shared.look?]
      split
      · exact baseTurn_cached d k _ tip now
      · exact cached_nothing _
    | _ => exact cached_of_learns (by simp [learns, hs]) _

/-- What a call reads of a cache in a step, the cache holds after it. -/
theorem step_cached (d : Dispatch) (k : SendId) (x : Label) : Cached (d.step x) (d.learns k x) := by
  by_cases hk : x.send? = some k
  · cases x with
    | answer j a now =>
      obtain rfl : j = k := Option.some.inj hk
      exact answer_cached d j a now
    | turn j now =>
      obtain rfl : j = k := Option.some.inj hk
      exact turn_cached d j now
    | _ => exact cached_of_learns (by simp [learns]) _
  · exact cached_of_learns (learns_of_ne hk) _

end Cached

/-- Whoever has delivered needs no number any more. -/
theorem deliver_not_plain {tx : Signed} {held : Reservation} {t : Send}
    (ht : (d.deliver k s tx held).sends.get? k = some t) : ¬t.stage.Plain := by
  have erased : ∀ {m : Keyed SendId Send}, (m.erase k).get? k = some t → False := by
    intro m hm
    rw [Keyed.get?_erase_self] at hm
    simp at hm
  have put : ∀ {m : Keyed SendId Send} (stage : Send.Stage), ¬stage.Plain →
      (m.put k { s with stage := stage }).get? k = some t → ¬t.stage.Plain := by
    intro m stage hstage hm
    rw [Keyed.get?_put_self] at hm
    obtain rfl := Option.some.inj hm
    exact hstage
  simp only [deliver] at ht
  split at ht
  · exact (erased ht).elim
  · exact put (.submit tx held) id ht
  · rcases handOver_cases d k s tx held with ⟨f, hf⟩ | ⟨o, hp, hw | hw⟩
    · rw [hf] at ht
      exact (erased ht).elim
    · rw [hw] at ht
      exact (erased ht).elim
    · rw [hw] at ht
      exact put (.settle tx.hash) id ht

/-- A call that has no number after a step is the one that had none before, and knows what it has
found out. -/
theorem BuildStep.known_after {t : Send} (h : BuildStep d k s f x d')
    (ht : d'.sends.get? k = some t) (hplain : t.stage.Plain) :
    t.mode = s.mode ∧ t.signer = s.signer ∧ t.request = s.request ∧ Known d.terms t f := by
  have ended : d'.sends.get? k ≠ none := by simp [ht]
  cases h with
  | waits stage _ hs hknown _ _ =>
    obtain rfl := Option.some.inj (hs.symm.trans ht)
    exact ⟨rfl, rfl, rfl, hknown⟩
  | fails err hs _ _ _ => exact absurd hs ended
  | dropped _ _ hs _ _ => exact absurd hs ended
  | unsigned _ _ _ _ _ _ hs _ _ => exact absurd hs ended
  | built e held a tx _ _ _ hd =>
    rw [hd] at ht
    exact absurd hplain (deliver_not_plain ht)

/-- A call without a number had none before. -/
theorem plain_of_step {t : Send} (hx : ∀ mode signer request, x ≠ .call k mode signer request)
    (ht : (d.step x).sends.get? k = some t) (hplain : t.stage.Plain) :
    ∃ s, d.sends.get? k = some s ∧ s.stage.Plain := by
  have same : d.step x = d → ∃ s, d.sends.get? k = some s ∧ s.stage.Plain := by
    intro hsame
    rw [hsame] at ht
    exact ⟨t, ht, hplain⟩
  have gone : ∀ {e : Dispatch}, Without e k (d.step x) →
      ∃ s, d.sends.get? k = some s ∧ s.stage.Plain := by
    intro e hw
    rw [hw.sends, Keyed.get?_erase_self] at ht
    simp at ht
  by_cases hk : x.send? = some k
  · cases x with
    | call j mode signer request =>
      obtain rfl : j = k := Option.some.inj hk
      exact absurd rfl (hx mode signer request)
    | answer j a now =>
      obtain rfl : j = k := Option.some.inj hk
      rcases answer_cases d j a now with
        ⟨-, h⟩ | ⟨s, hs, ⟨hp, -⟩ | ⟨tx, held, hst, h⟩ | ⟨price, gas, n, hst, -, -⟩⟩
      · exact same h
      · exact ⟨s, hs, hp⟩
      · cases a with
        | ok y => exact gone (h ▸ submitAnswered_ok d j tx held y)
        | error err => exact gone (h ▸ submitAnswered_error hst j err)
      · exact ⟨s, hs, hst ▸ trivial⟩
    | turn j now =>
      obtain rfl : j = k := Option.some.inj hk
      rcases turn_cases d j now with h | ⟨s, hs, hp, -⟩
      · exact same h
      · exact ⟨s, hs, hp⟩
    | poll j =>
      obtain rfl : j = k := Option.some.inj hk
      rcases poll_cases d j with h | ⟨s, hash, -, -, hw⟩
      · exact same h
      · exact gone hw
    | expire j =>
      obtain rfl : j = k := Option.some.inj hk
      rcases expire_cases d j with ⟨-, h⟩ | ⟨s, -, hw⟩
      · exact same h
      · exact gone hw
    | cancel j =>
      obtain rfl : j = k := Option.some.inj hk
      rcases cancel_cases d j with ⟨-, h⟩ | ⟨s, -, hw⟩
      · exact same h
      · exact gone hw
    | _ => simp [Label.send?] at hk
  · exact ⟨t, ((step_moves d x).sends k hk).symm.trans ht, hplain⟩

theorem Findings.add_assoc (f g h : Findings) : (f.add g).add h = f.add (g.add h) := by
  simp [Findings.add, Option.or_assoc]

theorem learned_append (d : Dispatch) (k : SendId) (labels : List Label) (x : Label) :
    d.learned k (labels ++ [x]) = (d.learned k labels).add ((d.run labels).learns k x) := by
  induction labels generalizing d with
  | nil => simp [learned, run, Findings.add]
  | cons y labels ih =>
    simp only [List.cons_append, learned, ih (d.step y)]
    rw [Findings.add_assoc]
    rfl

/-- At every point of a run, a call that has no number yet knows what it has found out. -/
theorem known_run (hs : d.sends.get? k = some s) (hknown : Known d.terms s {}) {labels : List Label}
    (hone : ∀ x ∈ labels, ∀ mode signer request, x ≠ .call k mode signer request) {t : Send}
    (ht : (d.run labels).sends.get? k = some t) (hplain : t.stage.Plain) :
    t.mode = s.mode ∧ t.signer = s.signer ∧ t.request = s.request ∧
      Known d.terms t (d.learned k labels) := by
  induction labels using List.reverseRec generalizing t with
  | nil =>
    obtain rfl := Option.some.inj (hs.symm.trans ht)
    exact ⟨rfl, rfl, rfl, hknown⟩
  | append_singleton labels x ih =>
    have hbefore : ∀ y ∈ labels, ∀ mode signer request, y ≠ .call k mode signer request :=
      fun y hy => hone y (List.mem_append_left _ hy)
    have hx : ∀ mode signer request, x ≠ .call k mode signer request :=
      hone x (List.mem_append_right _ List.mem_cons_self)
    have hlast : d.run (labels ++ [x]) = (d.run labels).step x := by simp [run]
    rw [hlast] at ht
    obtain ⟨u, hu, hup⟩ := plain_of_step hx ht hplain
    obtain ⟨hmode, hsigner, hrequest, hold⟩ := ih hbefore hu hup
    rw [learned_append]
    by_cases hk : x.send? = some k
    · have hterms := terms_run d labels
      rw [← hterms] at hold ⊢
      obtain ⟨hm, hg, hr, hnew⟩ := (step_builds hu hup hold hk).known_after ht hplain
      exact ⟨hm.trans hmode, hg.trans hsigner, hr.trans hrequest, hnew⟩
    · rw [(step_moves _ x).sends k hk] at ht
      obtain rfl := Option.some.inj (hu.symm.trans ht)
      rw [learns_of_ne hk, Findings.add_nothing]
      exact ⟨hmode, hsigner, hrequest, hold⟩

/-- A cap that does not fit is told, and costs no number. -/
theorem BuildStep.overflow (h : BuildStep d k s f x d') (hplain : s.stage.Plain) (hbig : ¬f.Fits) :
    ∃ message, d'.results = (k, .error (.failed (.build message))) :: d.results ∧
      d'.allocator = d.allocator := by
  cases h with
  | waits stage hstage _ hknown _ _ => exact absurd (hknown.fits hstage) hbig
  | fails err _ hresults hkept hwhy =>
    obtain ⟨message, rfl⟩ := hwhy hbig
    exact ⟨message, hresults, hkept⟩
  | dropped _ hknown _ _ _ => exact absurd (hknown.fits hplain) hbig
  | unsigned price _ _ _ hprice _ _ _ _ => exact absurd hprice.fits hbig
  | built _ _ _ _ _ _ htx _ => exact absurd htx.price.fits hbig

/-- The number that a call has got can go back, and the state is then as if it had not been taken:
the one that was there, or a new one with nothing issued. -/
theorem got_goes_back {a a' : Allocator} {who : Address} {held : Reservation}
    (hgot : Got a who k x held a') (hc : ∀ t, a.entries.get? who = some t → t.Canonical) :
    (a'.giveBack held).1 = .ok () ∧
      (a'.giveBack held).2.entries.get? who =
        some ((a.entries.get? who).getD (.start held.nonce held.generation)) ∧
      ∀ other, other ≠ who → a.Leaves (a'.giveBack held).2 other := by
  obtain ⟨n, hn, -⟩ := hgot
  -- either way the state has just issued the number that goes back
  have back : ∀ t : State, t.Canonical → held = ⟨who, t.assign.1, t.generation⟩ →
      a'.entries.get? who = some t.assign.2 → (a'.giveBack held).1 = .ok () ∧
        (a'.giveBack held).2.entries.get? who = some t := by
    rintro t ht rfl hrest
    have hgeneration := State.assign_generation t
    rw [Allocator.giveBack_of_resident hrest hgeneration ht.release_assign]
    exact ⟨rfl, Keyed.get?_put_self _ _ _⟩
  have hothers : ∀ other, other ≠ who → a.Leaves (a'.giveBack held).2 other := by
    intro other hw
    have hheld := Allocator.install_identity a who n
    have hleft := Allocator.install_leaves a n hw
    rw [hn] at hheld hleft
    have hsame : (a'.giveBack held).2.entries.get? other = a'.entries.get? other :=
      Allocator.get?_release_of_ne _ _ _ (hheld ▸ hw)
    have hnotices : (a'.giveBack held).2.evictions = a'.evictions :=
      Allocator.evictions_release _ _ _ _
    simp only [Allocator.Leaves, Allocator.Evicted, hsame, hnotices]
    exact hleft
  cases hs : a.entries.get? who with
  | none =>
    obtain ⟨hheld, hrest⟩ := Allocator.install_started hs n
    rw [hn] at hheld hrest
    obtain ⟨hok, hstate⟩ := back _ (State.canonical_start _ _) hheld hrest
    refine ⟨hok, ?_, hothers⟩
    rw [hstate, show held = _ from hheld]
    rfl
  | some t =>
    have hi := Allocator.install_issued hs n
    rw [hn] at hi
    obtain ⟨hok, hstate⟩ := back t (hc t hs) hi.reservation hi.rest
    exact ⟨hok, hstate, hothers⟩

/-- To deliver is to return the transaction only where nothing more is to be done with it. -/
theorem deliver_returns {tx y : Signed} {held q : Reservation}
    (hr : (d.deliver k s y q).results = (k, .ok (.built tx held)) :: d.results) :
    s.mode = .build ∧ y = tx ∧ q = held := by
  have longer : (k, .ok (.built tx held)) :: d.results ≠ d.results := List.cons_ne_self _ _
  simp only [deliver] at hr
  split at hr
  · next hmode =>
    simp only [finish, List.cons.injEq, Prod.mk.injEq, Except.ok.injEq, Send.Outcome.built.injEq,
      true_and, and_true] at hr
    exact ⟨hmode, hr⟩
  · exact absurd hr.symm longer
  · exfalso
    rcases handOver_cases d k s y q with ⟨err, hf⟩ | ⟨o, hp, hw | hw⟩
    · rw [hf] at hr
      simp [fail, finish] at hr
    · rw [hw] at hr
      simp [finish] at hr
    · obtain ⟨c, rfl, -⟩ := push_ok hp
      rw [hw] at hr
      exact longer hr.symm

/-- A transaction is returned only by the call that asked for no more than that. -/
theorem BuildStep.returned {tx : Signed} {held : Reservation} (h : BuildStep d k s f x d')
    (hr : d'.results = (k, .ok (.built tx held)) :: d.results) :
    s.mode = .build ∧ Describes d.terms s.signer s.request f held tx ∧
      Got d.allocator s.signer.address k x held d'.allocator := by
  have longer : d'.results ≠ d.results := by
    rw [hr]
    exact List.cons_ne_self _ _
  cases h with
  | waits _ _ _ _ hresults _ => exact absurd hresults longer
  | fails err _ hresults _ _ => simp [hresults] at hr
  | dropped _ _ _ hresults _ => exact absurd hresults longer
  | unsigned _ _ _ err _ _ _ hresults _ => simp [hresults] at hr
  | built e q a y hstill hgot htx hd =>
    subst hd
    rw [← hstill.results] at hr
    obtain ⟨hmode, rfl, rfl⟩ := deliver_returns (d := { e with allocator := a }) hr
    refine ⟨hmode, htx, ?_⟩
    simp only [deliver, hmode]
    exact hgot

/-- What becomes of a call at a point at which it has no number yet, when something happens to it;
by then it has found out `f`. -/
structure AsFound (d : Dispatch) (k : SendId) (s : Send) (f : Findings) (x : Label) : Prop where
  /-- Either it still leaves the allocator alone, whether it goes on or ends, or it takes its number,
  last of all, to deliver what was requested, or it cannot sign and gives the number back. -/
  builds : BuildStep d k s f x (d.step x)
  /-- A transaction that is returned is of that kind. -/
  returned : ∀ tx held, (d.step x).results = (k, .ok (.built tx held)) :: d.results →
    s.mode = .build ∧ Describes d.terms s.signer s.request f held tx ∧
      Got d.allocator s.signer.address k x held (d.step x).allocator
  /-- A cap that does not fit is told, and costs no number. -/
  overflow : ¬f.Fits →
    ∃ message, (d.step x).results = (k, .error (.failed (.build message))) :: d.results ∧
      (d.step x).allocator = d.allocator
  /-- What it has just read of a cache is what the cache holds. -/
  cached : Cached (d.step x) (d.learns k x)
  /-- A number that goes back leaves the state as if it had not been taken. -/
  undone : ∀ held a, Got d.allocator s.signer.address k x held a → (a.giveBack held).1 = .ok () ∧
    (a.giveBack held).2.entries.get? s.signer.address =
      some ((d.allocator.entries.get? s.signer.address).getD (.start held.nonce held.generation)) ∧
    ∀ other, other ≠ s.signer.address → d.allocator.Leaves (a.giveBack held).2 other

/-- A call does what it has found out to do, and nothing to the allocator before that, whatever has
happened before it began and whatever happens while it waits. The counter is endless: the last
number of 64 bits could not be given back (`State.release_last`). -/
theorem built_as_found (terms : Terms) (tip baseFee : Fee.Cache) (capacity : Nat)
    (tracker : Tracker) (earlier labels : List Label) (k : SendId) (mode : Send.Mode)
    (signer : Signer) (request : Request) (x : Label) (s : Send)
    (hnew : ((fresh terms { cache := tip } { cache := baseFee } capacity tracker).run
      earlier).sends.get? k = none)
    (hone : ∀ y ∈ labels, ∀ m g r, y ≠ .call k m g r)
    (hs : ((((fresh terms { cache := tip } { cache := baseFee } capacity tracker).run
      earlier).step (.call k mode signer request)).run labels).sends.get? k = some s)
    (hplain : s.stage.Plain) (hx : x.send? = some k) :
    let c := (fresh terms { cache := tip } { cache := baseFee } capacity tracker).run earlier
    let d := c.step (.call k mode signer request)
    let e := d.run labels
    d.allocator = c.allocator ∧ e.terms = terms ∧ s = ⟨mode, signer, request, s.stage⟩ ∧
      AsFound e k s (d.learned k (labels ++ [x])) x := by
  intro c d e
  have hcall : d = { c with sends := c.sends.put k ⟨mode, signer, request, .probe⟩ } := by
    have hfree : c.sends.has k = false := by simp [Keyed.has, c, hnew]
    simp [d, step, call, hfree]
  have hbegun : d.sends.get? k = some ⟨mode, signer, request, .probe⟩ := by
    rw [hcall]
    exact Keyed.get?_put_self _ _ _
  have hterms : e.terms = terms :=
    (terms_run d labels).trans ((step_moves c _).terms.trans (terms_run _ earlier))
  obtain ⟨hmode, hsigner, hrequest, hknown⟩ := known_run hbegun rfl hone hs hplain
  have hbuild : BuildStep e k s (d.learned k (labels ++ [x])) x (e.step x) := by
    rw [learned_append]
    rw [← terms_run d labels] at hknown
    exact step_builds hs hplain hknown hx
  have hcanonical : ∀ who t, e.allocator.entries.get? who = some t → t.Canonical := by
    have hrun : e = (fresh terms { cache := tip } { cache := baseFee } capacity tracker).run
        (earlier ++ .call k mode signer request :: labels) := by
      simp [e, d, c, run]
    intro who t ht
    rw [hrun] at ht
    exact canonical_run terms _ _ capacity tracker _ ht
  refine ⟨by rw [hcall], hterms, ?_, ?_⟩
  · obtain ⟨m, g, r, stage⟩ := s
    simp only at hmode hsigner hrequest
    rw [hmode, hsigner, hrequest]
  · exact {
      builds := hbuild
      returned := fun _ _ hr => hbuild.returned hr
      overflow := hbuild.overflow hplain
      cached := step_cached e k x
      undone := fun _ _ hgot => got_goes_back hgot (hcanonical _) }

/-- A probe of a block with a base fee, both caches filled, the gas estimated. -/
def inquiries : List Label :=
  [.answer 0 (.ok (.header ⟨10, some 7⟩)) 0, .answer 0 (.ok (.amount 3)) 0,
    .answer 0 (.ok (.header ⟨11, some 8⟩)) 0, .answer 0 (.ok (.amount 50000)) 0]

/-- The transaction pays at most the tip and twice the base fee that the cache holds, not the base
fee of the block probed. -/
theorem built_as_found_dynamic :
    let d := (fresh Sample.terms Sample.fees Sample.fees 4 {}).step
      (.call 0 .build Sample.signer { Sample.request with gasLimit := 0 })
    let e := (d.run inquiries).step (.answer 0 (.ok (.amount 5)) 0)
    ∃ tx, e.results = [(0, .ok (.built tx ⟨Sample.signer.address, 5, 1⟩))] ∧
      tx.tx.nonce = 5 ∧ tx.tx.price = .dynamic 19 3 ∧ tx.tx.gasLimit = 50000 := by
  have hone : ∀ y ∈ inquiries, ∀ m g r, y ≠ .call 0 m g r := by simp [inquiries]
  obtain ⟨-, -, -, hfound⟩ := built_as_found Sample.terms (.ofTtl 60) (.ofTtl 60) 4 {} [] inquiries 0
    .build Sample.signer { Sample.request with gasLimit := 0 } (.answer 0 (.ok (.amount 5)) 0) _
    rfl hone rfl trivial rfl
  obtain ⟨-, hdescribes, -⟩ := hfound.returned _ ⟨Sample.signer.address, 5, 1⟩ rfl
  refine ⟨_, rfl, hdescribes.nonce, ?_, ?_⟩
  · rfl
  · rfl

end Dispatch

end Outbox
