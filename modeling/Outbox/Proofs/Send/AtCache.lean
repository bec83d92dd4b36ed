import Outbox.Proofs.Fee.Session
import Outbox.Proofs.Send.Frame

namespace Outbox

open Ledger Nonce

/-- Where a send in this stage stands at a cache. -/
def Send.Stage.standing : Send.Stage → Fee.Kind → Fee.Standing
  | .tipTurn, .tip => .waiting
  | .tipAnswer, .tip => .asking
  | .baseTurn _, .baseFee => .waiting
  | .baseAnswer _, .baseFee => .asking
  | _, _ => .away

namespace Dispatch

open Fee (Session)

def shared (d : Dispatch) : Fee.Kind → Fee.Shared SendId
  | .tip => d.tip
  | .baseFee => d.baseFee

def setShared (d : Dispatch) (x : Fee.Shared SendId) : Fee.Kind → Dispatch
  | .tip => { d with tip := x }
  | .baseFee => { d with baseFee := x }

def standing (d : Dispatch) (kind : Fee.Kind) (k : SendId) : Fee.Standing :=
  match d.sends.get? k with
  | none => .away
  | some s => s.stage.standing kind

/-- `u` is a session at this cache of `d`: the sends stand there as its callers do. -/
structure SessionAt (kind : Fee.Kind) (c : Fee.Cache) (d : Dispatch) (u : Session SendId) :
    Prop where
  sound : u.Sound kind c
  shared : u.shared = d.shared kind
  standing : ∀ j, Fee.standing j u.log = d.standing kind j

/-- The same while send `k` is on its way: it stands at `st`, whatever its stage still says. -/
structure Passing (kind : Fee.Kind) (c : Fee.Cache) (d : Dispatch) (k : SendId) (st : Fee.Standing)
    (u : Session SendId) : Prop where
  sound : u.Sound kind c
  shared : u.shared = d.shared kind
  own : Fee.standing k u.log = st
  others : ∀ j, j ≠ k → Fee.standing j u.log = d.standing kind j

variable {kind : Fee.Kind} {c : Fee.Cache} {d d' e : Dispatch} {k : SendId} {s : Send}
  {st : Fee.Standing} {u : Session SendId}

theorem shared_setShared (d : Dispatch) (x : Fee.Shared SendId) (kind : Fee.Kind) :
    (d.setShared x kind).shared kind = x := by
  cases kind <;> rfl

theorem standing_setShared (d : Dispatch) (x : Fee.Shared SendId) (kind : Fee.Kind) (j : SendId) :
    (d.setShared x kind).standing kind j = d.standing kind j := by
  cases kind <;> rfl

theorem standing_of_get? (hs : d.sends.get? k = some s) :
    d.standing kind k = s.stage.standing kind := by
  simp only [standing, hs]

theorem standing_congr {j : SendId} (h : d'.sends.get? j = d.sends.get? j) :
    d'.standing kind j = d.standing kind j := by
  simp only [standing, h]

theorem SessionAt.passing (h : SessionAt kind c d u) (hs : d.sends.get? k = some s) :
    Passing kind c d k (s.stage.standing kind) u :=
  ⟨h.sound, h.shared, (h.standing k).trans (standing_of_get? hs), fun j _ => h.standing j⟩

theorem SessionAt.congr (h : SessionAt kind c d u) (hshared : d'.shared kind = d.shared kind)
    (hsends : ∀ j, d'.sends.get? j = d.sends.get? j) : SessionAt kind c d' u :=
  ⟨h.sound, h.shared.trans hshared.symm, fun j =>
    (h.standing j).trans (standing_congr (hsends j)).symm⟩

namespace Passing

/-- Send `k` has come to rest where it stands. -/
theorem rest (h : Passing kind c d k st u) (hshared : d'.shared kind = d.shared kind)
    (hk : d'.standing kind k = st) (ho : ∀ j, j ≠ k → d'.sends.get? j = d.sends.get? j) :
    SessionAt kind c d' u := by
  refine ⟨h.sound, h.shared.trans hshared.symm, fun j => ?_⟩
  by_cases hj : j = k
  · subst hj
    exact h.own.trans hk.symm
  · exact (h.others j hj).trans (standing_congr (ho j hj)).symm

theorem congr (h : Passing kind c d k st u) (hshared : d'.shared kind = d.shared kind)
    (hsends : d'.sends = d.sends) : Passing kind c d' k st u :=
  ⟨h.sound, h.shared.trans hshared.symm, h.own, fun j hj =>
    (h.others j hj).trans (standing_congr (by rw [hsends])).symm⟩

/-- A deed of send `k` at the cache. -/
theorem act (deed : Fee.Deed SendId) (h : Passing kind c d k st u) {x : Session.Act SendId}
    {y : Fee.Shared SendId} (hlog : (u.step kind x).log = deed :: u.log) (hk : deed.caller = k)
    (hy : (u.step kind x).shared = y) :
    Passing kind c (d.setShared y kind) k deed.leaves (u.step kind x) := by
  refine ⟨h.sound.step x, hy.trans (shared_setShared d y kind).symm, ?_, fun j hj => ?_⟩
  · rw [hlog, Fee.standing, if_pos hk]
  · rw [hlog, Fee.standing, if_neg (fun heq => hj (heq.symm.trans hk)), standing_setShared]
    exact h.others j hj

theorem come (h : Passing kind c d k .away u) :
    Passing kind c (d.setShared ((d.shared kind).join k) kind) k .waiting
      (u.step kind (.come k)) := by
  have hk : k ∉ u.shared.line := fun hm => (h.sound.line k).mp hm h.own
  rw [← h.shared]
  refine h.act (.came k) ?_ rfl ?_
  · simp only [Session.step, if_neg hk]
  · simp only [Session.step, if_neg hk]

theorem unasked (h : Passing kind c d k .waiting u) : k ∉ u.asking := fun ha => by
  have hask := (h.sound.asking k).mp ha
  rw [h.own] at hask
  simp at hask

theorem served (h : Passing kind c d k .waiting u) (hturn : (d.shared kind).hasTurn k = true)
    {now : Int} {v : Nat} (hv : (d.shared kind).cache.fresh? now = some v) :
    Passing kind c (d.setShared ((d.shared kind).leave k) kind) k .away
      (u.step kind (.look k now)) := by
  rw [← h.shared] at hturn hv ⊢
  refine h.act (.served k now v) ?_ rfl ?_
  · simp only [Session.step, if_pos (And.intro hturn h.unasked), hv]
  · simp only [Session.step, if_pos (And.intro hturn h.unasked), hv]

theorem asks (h : Passing kind c d k .waiting u) (hturn : (d.shared kind).hasTurn k = true)
    {now : Int} (hnone : (d.shared kind).cache.fresh? now = none) :
    Passing kind c d k .asking (u.step kind (.look k now)) := by
  rw [← h.shared] at hturn hnone
  have hasked : Passing kind c (d.setShared u.shared kind) k .asking (u.step kind (.look k now)) := by
    refine h.act (.asked k now kind.query) ?_ rfl ?_
    · simp only [Session.step, if_pos (And.intro hturn h.unasked), hnone]
    · simp only [Session.step, if_pos (And.intro hturn h.unasked), hnone]
  refine hasked.congr ?_ (by cases kind <;> rfl)
  rw [shared_setShared, h.shared]

/-- The query brought nothing. -/
theorem refused (h : Passing kind c d k .asking u) {a : Except Failure Answer} {f : Failure}
    (ha : kind.ofAnswer a = .error f) (now : Int) :
    Passing kind c (d.setShared ((d.shared kind).leave k) kind) k .away
      (u.step kind (.answer k a now)) := by
  have hk : k ∈ u.asking := (h.sound.asking k).mpr h.own
  rw [← h.shared]
  refine h.act (.answered k a now (.error f)) ?_ rfl ?_
  · simp only [Session.step, if_pos hk, ha]
  · simp only [Session.step, if_pos hk, ha]

theorem brought (h : Passing kind c d k .asking u) {a : Except Failure Answer} {v : Nat}
    (ha : kind.ofAnswer a = .ok v) (now : Int) :
    Passing kind c (d.setShared ((d.shared kind).finish k v now) kind) k .away
      (u.step kind (.answer k a now)) := by
  have hk : k ∈ u.asking := (h.sound.asking k).mpr h.own
  rw [← h.shared]
  refine h.act (.answered k a now (.ok v)) ?_ rfl ?_
  · simp only [Session.step, if_pos hk, ha]
  · simp only [Session.step, if_pos hk, ha]

/-- Wherever it stands, a send that goes away leaves the line. -/
theorem leave (h : Passing kind c d k st u) :
    Passing kind c (d.setShared ((d.shared kind).leave k) kind) k .away
      (u.step kind (.leave k)) := by
  rw [← h.shared]
  by_cases ha : k ∈ u.asking
  · refine h.act (.abandoned k) ?_ rfl ?_
    · simp only [Session.step, if_pos ha]
    · simp only [Session.step, if_pos ha]
  · by_cases hk : k ∈ u.shared.line
    · refine h.act (.left k) ?_ rfl ?_
      · simp only [Session.step, if_neg ha, if_pos hk]
      · simp only [Session.step, if_neg ha, if_pos hk]
    · have hstep : u.step kind (.leave k) = u := by simp only [Session.step, if_neg ha, if_neg hk]
      have haway : Fee.standing k u.log = .away := by
        by_contra hne
        exact hk ((h.sound.line k).mpr hne)
      have hline : u.shared.leave k = u.shared := by
        have hall : u.shared.line.filter (· ≠ k) = u.shared.line :=
          List.filter_eq_self.mpr fun j hj => by simpa using fun heq : j = k => hk (heq ▸ hj)
        simp only [Fee.Shared.leave, hall]
      rw [hstep, hline]
      exact ⟨h.sound, (shared_setShared _ _ _).symm, haway, fun j hj =>
        (h.others j hj).trans (standing_setShared _ _ _ _).symm⟩

end Passing

/-- From `d` to `d'` send `k` does nothing at this cache, and no other send does anything. -/
structure Elsewhere (kind : Fee.Kind) (k : SendId) (d d' : Dispatch) : Prop where
  shared : d'.shared kind = d.shared kind
  standing : d'.standing kind k = .away
  others : ∀ j, j ≠ k → d'.sends.get? j = d.sends.get? j

theorem Passing.elsewhere (h : Passing kind c d k .away u) (he : Elsewhere kind k d d') :
    SessionAt kind c d' u :=
  h.rest he.shared he.standing he.others

/-- Equal in what sends share of fees, and in the sends. -/
structure SameFees (d e : Dispatch) : Prop where
  tip : e.tip = d.tip
  baseFee : e.baseFee = d.baseFee
  sends : e.sends = d.sends

theorem SameFees.shared (h : SameFees d e) (kind : Fee.Kind) : e.shared kind = d.shared kind := by
  cases kind with
  | tip => exact h.tip
  | baseFee => exact h.baseFee

theorem elsewhere_gone (htip : d'.tip = d.tip) (hbase : d'.baseFee = d.baseFee)
    (hsends : d'.sends = d.sends.erase k) : Elsewhere kind k d d' := by
  refine ⟨?_, ?_, fun j hj => ?_⟩
  · cases kind with
    | tip => exact htip
    | baseFee => exact hbase
  · simp only [standing, hsends, Keyed.get?_erase_self]
  · rw [hsends, Keyed.get?_erase, if_neg hj]

theorem elsewhere_finish (h : SameFees d e) (r : Except Fault Send.Outcome) :
    Elsewhere kind k d (e.finish k r) :=
  elsewhere_gone h.tip h.baseFee (congrArg (·.erase k) h.sends)

theorem elsewhere_setStage (h : SameFees d e) {stage : Send.Stage}
    (haway : stage.standing kind = .away) (s : Send) :
    Elsewhere kind k d (e.setStage k s stage) := by
  refine ⟨Eq.trans (by cases kind <;> rfl) (h.shared kind), ?_, fun j hj => ?_⟩
  · rw [standing_of_get? (show (e.sends.put k _).get? k = some _ from Keyed.get?_put_self _ _ _)]
    exact haway
  · show (e.sends.put k _).get? j = d.sends.get? j
    rw [Keyed.get?_put, if_neg hj, h.sends]

/-- A send that comes to rest in a stage stands at the cache as the stage says. -/
theorem Passing.setStage (h : Passing kind c d k st u) (s : Send) {stage : Send.Stage}
    (hst : stage.standing kind = st) : SessionAt kind c (d.setStage k s stage) u := by
  refine h.rest (by cases kind <;> rfl) ?_ fun j hj => ?_
  · rw [standing_of_get? (show (d.sends.put k _).get? k = some _ from Keyed.get?_put_self _ _ _)]
    exact hst
  · show (d.sends.put k _).get? j = d.sends.get? j
    rw [Keyed.get?_put, if_neg hj]

theorem giveBack_elsewhere (d : Dispatch) (k : SendId) (held : Reservation) (f : Failure) :
    Elsewhere kind k d ({ d with allocator := (d.allocator.giveBack held).2 }.fail k f) := by
  refine elsewhere_finish ?_ _
  exact ⟨rfl, rfl, rfl⟩

theorem handOver_elsewhere (d : Dispatch) (k : SendId) (s : Send) (tx : Signed)
    (held : Reservation) : Elsewhere kind k d (d.handOver k s tx held) := by
  rcases handOver_cases d k s tx held with ⟨f, hf⟩ | ⟨o', hp, hw | hw⟩
  · rw [hf]
    refine elsewhere_finish ?_ _
    exact ⟨rfl, rfl, rfl⟩
  · obtain ⟨c, rfl, _⟩ := push_ok hp
    rw [hw]
    refine elsewhere_finish ?_ _
    exact ⟨rfl, rfl, rfl⟩
  · obtain ⟨c, rfl, _⟩ := push_ok hp
    rw [hw]
    refine elsewhere_setStage ?_ (by rfl) s
    exact ⟨rfl, rfl, rfl⟩

theorem Elsewhere.of_allocator {a : Allocator} (h : Elsewhere kind k { d with allocator := a } d') :
    Elsewhere kind k d d' :=
  ⟨h.shared.trans (by cases kind <;> rfl), h.standing, h.others⟩

theorem sign_elsewhere (d : Dispatch) (k : SendId) (s : Send) (price : Price) (gas : Nat)
    (held : Reservation) : Elsewhere kind k d (d.sign k s price gas held) := by
  rcases sign_cases d k s price gas held with ⟨f, hf⟩ | ⟨tx, -, -, ht⟩
  · rw [hf]
    exact giveBack_elsewhere d k held f
  · rw [ht]
    simp only [deliver]
    split
    · exact elsewhere_finish ⟨rfl, rfl, rfl⟩ _
    · exact elsewhere_setStage ⟨rfl, rfl, rfl⟩ rfl s
    · exact handOver_elsewhere d k s tx held

theorem askNumber_elsewhere (d : Dispatch) (k : SendId) (s : Send) (price : Price) (gas : Nat) :
    Elsewhere kind k d (d.askNumber k s price gas) := by
  simp only [askNumber]
  split
  · exact elsewhere_setStage ⟨rfl, rfl, rfl⟩ rfl s
  · exact (sign_elsewhere _ k s price gas _).of_allocator

theorem askGas_elsewhere (d : Dispatch) (k : SendId) (s : Send) (price : Price) :
    Elsewhere kind k d (d.askGas k s price) := by
  simp only [askGas]
  split
  · exact elsewhere_setStage ⟨rfl, rfl, rfl⟩ rfl s
  · exact askNumber_elsewhere d k s price _

theorem applyFees_elsewhere (d : Dispatch) (k : SendId) (s : Send) (tip baseFee : Nat) :
    Elsewhere kind k d (d.applyFees k s tip baseFee) := by
  simp only [applyFees]
  split
  · exact elsewhere_finish ⟨rfl, rfl, rfl⟩ _
  · exact askGas_elsewhere d k s _

end Dispatch

end Outbox
