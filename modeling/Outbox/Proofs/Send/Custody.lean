import Outbox.Proofs.Confirmer
import Outbox.Proofs.Send.Holdings
import Outbox.Proofs.Tracking

namespace Outbox

open Nonce

/-- A transaction that was offered to the tracker. -/
structure HandOver where
  hash : Hash
  sender : Address
  number : Nat
deriving DecidableEq

def Signed.handOver (tx : Signed) : HandOver := ⟨tx.hash, tx.sender, tx.tx.nonce⟩

/-- The record of a hash, if it is of `who`. -/
def recordOf (records : Keyed Hash Reservation) (who : Address) (hash : Hash) : List Reservation :=
  match records.get? hash with
  | some r => r.mine who
  | none => []

/-- What the records hold of `who`. -/
def deposited (records : Keyed Hash Reservation) (who : Address) : List Reservation :=
  records.flatMap fun e => e.2.mine who

/-- The records of `who`, hash and number. -/
def noted (records : Keyed Hash Reservation) (who : Address) : List (Hash × Nat) :=
  records.flatMap fun e => (e.2.mine who).map fun r => (e.1, r.nonce)

/-- The transactions of `who`, hash and number. -/
def due (txs : List Signed) (who : Address) : List (Hash × Nat) :=
  (txs.filter fun tx => tx.sender = who).map fun tx => (tx.hash, tx.tx.nonce)

section Records

variable {records : Keyed Hash Reservation} {who : Address} {hash : Hash} {r : Reservation}

theorem mem_mine {q : Reservation} : q ∈ r.mine who ↔ r.identity = who ∧ q = r := by
  simp only [Reservation.mine]
  split <;> simp [*]

theorem deposited_perm (hd : records.Distinct) (who : Address) (hash : Hash) :
    (deposited records who).Perm
      (recordOf records who hash ++ deposited (records.erase hash) who) := by
  simp only [recordOf]
  cases hr : records.get? hash with
  | none =>
    rw [Keyed.erase_of_get?_none hr]
    exact .refl _
  | some r => exact (Keyed.perm_of_get? hd hr).flatMap_right _

theorem noted_perm (hd : records.Distinct) (who : Address) (hash : Hash) :
    (noted records who).Perm
      ((recordOf records who hash).map (fun r => (hash, r.nonce)) ++
        noted (records.erase hash) who) := by
  simp only [recordOf]
  cases hr : records.get? hash with
  | none =>
    rw [Keyed.erase_of_get?_none hr]
    exact .refl _
  | some r => exact (Keyed.perm_of_get? hd hr).flatMap_right _

theorem map_snd_noted (records : Keyed Hash Reservation) (who : Address) :
    (noted records who).map Prod.snd = (deposited records who).map (·.nonce) := by
  simp only [noted, deposited]
  rw [List.map_flatMap, List.map_flatMap]
  simp only [List.map_map]
  rfl

theorem map_snd_due (txs : List Signed) (who : Address) :
    (due txs who).map Prod.snd = numbersFrom who txs := by
  simp only [due, numbersFrom]
  rw [List.map_map]
  rfl

theorem recordOf_subset (h : r ∈ recordOf records who hash) :
    records.get? hash = some r ∧ r.identity = who := by
  simp only [recordOf] at h
  split at h
  · next q hq =>
    obtain ⟨hw, rfl⟩ := mem_mine.mp h
    exact ⟨hq, hw⟩
  · simp at h

theorem mem_deposited (h : records.get? hash = some r) (hw : r.identity = who) :
    r ∈ deposited records who :=
  List.mem_flatMap.mpr ⟨(hash, r), Keyed.mem_of_get? h, mem_mine.mpr ⟨hw, rfl⟩⟩

theorem get?_of_mem_noted (hd : records.Distinct) {n : Nat} (h : (hash, n) ∈ noted records who) :
    ∃ r, records.get? hash = some r ∧ r.identity = who ∧ r.nonce = n := by
  obtain ⟨⟨j, r⟩, he, hm⟩ := List.mem_flatMap.mp h
  obtain ⟨q, hq, heq⟩ := List.mem_map.mp hm
  obtain ⟨hw, rfl⟩ := mem_mine.mp hq
  obtain ⟨rfl, rfl⟩ := Prod.mk.inj heq
  exact ⟨q, Keyed.get?_of_mem hd he, hw, rfl⟩

theorem due_cons (tx : Signed) (txs : List Signed) (who : Address) :
    due (tx :: txs) who = due [tx] who ++ due txs who := by
  simp only [due]
  by_cases hw : tx.sender = who <;> simp [hw]

theorem numbersFrom_cons (tx : Signed) (txs : List Signed) (who : Address) :
    numbersFrom who (tx :: txs) = numbersFrom who [tx] ++ numbersFrom who txs := by
  simp only [numbersFrom]
  by_cases hw : tx.sender = who <;> simp [hw]

end Records

/-- The allocator after the record of `hash`, if there is one, has given its number back. -/
def returned (a : Allocator) (records : Keyed Hash Reservation) (hash : Hash) : Allocator :=
  match records.get? hash with
  | none => a
  | some r => (a.giveBack r).2

theorem Tracking.allocator_onFailed (t : Tracking) (a : Allocator) (hash : Hash) (f : Failure) :
    (t.onFailed a hash f).2 = returned a t.enqueued hash := by
  simp only [returned]
  cases hq : t.enqueued.get? hash with
  | none => rw [onFailed_unrecorded hq]
  | some r => rw [onFailed_recorded hq]

/-- Where the numbers of `who` are while transactions are handed over; `all` are those ever handed
over, `jobs` those not yet submitted. A watched hash has its number spent, and a hash that is to be
watched is of nobody here. -/
structure Custody (who : Address) (all : List HandOver) (start? : Option Nat)
    (accepted : List Signed) (hand : List Reservation) (a : Allocator) (sends : Keyed SendId Send)
    (records : Keyed Hash Reservation) (jobs : List Signed) (watched tracks : List Hash) : Prop where
  holdings : Holdings who start? (numbersFrom who accepted) (hand ++ deposited records who) a sends
  distinct : records.Distinct
  named : ∀ hash r, records.get? hash = some r → ⟨hash, r.identity, r.nonce⟩ ∈ all
  jobsNamed : ∀ tx ∈ jobs, tx.handOver ∈ all
  matched : (noted records who).Perm (due jobs who)
  watched : ∀ hash ∈ watched, ∀ x ∈ all, x.hash = hash → x.sender = who →
    x.number ∈ numbersFrom who accepted
  tracked : ∀ hash ∈ tracks, ∀ x ∈ all, x.hash ≠ hash

namespace Custody

variable {who : Address} {all : List HandOver} {start? : Option Nat} {accepted : List Signed}
  {hand : List Reservation} {a a' : Allocator} {sends sends' : Keyed SendId Send}
  {records : Keyed Hash Reservation} {jobs jobs' : List Signed} {watched watched' : List Hash}
  {tracks tracks' : List Hash} {hash : Hash} {r : Reservation} {tx : Signed}

theorem of_jobs (h : Custody who all start? accepted hand a sends records jobs watched tracks)
    (hj : jobs'.Perm jobs) (hw : ∀ j ∈ watched', j ∈ watched ∨ j ∈ tracks)
    (ht : ∀ j ∈ tracks', j ∈ tracks) :
    Custody who all start? accepted hand a sends records jobs' watched' tracks' := by
  refine ⟨h.holdings, h.distinct, h.named, fun tx hm => h.jobsNamed tx (hj.mem_iff.mp hm),
    h.matched.trans ((hj.symm.filter _).map _), fun j hm x hx he hs => ?_,
    fun j hm => h.tracked j (ht j hm)⟩
  rcases hw j hm with hin | hin
  · exact h.watched j hin x hx he hs
  · exact absurd he (h.tracked j hin x hx)

/-- The ledger took a transaction whose number is in hand. -/
theorem accept
    (h : Custody who all start? accepted (r.mine who ++ hand) a sends records jobs watched tracks)
    (hid : r.identity = tx.sender) (hn : r.nonce = tx.tx.nonce) :
    Custody who all start? (tx :: accepted) hand a sends records jobs watched tracks := by
  have hnums : numbersFrom who [tx] = (r.mine who).map (·.nonce) := by
    simp only [numbersFrom, Reservation.mine]
    by_cases hw : tx.sender = who <;> simp [hid, hw, hn]
  have hh := h.holdings
  rw [List.append_assoc] at hh
  refine ⟨?_, h.distinct, h.named, h.jobsNamed, h.matched, fun j hm x hx he hs => ?_, h.tracked⟩
  · rw [numbersFrom_cons, hnums]
    exact hh.spend
  · rw [numbersFrom_cons]
    exact List.mem_append_right _ (h.watched j hm x hx he hs)

/-- Nothing of `who` is recorded under a hash whose number is spent. -/
theorem recordOf_spent (h : Custody who all start? accepted hand a sends records jobs watched tracks)
    (hs : ∀ x ∈ all, x.hash = hash → x.sender = who → x.number ∈ numbersFrom who accepted) :
    recordOf records who hash = [] := by
  refine List.eq_nil_iff_forall_not_mem.mpr fun r hr => ?_
  obtain ⟨hget, hw⟩ := recordOf_subset hr
  have hsp := hs _ (h.named hash r hget) rfl hw
  have hdep : r.nonce ∈ ((hand ++ deposited records who) ++ carried sends who).map (·.nonce) :=
    List.mem_map_of_mem
      (List.mem_append_left _ (List.mem_append_right _ (mem_deposited hget hw)))
  exact (List.nodup_append.mp h.holdings.owes.nodup).2.2 _ hsp _ hdep rfl

/-- A job of `who` has its record, and a job of somebody else has none of `who`. -/
theorem recordOf_job (h : Custody who all start? accepted hand a sends records jobs watched tracks)
    (hinj : ∀ x ∈ all, ∀ y ∈ all, x.hash = y.hash → x = y) (htx : tx ∈ jobs) :
    (recordOf records who tx.hash).map (fun r => (tx.hash, r.nonce)) = due [tx] who := by
  by_cases hw : tx.sender = who
  · have hdue : (tx.hash, tx.tx.nonce) ∈ due jobs who :=
      List.mem_map.mpr ⟨tx, List.mem_filter.mpr ⟨htx, decide_eq_true hw⟩, rfl⟩
    obtain ⟨r, hr, hid, hn⟩ := get?_of_mem_noted h.distinct (h.matched.mem_iff.mpr hdue)
    simp [recordOf, hr, Reservation.mine, hid, hn, due, hw]
  · have hnone : recordOf records who tx.hash = [] := by
      refine List.eq_nil_iff_forall_not_mem.mpr fun r hr => ?_
      obtain ⟨hget, hid⟩ := recordOf_subset hr
      have heq := hinj _ (h.named tx.hash r hget) _ (h.jobsNamed tx htx) rfl
      have hs : r.identity = tx.sender := congrArg HandOver.sender heq
      exact hw (hs ▸ hid)
    simp [hnone, due, hw]

theorem named_erase (h : Custody who all start? accepted hand a sends records jobs watched tracks)
    (hash : Hash) : ∀ j r, (records.erase hash).get? j = some r → ⟨j, r.identity, r.nonce⟩ ∈ all :=
  Keyed.forall_get?_erase h.named hash

/-- Without the record of `hash` its number is in hand. -/
theorem holdings_erase
    (h : Custody who all start? accepted hand a sends records jobs watched tracks) (hash : Hash) :
    Holdings who start? (numbersFrom who accepted)
      (recordOf records who hash ++ (hand ++ deposited (records.erase hash) who)) a sends := by
  refine h.holdings.of_perm (.refl _) (((deposited_perm h.distinct who hash).append_left hand).trans ?_)
  exact List.perm_append_comm_assoc _ _ _

theorem matched_erase (h : Custody who all start? accepted hand a sends records jobs watched tracks)
    (hj : jobs.Perm (tx :: jobs'))
    (hr : (recordOf records who tx.hash).map (fun r => (tx.hash, r.nonce)) = due [tx] who) :
    (noted (records.erase tx.hash) who).Perm (due jobs' who) := by
  have hp := ((noted_perm h.distinct who tx.hash).symm.trans h.matched).trans ((hj.filter _).map _)
  have hp' : ((recordOf records who tx.hash).map (fun r => (tx.hash, r.nonce)) ++
      noted (records.erase tx.hash) who).Perm (due [tx] who ++ due jobs' who) := by
    rw [← due_cons]
    exact hp
  rw [hr] at hp'
  exact (List.perm_append_left_iff _).mp hp'

/-- The ledger took a job, and says so: its number is spent and its record goes. -/
theorem sent (h : Custody who all start? accepted hand a sends records jobs watched tracks)
    (hinj : ∀ x ∈ all, ∀ y ∈ all, x.hash = y.hash → x = y) (hj : jobs.Perm (tx :: jobs'))
    (hw : ∀ j ∈ watched', j = tx.hash ∨ j ∈ watched) :
    Custody who all start? (tx :: accepted) hand a sends (records.erase tx.hash) jobs' watched'
      tracks := by
  have htx : tx ∈ jobs := hj.mem_iff.mpr List.mem_cons_self
  have hr := h.recordOf_job hinj htx
  have hn : (recordOf records who tx.hash).map (·.nonce) = numbersFrom who [tx] := by
    rw [← map_snd_due, ← hr, List.map_map]
    rfl
  refine ⟨?_, Keyed.distinct_erase h.distinct _, h.named_erase _,
    fun t hm => h.jobsNamed t (hj.mem_iff.mpr (List.mem_cons_of_mem _ hm)), h.matched_erase hj hr,
    fun j hm x hx he hs => ?_, h.tracked⟩
  · rw [numbersFrom_cons, ← hn]
    have hh := h.holdings_erase tx.hash
    simp only [recordOf] at hh ⊢
    cases hget : records.get? tx.hash with
    | none =>
      rw [hget] at hh
      exact hh
    | some r =>
      rw [hget] at hh
      exact hh.spend
  · rw [numbersFrom_cons]
    rcases hw j hm with rfl | hin
    · have heq := hinj x hx _ (h.jobsNamed tx htx) he
      rw [heq] at hs ⊢
      refine List.mem_append_left _ ?_
      have hs' : tx.sender = who := hs
      simp [numbersFrom, hs', Signed.handOver]
    · exact List.mem_append_right _ (h.watched j hin x hx he hs)

/-- A record that goes because its transaction failed gives its number back. -/
theorem holdings_returned
    (h : Custody who all start? accepted hand a sends records jobs watched tracks) (hash : Hash) :
    Holdings who start? (numbersFrom who accepted)
      (hand ++ deposited (records.erase hash) who) (returned a records hash) sends := by
  have hh := h.holdings_erase hash
  simp only [recordOf] at hh
  simp only [returned]
  cases hget : records.get? hash with
  | none =>
    rw [hget] at hh
    exact hh
  | some r =>
    rw [hget] at hh
    exact hh.giveBack

/-- The ledger refused a job, or it was never submitted. -/
theorem failed (h : Custody who all start? accepted hand a sends records jobs watched tracks)
    (hinj : ∀ x ∈ all, ∀ y ∈ all, x.hash = y.hash → x = y) (hj : jobs.Perm (tx :: jobs'))
    (hw : ∀ j ∈ watched', j ∈ watched) :
    Custody who all start? accepted hand (returned a records tx.hash) sends (records.erase tx.hash)
      jobs' watched' tracks := by
  have htx : tx ∈ jobs := hj.mem_iff.mpr List.mem_cons_self
  have hr := h.recordOf_job hinj htx
  exact ⟨h.holdings_returned _, Keyed.distinct_erase h.distinct _, h.named_erase _,
    fun t hm => h.jobsNamed t (hj.mem_iff.mpr (List.mem_cons_of_mem _ hm)), h.matched_erase hj hr,
    fun j hm => h.watched j (hw j hm), h.tracked⟩

/-- A failure of a hash that is watched concerns nobody's number here. -/
theorem failed_spent (h : Custody who all start? accepted hand a sends records jobs watched tracks)
    (hs : ∀ x ∈ all, x.hash = hash → x.sender = who → x.number ∈ numbersFrom who accepted) :
    Custody who all start? accepted hand (returned a records hash) sends (records.erase hash) jobs
      watched tracks := by
  have hr := h.recordOf_spent hs
  refine ⟨h.holdings_returned _, Keyed.distinct_erase h.distinct _, h.named_erase _, h.jobsNamed,
    ?_, h.watched, h.tracked⟩
  have hp := noted_perm h.distinct who hash
  rw [hr] at hp
  exact hp.symm.trans h.matched

/-- A hash of nobody here has no record. -/
theorem erase_foreign (h : Custody who all start? accepted hand a sends records jobs watched tracks)
    (hf : ∀ x ∈ all, x.hash ≠ hash) : records.erase hash = records := by
  refine Keyed.erase_of_get?_none ?_
  cases hr : records.get? hash with
  | none => rfl
  | some r => exact absurd rfl (hf _ (h.named hash r hr))

/-- A number in hand is recorded nowhere. -/
theorem recordOf_hand
    (h : Custody who all start? accepted (r.mine who ++ hand) a sends records jobs watched tracks)
    (hinj : ∀ x ∈ all, ∀ y ∈ all, x.hash = y.hash → x = y)
    (hr : ⟨hash, r.identity, r.nonce⟩ ∈ all) : recordOf records who hash = [] := by
  refine List.eq_nil_iff_forall_not_mem.mpr fun q hq => ?_
  obtain ⟨hget, hid⟩ := recordOf_subset hq
  have heq := hinj _ (h.named hash q hget) _ hr rfl
  obtain ⟨-, hid', hn⟩ := HandOver.mk.inj heq
  have hnd := (List.nodup_append.mp h.holdings.owes.nodup).2.1
  rw [List.append_assoc, List.append_assoc, List.map_append] at hnd
  have hmine : r.nonce ∈ (r.mine who).map (·.nonce) :=
    List.mem_map_of_mem (mem_mine.mpr ⟨hid' ▸ hid, rfl⟩)
  have hdep : q.nonce ∈ (hand ++ (deposited records who ++ carried sends who)).map (·.nonce) :=
    List.mem_map_of_mem
      (List.mem_append_right _ (List.mem_append_left _ (mem_deposited hget hid)))
  exact (List.nodup_append.mp hnd).2.2 _ hmine _ hdep hn.symm

theorem named_put (h : Custody who all start? accepted hand a sends records jobs watched tracks)
    (hr : ⟨hash, r.identity, r.nonce⟩ ∈ all) :
    ∀ j q, (records.put hash r).get? j = some q → ⟨j, q.identity, q.nonce⟩ ∈ all :=
  Keyed.forall_get?_put h.named hr

/-- The number in hand goes into the record, and the job to the crew. -/
theorem record
    (h : Custody who all start? accepted (r.mine who ++ hand) a sends records jobs watched tracks)
    (hinj : ∀ x ∈ all, ∀ y ∈ all, x.hash = y.hash → x = y) (htx : tx.handOver ∈ all)
    (hid : r.identity = tx.sender) (hn : r.nonce = tx.tx.nonce) (hj : jobs'.Perm (tx :: jobs)) :
    Custody who all start? accepted hand a sends (records.put tx.hash r) jobs' watched tracks := by
  have hr : (⟨tx.hash, r.identity, r.nonce⟩ : HandOver) ∈ all := by
    rw [hid, hn]
    exact htx
  have hnone := h.recordOf_hand hinj hr
  have hdep := deposited_perm h.distinct who tx.hash
  have hnot := noted_perm h.distinct who tx.hash
  rw [hnone] at hdep hnot
  refine ⟨?_, Keyed.distinct_put h.distinct _ _, h.named_put hr, fun t hm => ?_, ?_, h.watched,
    h.tracked⟩
  · refine h.holdings.of_perm (.refl _) ?_
    show (r.mine who ++ hand ++ deposited records who).Perm
      (hand ++ (r.mine who ++ deposited (records.erase tx.hash) who))
    rw [List.nil_append] at hdep
    refine (hdep.append_left _).trans ?_
    rw [List.append_assoc]
    exact List.perm_append_comm_assoc _ _ _
  · rcases List.mem_cons.mp (hj.mem_iff.mp hm) with rfl | hm
    · exact htx
    · exact h.jobsNamed t hm
  · have hd : (due jobs' who).Perm (due [tx] who ++ due jobs who) := by
      rw [← due_cons]
      exact (hj.filter _).map _
    have hm : (r.mine who).map (fun q => (tx.hash, q.nonce)) = due [tx] who := by
      simp only [Reservation.mine, due]
      by_cases hw : tx.sender = who <;> simp [hid, hw, hn]
    refine List.Perm.trans ?_ hd.symm
    show ((r.mine who).map (fun q => (tx.hash, q.nonce)) ++ noted (records.erase tx.hash) who).Perm _
    rw [hm]
    exact (hnot.symm.trans h.matched).append_left _

/-- A refused hand-over leaves nothing behind: the number is in hand as before. -/
theorem refuse
    (h : Custody who all start? accepted (r.mine who ++ hand) a sends records jobs watched tracks)
    (hinj : ∀ x ∈ all, ∀ y ∈ all, x.hash = y.hash → x = y)
    (hr : ⟨hash, r.identity, r.nonce⟩ ∈ all) :
    Custody who all start? accepted (r.mine who ++ hand) a sends
      ((records.put hash r).erase hash) jobs watched tracks := by
  have herase : (records.put hash r).erase hash = records.erase hash := by
    simp [Keyed.put, Keyed.erase]
  have hnone := h.recordOf_hand hinj hr
  have hh := h.holdings_erase hash
  have hnot := noted_perm h.distinct who hash
  rw [hnone] at hh hnot
  rw [herase]
  exact ⟨hh, Keyed.distinct_erase h.distinct _, h.named_erase _, h.jobsNamed,
    hnot.symm.trans h.matched, h.watched, h.tracked⟩

end Custody

end Outbox
