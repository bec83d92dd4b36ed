import Outbox.Proofs.Nonce.Residents
import Outbox.Proofs.Send.Steps

namespace Outbox

open Nonce

/-- `r` if it is of `who`. -/
def Nonce.Reservation.mine (who : Address) (r : Reservation) : List Reservation :=
  if r.identity = who then [r] else []

namespace Nonce.Allocator

/-- With a state that started with `start?`, every number it issued is free again, `spent`, or in
`held`. Without a state there is no number anywhere. -/
def Owes (a : Allocator) (who : Address) (start? : Option Nat) (spent : List Nat)
    (held : List Reservation) : Prop :=
  match a.entries.get? who with
  | none => start? = none ∧ spent = [] ∧ held = []
  | some s => ∃ start, start? = some start ∧ s.Accounts start (spent ++ held.map (·.nonce)) ∧
      ∀ r ∈ held, r.identity = who ∧ r.generation = s.generation

variable {a a' : Allocator} {who other : Address} {start? : Option Nat} {spent spent' : List Nat}
  {held held' : List Reservation} {r : Reservation} {s : State}

theorem owes_none (h : a.entries.get? who = none) :
    a.Owes who start? spent held ↔ start? = none ∧ spent = [] ∧ held = [] := by
  simp only [Owes]
  rw [h]

theorem owes_some (h : a.entries.get? who = some s) :
    a.Owes who start? spent held ↔ ∃ start, start? = some start ∧
      s.Accounts start (spent ++ held.map (·.nonce)) ∧
      ∀ r ∈ held, r.identity = who ∧ r.generation = s.generation := by
  simp only [Owes]
  rw [h]

theorem Owes.of_get?_eq (h : a.Owes who start? spent held)
    (he : a'.entries.get? who = a.entries.get? who) : a'.Owes who start? spent held := by
  simp only [Owes] at h ⊢
  rw [he]
  exact h

theorem Owes.of_leaves (h : a.Owes who start? spent held) (hl : a.Leaves a' who)
    (he : ¬a'.Evicted who) : a'.Owes who start? spent held := by
  rcases hl with hk | ⟨_, hev⟩
  · exact h.of_get?_eq hk
  · exact absurd hev he

theorem Owes.of_perm (h : a.Owes who start? spent held) (hs : spent.Perm spent')
    (hh : held.Perm held') : a.Owes who start? spent' held' := by
  cases hr : a.entries.get? who with
  | none =>
    obtain ⟨h0, rfl, rfl⟩ := (owes_none hr).mp h
    exact (owes_none hr).mpr ⟨h0, hs.nil_eq.symm, hh.nil_eq.symm⟩
  | some s =>
    obtain ⟨start, h0, hacc, hg⟩ := (owes_some hr).mp h
    refine (owes_some hr).mpr ⟨start, h0, hacc.of_perm (hs.append (hh.map _)), ?_⟩
    intro r hm
    exact hg r (hh.mem_iff.mpr hm)

/-- Nothing is in two places. -/
theorem Owes.nodup (h : a.Owes who start? spent held) : (spent ++ held.map (·.nonce)).Nodup := by
  cases hr : a.entries.get? who with
  | none =>
    obtain ⟨_, rfl, rfl⟩ := (owes_none hr).mp h
    exact List.nodup_nil
  | some s =>
    obtain ⟨start, _, hacc, _⟩ := (owes_some hr).mp h
    exact hacc.out_nodup

theorem Owes.issued (h : a.Owes who start? spent held) (hi : a.Issued who s r a') :
    a'.Owes who start? spent (r :: held) := by
  obtain ⟨start, h0, hacc, hg⟩ := (owes_some hi.source).mp h
  refine (owes_some hi.rest).mpr ⟨start, h0, ?_, ?_⟩
  · rw [hi.reservation, List.map_cons]
    exact hacc.assign.of_perm List.perm_middle.symm
  · intro q hq
    rw [State.assign_generation]
    rcases List.mem_cons.mp hq with rfl | hq
    · rw [hi.reservation]
      exact ⟨rfl, rfl⟩
    · exact hg q hq

/-- An absent identity starts anew with the ledger's answer. -/
theorem Owes.install_self (h : a.Owes who start? spent held) (n : Nat) :
    (a.install who n).2.Owes who (start?.or (some n)) spent ((a.install who n).1 :: held) := by
  cases hr : a.entries.get? who with
  | none =>
    obtain ⟨rfl, rfl, rfl⟩ := (owes_none hr).mp h
    obtain ⟨s, hi⟩ := take?_issued (install_of_absent hr n)
    have hfresh : (a.reset who n).Owes who (some n) [] [] := by
      refine (owes_some (get?_reset_self a who n)).mpr ⟨n, rfl, State.accounts_start n _, ?_⟩
      simp
    exact hfresh.issued hi
  | some s =>
    obtain ⟨start, rfl, _⟩ := (owes_some hr).mp h
    exact h.issued (install_issued hr n)

theorem Owes.install (h : a.Owes who start? spent held) (n : Nat)
    (he : ¬(a.install other n).2.Evicted who) :
    (a.install other n).2.Owes who (start?.or (if other = who then some n else none)) spent
      ((a.install other n).1.mine who ++ held) := by
  simp only [Reservation.mine]
  rw [install_identity]
  by_cases ho : other = who
  · subst ho
    rw [if_pos rfl, if_pos rfl]
    exact h.install_self n
  · rw [if_neg ho, if_neg ho, Option.or_none]
    exact h.of_leaves (install_leaves a n (Ne.symm ho)) he

theorem Owes.take? (h : a.Owes who start? spent held) (ht : a.take? other = some (r, a'))
    (he : ¬a'.Evicted who) : a'.Owes who start? spent (r.mine who ++ held) := by
  obtain ⟨s, hi⟩ := take?_issued ht
  simp only [Reservation.mine]
  by_cases ho : other = who
  · subst ho
    rw [if_pos (by rw [hi.reservation])]
    exact h.issued hi
  · rw [if_neg (by rw [hi.reservation]; exact ho)]
    exact h.of_leaves (hi.others who (Ne.symm ho)) he

theorem Owes.giveBack (h : a.Owes who start? spent (r.mine who ++ held)) :
    (a.giveBack r).2.Owes who start? spent held := by
  simp only [Reservation.mine] at h
  by_cases ho : r.identity = who
  · rw [if_pos ho] at h
    cases hr : a.entries.get? who with
    | none =>
      obtain ⟨_, _, hn⟩ := (owes_none hr).mp h
      simp at hn
    | some s =>
      obtain ⟨start, h0, hacc, hg⟩ := (owes_some hr).mp h
      have hout : s.Accounts start (r.nonce :: (spent ++ held.map (·.nonce))) :=
        hacc.of_perm List.perm_middle
      obtain ⟨s', hrel, hg', hacc'⟩ := hout.release
      have hgb := giveBack_of_resident (a := a) (ho ▸ hr) (hg r List.mem_cons_self).2.symm hrel
      have hs' : (a.giveBack r).2.entries.get? who = some s' := by
        rw [hgb, ← ho]
        exact Keyed.get?_put_self _ _ _
      refine (owes_some hs').mpr ⟨start, h0, hacc', fun q hq => ?_⟩
      rw [hg']
      exact hg q (List.mem_cons_of_mem _ hq)
  · rw [if_neg ho] at h
    exact Owes.of_get?_eq h (get?_release_of_ne a _ _ (Ne.symm ho))

/-- `n` will be issued again, or for the first time. -/
def Free (a : Allocator) (who : Address) (n : Nat) : Prop :=
  ∃ s, a.entries.get? who = some s ∧ (n ∈ s.reclaimed ∨ s.next ≤ n)

/-- What was held before and is nowhere now is free. -/
theorem Owes.free (h : a.Owes who start? spent (r :: held)) (h' : a'.Owes who start? spent held) :
    a'.Free who r.nonce := by
  have hnew : r.nonce ∉ spent ++ held.map (·.nonce) := by
    have hn := h.nodup
    rw [List.map_cons, List.perm_middle.nodup_iff] at hn
    exact (List.nodup_cons.mp hn).1
  cases hr : a.entries.get? who with
  | none =>
    obtain ⟨_, _, hn⟩ := (owes_none hr).mp h
    simp at hn
  | some s =>
    obtain ⟨start, rfl, hacc, _⟩ := (owes_some hr).mp h
    have hle := (hacc.out_bounds (n := r.nonce) (by simp)).1
    cases hr' : a'.entries.get? who with
    | none =>
      obtain ⟨h0, _⟩ := (owes_none hr').mp h'
      simp at h0
    | some s' =>
      obtain ⟨start', h0, hacc', _⟩ := (owes_some hr').mp h'
      obtain rfl : start = start' := Option.some.inj h0
      refine ⟨s', hr', ?_⟩
      by_cases hlt : r.nonce < s'.next
      · have hin : r.nonce ∈ List.range' start (s'.next - start) := by
          rw [List.mem_range'_1]
          omega
        rcases List.mem_append.mp (hacc'.perm.mem_iff.mpr hin) with hf | ho
        · exact .inl hf
        · exact absurd ho hnew
      · exact .inr (by omega)

/-- A number that is out is not the next one. -/
theorem Owes.install_ne (h : a.Owes who start? spent held) {m : Nat}
    (hm : m ∈ spent ++ held.map (·.nonce)) (n : Nat) : (a.install who n).1.nonce ≠ m := by
  cases hr : a.entries.get? who with
  | none =>
    obtain ⟨_, rfl, rfl⟩ := (owes_none hr).mp h
    simp at hm
  | some s =>
    obtain ⟨start, _, hacc, _⟩ := (owes_some hr).mp h
    rw [(install_issued hr n).reservation]
    rintro rfl
    exact hacc.assign_fresh hm

theorem Owes.spend (h : a.Owes who start? spent (r.mine who ++ held)) :
    a.Owes who start? ((r.mine who).map (·.nonce) ++ spent) held := by
  cases hr : a.entries.get? who with
  | none =>
    obtain ⟨h0, h1, h2⟩ := (owes_none hr).mp h
    obtain ⟨hm, rfl⟩ := List.append_eq_nil_iff.mp h2
    exact (owes_none hr).mpr ⟨h0, by rw [hm, h1]; rfl, rfl⟩
  | some s =>
    obtain ⟨start, h0, hacc, hg⟩ := (owes_some hr).mp h
    refine (owes_some hr).mpr ⟨start, h0, hacc.of_perm ?_, ?_⟩
    · rw [List.map_append, List.append_assoc]
      exact List.perm_append_comm_assoc _ _ _
    · intro q hq
      exact hg q (List.mem_append_right _ hq)

end Nonce.Allocator

namespace Send

/-- The number of `who` that the send carries. -/
def carries (who : Address) (s : Send) : List Reservation :=
  match s.stage with
  | .submit _ held => held.mine who
  | _ => []

theorem carries_plain {s : Send} (h : s.stage.Plain) (who : Address) : s.carries who = [] := by
  simp only [carries]
  cases hst : s.stage with
  | submit tx held =>
    rw [hst] at h
    exact absurd h id
  | _ => rfl

/-- The transaction is the sender's own, with the number held. -/
def Proper (s : Send) : Prop :=
  ∀ tx held, s.stage = .submit tx held →
    tx.sender = s.signer.address ∧ tx.tx.nonce = held.nonce ∧ held.identity = s.signer.address

end Send

/-- The numbers of `who` among transactions. -/
def numbersFrom (who : Address) (txs : List Signed) : List Nat :=
  (txs.filter fun tx => tx.sender = who).map (·.tx.nonce)

/-- What sends carry of `who`. -/
def carried (sends : Keyed SendId Send) (who : Address) : List Reservation :=
  sends.flatMap fun e => e.2.carries who

/-- The numbers of `who` that were issued are free again, `spent`, carried by a send, or in the
hands of `others`. -/
structure Holdings (who : Address) (start? : Option Nat) (spent : List Nat)
    (others : List Reservation) (a : Allocator) (sends : Keyed SendId Send) : Prop where
  owes : a.Owes who start? spent (others ++ carried sends who)
  distinct : sends.Distinct
  proper : ∀ k s, sends.get? k = some s → s.Proper

namespace Holdings

variable {who other : Address} {start? : Option Nat} {spent spent' : List Nat}
  {others others' : List Reservation} {a a' : Allocator} {sends : Keyed SendId Send} {k : SendId}
  {s : Send} {r : Reservation}

theorem empty (who : Address) (capacity : Nat) :
    Holdings who none [] [] (.ofCapacity capacity) [] where
  owes := (Allocator.owes_none rfl).mpr ⟨rfl, rfl, rfl⟩
  distinct := List.nodup_nil
  proper := by simp [Keyed.get?]

theorem of_perm (h : Holdings who start? spent others a sends) (hs : spent.Perm spent')
    (ho : others.Perm others') : Holdings who start? spent' others' a sends :=
  ⟨h.owes.of_perm hs (ho.append_right _), h.distinct, h.proper⟩

theorem of_leaves (h : Holdings who start? spent others a sends) (hl : a.Leaves a' who)
    (he : ¬a'.Evicted who) : Holdings who start? spent others a' sends :=
  ⟨h.owes.of_leaves hl he, h.distinct, h.proper⟩

theorem take? (h : Holdings who start? spent others a sends) (ht : a.take? other = some (r, a'))
    (he : ¬a'.Evicted who) : Holdings who start? spent (r.mine who ++ others) a' sends :=
  ⟨by rw [List.append_assoc]; exact h.owes.take? ht he, h.distinct, h.proper⟩

theorem install (h : Holdings who start? spent others a sends) (n : Nat)
    (he : ¬(a.install other n).2.Evicted who) :
    Holdings who (start?.or (if other = who then some n else none)) spent
      ((a.install other n).1.mine who ++ others) (a.install other n).2 sends :=
  ⟨by rw [List.append_assoc]; exact h.owes.install n he, h.distinct, h.proper⟩

theorem giveBack (h : Holdings who start? spent (r.mine who ++ others) a sends) :
    Holdings who start? spent others (a.giveBack r).2 sends :=
  ⟨Allocator.Owes.giveBack (by rw [← List.append_assoc]; exact h.owes), h.distinct, h.proper⟩

theorem spend (h : Holdings who start? spent (r.mine who ++ others) a sends) :
    Holdings who start? ((r.mine who).map (·.nonce) ++ spent) others a sends :=
  ⟨Allocator.Owes.spend (by rw [← List.append_assoc]; exact h.owes), h.distinct, h.proper⟩

/-- A send that ends leaves what it carries in other hands. -/
theorem unload (h : Holdings who start? spent others a sends) (hk : sends.get? k = some s) :
    Holdings who start? spent (s.carries who ++ others) a (sends.erase k) := by
  refine ⟨h.owes.of_perm (.refl _) ?_, Keyed.distinct_erase h.distinct k,
    Keyed.forall_get?_erase h.proper k⟩
  have hp : (carried sends who).Perm (s.carries who ++ carried (sends.erase k) who) :=
    (Keyed.perm_of_get? h.distinct hk).flatMap_right _
  refine (hp.append_left others).trans ?_
  rw [List.append_assoc]
  exact List.perm_append_comm_assoc _ _ _

/-- A send takes over what it carries. -/
theorem load (h : Holdings who start? spent (s.carries who ++ others) a (sends.erase k))
    (hp : s.Proper) : Holdings who start? spent others a (sends.put k s) := by
  refine ⟨h.owes.of_perm (.refl _) ?_, ?_, fun j t hj => ?_⟩
  · show (s.carries who ++ others ++ carried (sends.erase k) who).Perm
      (others ++ (s.carries who ++ carried (sends.erase k) who))
    rw [List.append_assoc]
    exact List.perm_append_comm_assoc _ _ _
  · have hd := Keyed.distinct_put h.distinct k s
    simpa [Keyed.put, Keyed.erase] using hd
  · rw [Keyed.get?_put] at hj
    split at hj
    · obtain rfl := Option.some.inj hj
      exact hp
    · next hne => exact h.proper j t (by rw [Keyed.get?_erase, if_neg hne]; exact hj)

/-- A send that goes away gives back what it carries. -/
theorem leftBy {d : Dispatch} (h : Holdings who start? spent (s.carries who ++ others) d.allocator sends) :
    Holdings who start? spent others (d.leftBy s).allocator sends := by
  simp only [Send.carries] at h
  simp only [Dispatch.leftBy]
  cases hst : s.stage with
  | submit tx held =>
    rw [hst] at h
    exact h.giveBack
  | _ =>
    rw [hst] at h
    exact h

end Holdings

end Outbox
