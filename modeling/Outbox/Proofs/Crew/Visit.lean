import Outbox.Proofs.Crew.Shift

namespace Outbox

open Ledger

namespace Finality

variable {r : Receipt} {b : Nat}

theorem read_reverted (hash : Hash) (hs : r.status = some 0) :
    read hash (some r) = .decided (.reverted hash) := by
  obtain ⟨block, status⟩ := r
  obtain rfl : status = some 0 := hs
  rfl

theorem read_included (hash : Hash) (hs : r.status ≠ some 0) (hb : r.block = some b) :
    read hash (some r) = .includedAt b := by
  obtain ⟨block, status⟩ := r
  obtain rfl : block = some b := hb
  match status with
  | none => rfl
  | some 0 => exact absurd rfl hs
  | some (_ + 1) => rfl

theorem read_unplaced (hash : Hash) (hs : r.status ≠ some 0) (hb : r.block = none) :
    read hash (some r) = .decided (.notFound hash) := by
  obtain ⟨block, status⟩ := r
  obtain rfl : block = none := hb
  match status with
  | none => rfl
  | some 0 => exact absurd rfl hs
  | some (_ + 1) => rfl

end Finality

/-- What the ledger says of a watched hash when a worker comes to it: the receipt, and the head, if
that is asked for. -/
structure Visit where
  hash : Hash
  receipt : Except Failure (Option Receipt)
  head : Except Failure Nat

/-- What a worker is seen to do. -/
inductive Deed where
  | asks (q : Query)
  | tells (r : Report)
deriving DecidableEq

namespace Visit

/-- The receipt reports a revert, in whatever block. -/
def isReverted (x : Visit) : Bool :=
  match x.receipt with
  | .ok (some r) => r.status = some 0
  | _ => false

/-- The block of a receipt that reports no revert. -/
def block? (x : Visit) : Option Nat :=
  match x.receipt with
  | .ok (some r) => if r.status = some 0 then none else r.block
  | _ => none

/-- The head lies at least `required` blocks above the block of the receipt; a head below that block
counts as level with it. -/
def isFinal (required : Nat) (x : Visit) : Bool :=
  match x.block?, x.head with
  | some b, .ok h => required ≤ h - b
  | _, _ => false

def isOpen (required : Nat) (x : Visit) : Bool := !x.isReverted && !x.isFinal required

/-- The head is read only if the receipt leaves it open whether the hash is final. -/
def queries (x : Visit) : List Query :=
  .receipt x.hash :: (x.block?.map fun _ => Query.head).toList

def answers (x : Visit) : List (Except Failure Answer) :=
  x.receipt.map .receipt :: (x.block?.map fun _ => x.head.map .amount).toList

def report? (required : Nat) (x : Visit) : Option Report :=
  if x.isReverted then some (.failed x.hash (.reverted x.hash))
  else if x.isFinal required then some (.confirmed x.hash)
  else none

def deeds (required : Nat) (x : Visit) : List Deed :=
  x.queries.map .asks ++ (x.report? required).toList.map .tells

/-- A query may fail, but not with a revert, which is the verdict of a receipt. -/
def Credible (x : Visit) : Prop := ∀ g, .error (.reverted g) ∉ x.answers

variable {x y : Visit} {b required : Nat}

theorem isReverted_iff : x.isReverted = true ↔
    ∃ r, x.receipt = .ok (some r) ∧ r.status = some 0 := by
  simp only [isReverted]
  split
  · next r hr => simp [hr]
  · next hno =>
    refine iff_of_false (by simp) ?_
    rintro ⟨r, hr, -⟩
    exact hno r hr

theorem block?_eq_some_iff : x.block? = some b ↔
    ∃ r, x.receipt = .ok (some r) ∧ r.status ≠ some 0 ∧ r.block = some b := by
  simp only [block?]
  split
  · next r hr => simp [hr]
  · next hno =>
    refine iff_of_false (by simp) ?_
    rintro ⟨r, hr, -⟩
    exact hno r hr

theorem isFinal_iff : x.isFinal required = true ↔
    ∃ b h, x.block? = some b ∧ x.head = .ok h ∧ required ≤ h - b := by
  simp only [isFinal]
  split
  · next b h hb hh => simp [hb, hh]
  · next hno =>
    refine iff_of_false (by simp) ?_
    rintro ⟨b, h, hb, hh, -⟩
    exact hno b h hb hh

theorem not_isReverted_of_block? (hb : x.block? = some b) : x.isReverted = false := by
  obtain ⟨r, hr, hs, -⟩ := block?_eq_some_iff.mp hb
  simp [isReverted, hr, hs]

theorem not_isFinal_of_block? (hb : x.block? = none) : x.isFinal required = false := by
  simp [isFinal, hb]

theorem isOpen_eq (required : Nat) (x : Visit) :
    x.isOpen required = (x.report? required).isNone := by
  simp only [isOpen, report?]
  cases x.isReverted <;> cases x.isFinal required <;> rfl

theorem not_isReverted_of_isFinal (h : x.isFinal required = true) : x.isReverted = false := by
  obtain ⟨b, -, hb, -⟩ := isFinal_iff.mp h
  exact not_isReverted_of_block? hb

theorem report?_confirmed {g : Hash} :
    x.report? required = some (.confirmed g) ↔ x.hash = g ∧ x.isFinal required = true := by
  simp only [report?]
  constructor
  · intro h
    cases hrev : x.isReverted <;> cases hfinal : x.isFinal required <;> simp [hrev, hfinal] at h
    exact ⟨h, rfl⟩
  · rintro ⟨rfl, hfinal⟩
    simp [not_isReverted_of_isFinal hfinal, hfinal]

theorem report?_failed {g : Hash} {f : Failure} :
    x.report? required = some (.failed g f) ↔
      f = .reverted g ∧ x.hash = g ∧ x.isReverted = true := by
  simp only [report?]
  constructor
  · intro h
    cases hrev : x.isReverted <;> cases hfinal : x.isFinal required <;> simp [hrev, hfinal] at h
    all_goals
      obtain ⟨rfl, rfl⟩ := h
      exact ⟨rfl, rfl, rfl⟩
  · rintro ⟨rfl, rfl, hrev⟩
    simp [hrev]

theorem tells_mem_deeds {r : Report} :
    .tells r ∈ x.deeds required ↔ x.report? required = some r := by
  simp [deeds]

theorem tells_confirmed_iff {g : Hash} :
    .tells (.confirmed g) ∈ x.deeds required ↔ x.hash = g ∧
      ∃ r b h, x.receipt = .ok (some r) ∧ r.status ≠ some 0 ∧ r.block = some b ∧
        x.head = .ok h ∧ required ≤ h - b := by
  rw [tells_mem_deeds, report?_confirmed, isFinal_iff]
  simp only [block?_eq_some_iff]
  constructor
  · rintro ⟨hhash, b, h, ⟨r, hr, hs, hb⟩, hh, hd⟩
    exact ⟨hhash, r, b, h, hr, hs, hb, hh, hd⟩
  · rintro ⟨hhash, r, b, h, hr, hs, hb, hh, hd⟩
    exact ⟨hhash, b, h, ⟨r, hr, hs, hb⟩, hh, hd⟩

theorem tells_failed_iff {g : Hash} {f : Failure} :
    .tells (.failed g f) ∈ x.deeds required ↔ f = .reverted g ∧ x.hash = g ∧
      ∃ r, x.receipt = .ok (some r) ∧ r.status = some 0 := by
  rw [tells_mem_deeds, report?_failed, isReverted_iff]

/-- On top of the same receipt a higher head, or a smaller depth to reach, gives the same report. -/
theorem report?_of_later (hhash : y.hash = x.hash) (hreceipt : y.receipt = x.receipt)
    (hhead : ∀ h, x.head = .ok h → ∃ h', y.head = .ok h' ∧ h ≤ h') {smaller : Nat}
    (hs : smaller ≤ required) {r : Report} (hr : x.report? required = some r) :
    y.report? smaller = some r := by
  have hrev : y.isReverted = x.isReverted := by simp only [isReverted, hreceipt]
  have hblock : y.block? = x.block? := by simp only [block?, hreceipt]
  simp only [report?, hrev, hhash] at hr ⊢
  split
  · next hx => simpa [hx] using hr
  · next hx =>
    have hfinal : x.isFinal required = true := by
      by_contra hno
      simp [hx, hno] at hr
    obtain ⟨b, h, hb, hh, hd⟩ := isFinal_iff.mp hfinal
    obtain ⟨h', hh', hle⟩ := hhead h hh
    have hfinal' : y.isFinal smaller = true :=
      isFinal_iff.mpr ⟨b, h', hblock.trans hb, hh', by omega⟩
    rw [if_pos hfinal']
    simpa [hx, hfinal] using hr

end Visit

namespace Confirmer

/-- What is reported of a hash with this verdict. -/
def verdictReport? (hash : Hash) : Except Failure Unit → Option Report
  | .ok () => some (.confirmed hash)
  | .error (.reverted g) => some (.failed hash (.reverted g))
  | .error _ => none

theorem verdictReport?_error {f : Failure} (hash : Hash) (hf : ∀ g, f ≠ .reverted g) :
    verdictReport? hash (.error f) = none := by
  cases f with
  | reverted g => exact absurd rfl (hf g)
  | _ => rfl

/-- A hash of which nothing is reported goes behind all others that are kept. -/
theorem decide_eq (c : Confirmer) (i : Nat) (hash : Hash) (rest kept : List Hash)
    (v : Except Failure Unit) :
    c.decide i hash rest kept v =
      (c.proceed i rest (if (verdictReport? hash v).isNone then kept ++ [hash] else kept),
        (verdictReport? hash v).toList) := by
  simp only [decide]
  split
  · rfl
  · rfl
  · next f hf =>
    have hnone : verdictReport? hash (.error f) = none := verdictReport?_error hash hf
    simp [hnone]

/-- Where a worker stands who goes on with its pass. -/
def onward (c : Confirmer) (rest kept : List Hash) : Worker :=
  match rest with
  | [] => ⟨c.resting, kept⟩
  | hash :: rest => ⟨.checking hash .receipt rest kept, []⟩

theorem proceed_onward (c : Confirmer) (i : Nat) (rest kept : List Hash) :
    c.proceed i rest kept = c.change i (c.onward rest kept) := by
  cases rest <;> rfl

/-- The worker that does something. -/
def Act.worker? : Act → Option Nat
  | .take i => some i
  | .answer i _ => some i
  | .verdict i _ => some i
  | .tick i => some i
  | .leave i => some i
  | _ => none

variable {c : Confirmer} {i j : Nat} {w : Worker} {x : Act}

/-- Besides the queue only worker `i` may be another. -/
structure Moves (c : Confirmer) (i : Nat) (c' : Confirmer) : Prop where
  depth : c'.depth = c.depth
  others : ∀ j, i ≠ j → c'.workers[j]? = c.workers[j]?

theorem Moves.refl (c : Confirmer) (i : Nat) : c.Moves i c := ⟨rfl, fun _ _ => rfl⟩

theorem change_moves (c : Confirmer) (i : Nat) (w : Worker) : c.Moves i (c.change i w) :=
  ⟨rfl, fun _ hne => List.getElem?_set_ne hne⟩

theorem proceed_moves (c : Confirmer) (i : Nat) (rest kept : List Hash) :
    c.Moves i (c.proceed i rest kept) := by
  rw [proceed_onward]
  exact c.change_moves i _

theorem decide_moves (c : Confirmer) (i : Nat) (hash : Hash) (rest kept : List Hash)
    (v : Except Failure Unit) : c.Moves i (c.decide i hash rest kept v).1 := by
  rw [decide_eq]
  exact c.proceed_moves i rest _

theorem take_moves (c : Confirmer) (i : Nat) : c.Moves i (c.take i).1 := by
  simp only [take]
  split
  · next ws job queue _ _ =>
    have hchange : ∀ w, c.Moves i ({ c with queue := queue }.change i w) := by
      intro w
      have hmoves := change_moves { c with queue := queue } i w
      exact ⟨hmoves.depth, hmoves.others⟩
    cases job with
    | submit tx => exact hchange _
    | track hash => exact hchange _
  · exact .refl c i

theorem answer_moves (c : Confirmer) (i : Nat) (a : Except Failure Answer) :
    c.Moves i (c.answer i a).1 := by
  simp only [answer]
  split
  · split
    · exact c.change_moves i _
    · exact c.change_moves i _
  · split
    · exact c.change_moves i _
    · exact c.decide_moves i _ _ _ _
  · exact .refl c i

theorem verdict_moves (c : Confirmer) (i : Nat) (v : Except Failure Unit) :
    c.Moves i (c.verdict i v).1 := by
  simp only [verdict]
  split
  · exact c.decide_moves i _ _ _ v
  · exact .refl c i

theorem tick_moves (c : Confirmer) (i : Nat) : c.Moves i (c.tick i) := by
  simp only [tick]
  split
  · exact c.proceed_moves i _ _
  · exact .refl c i

theorem leave_moves (c : Confirmer) (i : Nat) : c.Moves i (c.leave i) := by
  simp only [leave]
  split
  · split
    · exact c.change_moves i _
    · exact .refl c i
  · exact .refl c i

/-- What one worker does is nothing to the others. -/
theorem act_moves (hx : x.worker? = some i) : c.Moves i (c.act x).1 := by
  cases x with
  | take j =>
    obtain rfl := Option.some.inj hx
    exact c.take_moves j
  | answer j a =>
    obtain rfl := Option.some.inj hx
    exact c.answer_moves j a
  | verdict j v =>
    obtain rfl := Option.some.inj hx
    exact c.verdict_moves j v
  | tick j =>
    obtain rfl := Option.some.inj hx
    exact c.tick_moves j
  | leave j =>
    obtain rfl := Option.some.inj hx
    exact c.leave_moves j
  | enqueue job => simp [Act.worker?] at hx
  | stop => simp [Act.worker?] at hx
  | drain => simp [Act.worker?] at hx

/-- What the crew does elsewhere is nothing to a worker that is still there. -/
theorem act_elsewhere (hx : x.worker? ≠ some i) (hw : c.workers[i]? = some w)
    (ha : w.activity ≠ .exited) :
    (c.act x).1.depth = c.depth ∧ (c.act x).1.workers[i]? = some w := by
  cases hj : x.worker? with
  | some j =>
    have hne : j ≠ i := fun heq => hx (hj.trans (congrArg some heq))
    have hmoves : c.Moves j (c.act x).1 := act_moves hj
    exact ⟨hmoves.depth, (hmoves.others i hne).trans hw⟩
  | none =>
    cases x with
    | enqueue job =>
      rcases c.act_enqueue job with ⟨-, hact⟩ | ⟨f, -, hact⟩
      · rw [hact]
        exact ⟨rfl, hw⟩
      · rw [hact]
        exact ⟨rfl, hw⟩
    | stop => exact ⟨rfl, hw⟩
    | drain =>
      have hstays : c.allExited = false := by
        apply Bool.eq_false_iff.mpr
        intro hall
        have hexited := List.all_eq_true.mp hall w (List.mem_of_getElem? hw)
        exact ha (of_decide_eq_true hexited)
      simp only [act, drain, hstays]
      simpa using hw
    | take k => simp [Act.worker?] at hj
    | answer k a => simp [Act.worker?] at hj
    | verdict k v => simp [Act.worker?] at hj
    | tick k => simp [Act.worker?] at hj
    | leave k => simp [Act.worker?] at hj

end Confirmer

namespace Visit

open Confirmer (verdictReport? verdictReport?_error)

variable {x : Visit} {b : Nat}

/-- The receipt decides alone, or nothing can be read. -/
theorem answer_decided (hx : x.Credible) (hb : x.block? = none) (required : Nat) :
    ∃ v, Check.receipt.answer x.hash required (x.receipt.map .receipt) = .inr v ∧
      verdictReport? x.hash v = x.report? required := by
  have hfinal : x.isFinal required = false := not_isFinal_of_block? hb
  cases hr : x.receipt with
  | error f =>
    have hf : ∀ g, f ≠ .reverted g := by
      rintro g rfl
      apply hx g
      simp [answers, hr, Except.map]
    refine ⟨.error f, rfl, ?_⟩
    rw [verdictReport?_error x.hash hf]
    simp [report?, isReverted, hr, hfinal]
  | ok receipt =>
    cases receipt with
    | none =>
      refine ⟨.error (.notFound x.hash), rfl, ?_⟩
      simp [report?, isReverted, hr, hfinal, verdictReport?]
    | some r =>
      by_cases hs : r.status = some 0
      · refine ⟨.error (.reverted x.hash), ?_, ?_⟩
        · simp only [Except.map, Check.answer, Finality.read_reverted x.hash hs]
        · simp [report?, isReverted, hr, hs, verdictReport?]
      · have hblock : r.block = none := by
          simpa [block?, hr, hs] using hb
        refine ⟨.error (.notFound x.hash), ?_, ?_⟩
        · simp only [Except.map, Check.answer, Finality.read_unplaced x.hash hs hblock]
        · simp [report?, isReverted, hr, hs, hfinal, verdictReport?]

theorem answer_included (hb : x.block? = some b) (required : Nat) :
    Check.receipt.answer x.hash required (x.receipt.map .receipt) = .inl (.head b) := by
  obtain ⟨r, hr, hs, hblock⟩ := block?_eq_some_iff.mp hb
  simp only [hr, Except.map, Check.answer, Finality.read_included x.hash hs hblock]

/-- The head decides what the receipt left open. -/
theorem answer_head (hx : x.Credible) (hb : x.block? = some b) (required : Nat) :
    ∃ v, (Check.head b).answer x.hash required (x.head.map .amount) = .inr v ∧
      verdictReport? x.hash v = x.report? required := by
  have hrev : x.isReverted = false := not_isReverted_of_block? hb
  cases hh : x.head with
  | error f =>
    have hf : ∀ g, f ≠ .reverted g := by
      rintro g rfl
      apply hx g
      simp [answers, hb, hh, Except.map]
    refine ⟨.error f, rfl, ?_⟩
    rw [verdictReport?_error x.hash hf]
    simp [report?, hrev, isFinal, hh]
  | ok h =>
    refine ⟨Finality.depth x.hash required b h, rfl, ?_⟩
    by_cases hd : h - b < required
    · simp [Finality.depth, report?, hrev, isFinal, hb, hh, hd, verdictReport?]
    · simp [Finality.depth, report?, hrev, isFinal, hb, hh, hd, verdictReport?]

end Visit
end Outbox
