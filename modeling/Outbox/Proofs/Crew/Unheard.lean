import Outbox.Proofs.Crew.Shift

namespace Outbox.Confirmer

open Ledger

/-- No transaction of this hash waits to be submitted. -/
def Lacks (c : Confirmer) (hash : Hash) : Prop := ∀ tx ∈ c.unsubmitted, tx.hash ≠ hash

/-- At most one transaction of this hash waits to be submitted. Nobody watches the hash, and it
cannot be taken to track before the transaction is taken to be submitted. -/
structure Unheard (c : Confirmer) (hash : Hash) : Prop where
  once : (c.unsubmitted.filter (·.hash = hash)).length ≤ 1
  unwatched : hash ∉ c.watched
  order : c.queue.Pairwise fun a b => a = .track hash → ∀ tx ∈ b.submits, tx.hash ≠ hash

/-- Worker `i` takes the hash to track while another worker is submitting its transaction. -/
structure Overhears (c : Confirmer) (hash : Hash) (i : Nat) : Prop where
  takes : c.Takes i (.track hash)
  flight : ∃ j tx, j ≠ i ∧ c.submitting? j = some tx ∧ tx.hash = hash

variable {c c' : Confirmer} {hash : Hash} {i : Nat} {tx : Signed}

theorem submitting?_eq_some :
    c.submitting? i = some tx ↔ ∃ ws, c.workers[i]? = some ⟨.submitting tx, ws⟩ := by
  simp only [submitting?]
  constructor
  · intro h
    split at h
    · next tx' ws hw =>
      obtain rfl := Option.some.inj h
      exact ⟨ws, hw⟩
    · simp at h
  · rintro ⟨ws, hw⟩
    rw [hw]

theorem mem_unsubmitted_of_submitting? (h : c.submitting? i = some tx) : tx ∈ c.unsubmitted := by
  obtain ⟨ws, hw⟩ := submitting?_eq_some.mp h
  refine List.mem_append_right _ (List.mem_flatMap.mpr ⟨_, List.mem_of_getElem? hw, ?_⟩)
  exact List.mem_singleton.mpr rfl

/-- What is unsubmitted waits in the queue or is in a worker's hand. -/
theorem mem_unsubmitted :
    tx ∈ c.unsubmitted ↔ .submit tx ∈ c.queue ∨ ∃ i, c.submitting? i = some tx := by
  constructor
  · intro h
    rcases List.mem_append.mp h with h | h
    · obtain ⟨job, hjob, htx⟩ := List.mem_flatMap.mp h
      cases job with
      | submit t =>
        obtain rfl := List.mem_singleton.mp htx
        exact .inl hjob
      | track g => simp [Job.submits] at htx
    · obtain ⟨⟨activity, ws⟩, hw, htx⟩ := List.mem_flatMap.mp h
      cases activity with
      | submitting t =>
        obtain rfl := List.mem_singleton.mp htx
        obtain ⟨i, hi⟩ := List.mem_iff_getElem?.mp hw
        exact .inr ⟨i, submitting?_eq_some.mpr ⟨ws, hi⟩⟩
      | _ => simp [Worker.submits, Activity.submits] at htx
  · rintro (h | ⟨i, h⟩)
    · exact List.mem_append_left _ (List.mem_flatMap.mpr ⟨_, h, List.mem_singleton.mpr rfl⟩)
    · exact mem_unsubmitted_of_submitting? h

theorem Lacks.of_subset (h : c.Lacks hash) (hs : c'.unsubmitted ⊆ c.unsubmitted) : c'.Lacks hash :=
  fun tx htx => h tx (hs htx)

/-- What the only transaction of its hash leaves when it goes. -/
theorem Unheard.lacks (h : c.Unheard hash) (hp : c.unsubmitted.Perm (tx :: c'.unsubmitted))
    (ht : tx.hash = hash) : c'.Lacks hash := by
  have hlen := (hp.filter (·.hash = hash)).length_eq
  rw [List.filter_cons_of_pos (by simpa using ht), List.length_cons] at hlen
  have hnil : c'.unsubmitted.filter (·.hash = hash) = [] :=
    List.eq_nil_of_length_eq_zero (by have := h.once; omega)
  intro t hm he
  exact List.filter_eq_nil_iff.mp hnil t hm (by simpa using he)

/-- A crew that goes on with fewer submissions and no new hash to watch. -/
theorem Unheard.of_perm (txs : List Signed) (h : c.Unheard hash)
    (hp : c.unsubmitted.Perm (txs ++ c'.unsubmitted)) (hw : hash ∈ c'.watched → hash ∈ c.watched)
    (hq : c'.queue <:+ c.queue) : c'.Unheard hash := by
  refine ⟨?_, fun hm => h.unwatched (hw hm), h.order.sublist hq.sublist⟩
  have hlen := (hp.filter (·.hash = hash)).length_eq
  rw [List.filter_append, List.length_append] at hlen
  have := h.once
  omega

section Queue

/-- The same crew with nothing in its queue. -/
def unqueued (c : Confirmer) : Confirmer := { c with queue := [] }

/-- `f` does not look at the queue. -/
structure Blind (f : Confirmer → Confirmer × List Report) (c : Confirmer) : Prop where
  queue : (f c).1.queue = c.queue
  rest : f c.unqueued = ((f c).1.unqueued, (f c).2)

theorem unsubmitted_unqueued (c : Confirmer) :
    c.unsubmitted = c.queue.flatMap Job.submits ++ c.unqueued.unsubmitted := rfl

theorem Blind.congr {f g : Confirmer → Confirmer × List Report} (h : Blind g c) (hf : f c = g c)
    (hq : f c.unqueued = g c.unqueued) : Blind f c :=
  ⟨by rw [hf]; exact h.queue, by rw [hq, hf]; exact h.rest⟩

theorem blind_change (c : Confirmer) (i : Nat) (w : Worker) (rs : List Report) :
    Blind (fun c => (c.change i w, rs)) c := ⟨rfl, rfl⟩

theorem blind_idle (c : Confirmer) (rs : List Report) : Blind (fun c => (c, rs)) c := ⟨rfl, rfl⟩

theorem blind_proceed (c : Confirmer) (i : Nat) (rest kept : List Hash) (rs : List Report) :
    Blind (fun c => (c.proceed i rest kept, rs)) c := by
  cases rest <;> exact ⟨rfl, rfl⟩

theorem blind_decide (c : Confirmer) (i : Nat) (g : Hash) (rest kept : List Hash)
    (v : Except Failure Unit) : Blind (fun c => c.decide i g rest kept v) c := by
  simp only [decide]
  split <;> exact blind_proceed c i rest _ _

theorem blind_verdict (c : Confirmer) (i : Nat) (v : Except Failure Unit) :
    Blind (fun c => c.verdict i v) c := by
  rcases hw : c.workers[i]? with _ | ⟨_ | _ | ⟨g, check, rest, kept⟩ | _, ws⟩
  case some.checking =>
    exact (blind_decide c i g rest kept v).congr (by simp only [verdict, hw])
      (by simp only [verdict, unqueued, hw])
  all_goals
    exact (blind_idle c []).congr (by simp only [verdict, hw]) (by simp only [verdict, unqueued, hw])

theorem blind_answer (c : Confirmer) (i : Nat) (a : Except Failure Answer) :
    Blind (fun c => c.answer i a) c := by
  rcases hw : c.workers[i]? with _ | ⟨_ | tx | ⟨g, check, rest, kept⟩ | _, ws⟩
  case some.submitting =>
    cases a with
    | ok x =>
      exact (blind_change c i ⟨c.resting, ws ++ [tx.hash]⟩ [.sent tx.hash]).congr
        (by simp only [answer, hw]) (by simp only [answer, unqueued, hw]; rfl)
    | error f =>
      exact (blind_change c i ⟨c.resting, ws⟩ [.failed tx.hash f.asSubmission]).congr
        (by simp only [answer, hw]) (by simp only [answer, unqueued, hw]; rfl)
  case some.checking =>
    cases ha : check.answer g c.depth a with
    | inl next =>
      exact (blind_change c i ⟨.checking g next rest kept, ws⟩ []).congr
        (by simp only [answer, hw, ha]) (by simp only [answer, unqueued, hw, ha])
    | inr v =>
      exact (blind_decide c i g rest kept v).congr (by simp only [answer, hw, ha])
        (by simp only [answer, unqueued, hw, ha])
  all_goals
    exact (blind_idle c []).congr (by simp only [answer, hw]) (by simp only [answer, unqueued, hw])

theorem blind_tick (c : Confirmer) (i : Nat) : Blind (fun c => (c.tick i, [])) c := by
  rcases hw : c.workers[i]? with _ | ⟨_ | _ | _ | _, _ | ⟨g, rest⟩⟩
  case some.idle.cons =>
    exact (blind_proceed c i (g :: rest) [] []).congr (by simp only [tick, hw])
      (by simp only [tick, unqueued, hw])
  all_goals
    exact (blind_idle c []).congr (by simp only [tick, hw]) (by simp only [tick, unqueued, hw])

theorem blind_leave (c : Confirmer) (i : Nat) : Blind (fun c => (c.leave i, [])) c := by
  rcases hw : c.workers[i]? with _ | ⟨_ | _ | _ | _, ws⟩
  case some.idle =>
    cases hs : c.stopping with
    | true =>
      exact (blind_change c i ⟨.exited, ws⟩ []).congr (by simp only [leave, hw, hs, if_true])
        (by simp only [leave, unqueued, hw, hs, if_true])
    | false =>
      exact (blind_idle c []).congr (by simp only [leave, hw, hs]; rfl)
        (by simp only [leave, unqueued, hw, hs]; rfl)
  all_goals
    exact (blind_idle c []).congr (by simp only [leave, hw]) (by simp only [leave, unqueued, hw])

theorem blind_start (c : Confirmer) : Blind (fun c => (c.start, [])) c := by
  cases hw : c.workers with
  | nil => exact ⟨by simp only [start, hw], by simp only [start, unqueued, hw]⟩
  | cons w ws =>
    exact (blind_idle c []).congr (by simp only [start, hw]) (by simp only [start, unqueued, hw])

end Queue

namespace Unheard

variable {f : Confirmer → Confirmer × List Report} {took : List Signed}

/-- Whatever workers do with what they have in hand, either nothing is said of the hash, or its
transaction is no longer to be submitted. -/
theorem blind (h : c.Unheard hash) (hb : Blind f c)
    (hf : Handles c.unqueued took (f c.unqueued).1 (f c.unqueued).2) :
    ((f c).1.Unheard hash ∧ ∀ r ∈ (f c).2, r.hash ≠ hash) ∨ (f c).1.Lacks hash := by
  have hqueue := hb.queue
  rw [hb.rest] at hf
  generalize (f c).1 = c' at hf hqueue
  generalize (f c).2 = rs at hf
  have suffix : c'.queue <:+ c.queue := ⟨[], hqueue⟩
  have jobs : ∀ txs : List Signed,
      c.unqueued.unsubmitted.Perm (txs ++ c'.unqueued.unsubmitted) →
        c.unsubmitted.Perm (txs ++ c'.unsubmitted) := by
    intro txs hp
    rw [unsubmitted_unqueued c, unsubmitted_unqueued c', hqueue]
    exact (hp.append_left _).trans (List.perm_append_comm_assoc _ _ _)
  cases hf with
  | watches _ _ _ hj hw _ hr =>
    refine .inl ⟨h.of_perm [] (jobs [] hj.symm) (fun hm => ?_) suffix, fun r hm he => ?_⟩
    · exact (hw hash hm).resolve_right (by simp [unqueued, tracks])
    · obtain ⟨-, hin⟩ | ⟨g, hg, -⟩ := hr r hm
      · exact h.unwatched (he ▸ hin)
      · simp [unqueued, tracks] at hg
  | submits _ tx _ hj hw _ =>
    by_cases ht : tx.hash = hash
    · exact .inr (h.lacks (jobs [tx] hj) ht)
    · refine .inl ⟨h.of_perm [tx] (jobs [tx] hj) (fun hm => ?_) suffix, fun r hm => ?_⟩
      · exact (hw hash hm).resolve_left (Ne.symm ht)
      · rw [List.mem_singleton.mp hm]
        exact ht
  | refused _ tx g _ hj hw _ =>
    by_cases ht : tx.hash = hash
    · exact .inr (h.lacks (jobs [tx] hj) ht)
    · refine .inl ⟨h.of_perm [tx] (jobs [tx] hj) (hw hash) suffix, fun r hm => ?_⟩
      rw [List.mem_singleton.mp hm]
      exact ht

/-- A worker that takes the hash to track overhears it, unless there is nothing left to overhear. -/
theorem take (h : c.Unheard hash) (hn : ¬c.Overhears hash i) :
    ((c.take i).1.Unheard hash ∧ ∀ r ∈ (c.take i).2, r.hash ≠ hash) ∨ (c.take i).1.Lacks hash := by
  by_cases ht : c.Takes i (.track hash)
  · right
    obtain ⟨⟨ws, hidle⟩, hhead⟩ := ht
    intro tx hm he
    rcases mem_unsubmitted.mp ((unsubmitted_take c i).subset hm) with hq | ⟨j, hj⟩
    · -- the transaction would stand behind the hash to track
      obtain ⟨queue, hqueue⟩ := List.head?_eq_some_iff.mp hhead
      have horder := h.order
      rw [hqueue] at horder hq
      rcases List.mem_cons.mp hq with hq | hq
      · simp at hq
      · exact (List.pairwise_cons.mp horder).1 _ hq rfl tx (List.mem_singleton.mpr rfl) he
    · refine hn ⟨⟨⟨ws, hidle⟩, hhead⟩, j, tx, ?_, hj, he⟩
      rintro rfl
      obtain ⟨vs, hbusy⟩ := submitting?_eq_some.mp hj
      rw [hidle] at hbusy
      simp at hbusy
  · left
    refine ⟨h.of_perm [] (unsubmitted_take c i).symm (fun hm => ?_) (queue_take c i),
      fun r hm he => ?_⟩
    · exact (watched_take hm).resolve_right ht
    · obtain ⟨g, rfl, hg⟩ := reports_take hm
      obtain rfl : g = hash := he
      exact ht hg

theorem drain (h : c.Unheard hash) :
    (c.drain.1.Unheard hash ∧ ∀ r ∈ c.drain.2, r.hash ≠ hash) ∨ c.drain.1.Lacks hash := by
  simp only [Confirmer.drain]
  split
  · exact .inr fun tx hm => absurd hm List.not_mem_nil
  · exact .inl ⟨h, by simp⟩

/-- Whatever the crew does but take in jobs. -/
theorem act (h : c.Unheard hash) {x : Act} (hx : ∀ job, x ≠ .enqueue job)
    (hn : ∀ i, x = .take i → ¬c.Overhears hash i) :
    ((c.act x).1.Unheard hash ∧ ∀ r ∈ (c.act x).2, r.hash ≠ hash) ∨ (c.act x).1.Lacks hash := by
  cases x with
  | enqueue job => exact absurd rfl (hx job)
  | take i => exact h.take (hn i rfl)
  | answer i a => exact h.blind (blind_answer c i a) (c.unqueued.handles_answer i a)
  | verdict i v => exact h.blind (blind_verdict c i v) (c.unqueued.handles_verdict i v)
  | tick i => exact h.blind (blind_tick c i) (c.unqueued.handles_tick i)
  | leave i => exact h.blind (blind_leave c i) (c.unqueued.handles_leave i)
  | stop => exact h.blind (f := fun c => (c.stop, [])) ⟨rfl, rfl⟩ c.unqueued.handles_stop
  | drain => exact h.drain

theorem start (h : c.Unheard hash) : c.start.Unheard hash ∨ c.start.Lacks hash :=
  (h.blind (blind_start c) c.unqueued.handles_start).imp_left And.left

theorem track (h : c.Unheard hash) (g : Hash) :
    ({ c with queue := c.queue ++ [.track g] } : Confirmer).Unheard hash := by
  refine ⟨?_, h.unwatched, ?_⟩
  · rw [unsubmitted_track]
    exact h.once
  · refine List.pairwise_append.mpr ⟨h.order, List.pairwise_singleton _ _, fun a _ b hb _ => ?_⟩
    rw [List.mem_singleton.mp hb]
    simp [Job.submits]

theorem submit (h : c.Unheard hash) (ht : tx.hash ≠ hash) :
    ({ c with queue := c.queue ++ [.submit tx] } : Confirmer).Unheard hash := by
  refine ⟨?_, h.unwatched, ?_⟩
  · rw [((unsubmitted_push c tx).filter _).length_eq, List.filter_cons_of_neg (by simpa using ht)]
    exact h.once
  · refine List.pairwise_append.mpr ⟨h.order, List.pairwise_singleton _ _, fun a _ b hb _ t hm => ?_⟩
    rw [List.mem_singleton.mp hb] at hm
    rw [List.mem_singleton.mp hm]
    exact ht

/-- A transaction comes to a crew that knows nothing of its hash. -/
theorem opened (hl : c.Lacks hash) (hw : hash ∉ c.watched) (ht : hash ∉ c.tracks)
    (htx : tx.hash = hash) :
    ({ c with queue := c.queue ++ [.submit tx] } : Confirmer).Unheard hash := by
  have untracked : ∀ a ∈ c.queue, a ≠ .track hash := fun a ha he =>
    ht (List.mem_flatMap.mpr ⟨a, ha, by rw [he]; exact List.mem_singleton.mpr rfl⟩)
  refine ⟨?_, hw, ?_⟩
  · have hnone : c.unsubmitted.filter (·.hash = hash) = [] :=
      List.filter_eq_nil_iff.mpr fun t hm => by simpa using hl t hm
    rw [((unsubmitted_push c tx).filter _).length_eq, List.filter_cons_of_pos (by simpa using htx),
      hnone]
    exact Nat.le_refl 1
  · refine List.pairwise_append.mpr ⟨?_, List.pairwise_singleton _ _, fun a ha b _ he => ?_⟩
    · exact List.pairwise_of_forall_mem_list fun a ha b _ he => absurd he (untracked a ha)
    · exact absurd he (untracked a ha)

end Unheard

/-- A report that overhears a transaction says that it was sent. -/
theorem Overhears.reports (h : c.Overhears hash i) : (c.take i).2 = [.sent hash] := by
  obtain ⟨⟨ws, hidle⟩, hhead⟩ := h.takes
  obtain ⟨queue, hqueue⟩ := List.head?_eq_some_iff.mp hhead
  simp only [Confirmer.take, hidle, hqueue]

namespace Lacks

theorem handles {took : List Signed} {rs : List Report} (h : c.Lacks hash)
    (hf : Handles c took c' rs) : c'.Lacks hash := by
  refine h.of_subset ?_
  cases hf with
  | watches _ _ _ hj => exact hj.subset
  | submits _ _ _ hj => exact fun tx hm => hj.symm.subset (List.mem_cons_of_mem _ hm)
  | refused _ _ _ _ hj => exact fun tx hm => hj.symm.subset (List.mem_cons_of_mem _ hm)

theorem act (h : c.Lacks hash) {x : Act} (hx : ∀ job, x ≠ .enqueue job) :
    (c.act x).1.Lacks hash := by
  cases x with
  | enqueue job => exact absurd rfl (hx job)
  | take i => exact h.handles (c.handles_take i)
  | answer i a => exact h.handles (c.handles_answer i a)
  | verdict i v => exact h.handles (c.handles_verdict i v)
  | tick i => exact h.handles (c.handles_tick i)
  | leave i => exact h.handles (c.handles_leave i)
  | stop => exact h.handles c.handles_stop
  | drain =>
    simp only [Confirmer.act, Confirmer.drain]
    split
    · exact fun tx hm => absurd hm List.not_mem_nil
    · exact h

theorem track (h : c.Lacks hash) (g : Hash) :
    ({ c with queue := c.queue ++ [.track g] } : Confirmer).Lacks hash :=
  h.of_subset fun tx hm => by rwa [unsubmitted_track] at hm

theorem submit (h : c.Lacks hash) (ht : tx.hash ≠ hash) :
    ({ c with queue := c.queue ++ [.submit tx] } : Confirmer).Lacks hash := by
  intro t hm
  rcases List.mem_cons.mp ((unsubmitted_push c tx).subset hm) with rfl | hm
  · exact ht
  · exact h t hm

end Lacks

/-- No more than `n` workers, also after a start. -/
structure Within (c : Confirmer) (n : Nat) : Prop where
  crew : c.crew ≤ n
  workers : c.workers.length ≤ n

namespace Within

variable {n : Nat}

theorem change (h : c.Within n) (i : Nat) (w : Worker) : (c.change i w).Within n :=
  ⟨h.crew, by simpa only [Confirmer.change, List.length_set] using h.workers⟩

theorem proceed (h : c.Within n) (i : Nat) (rest kept : List Hash) :
    (c.proceed i rest kept).Within n := by
  cases rest <;> exact h.change i _

theorem decide (h : c.Within n) (i : Nat) (g : Hash) (rest kept : List Hash)
    (v : Except Failure Unit) : (c.decide i g rest kept v).1.Within n := by
  simp only [Confirmer.decide]
  split <;> exact h.proceed i _ _

theorem act (h : c.Within n) (x : Act) : (c.act x).1.Within n := by
  cases x with
  | enqueue job =>
    rcases c.act_enqueue job with ⟨-, hact⟩ | ⟨f, -, hact⟩
    · rw [hact]
      exact ⟨h.crew, h.workers⟩
    · rw [hact]
      exact h
  | take i =>
    simp only [Confirmer.act, Confirmer.take]
    split
    · next job queue _ _ =>
      have hqueue : ({ c with queue := queue } : Confirmer).Within n := ⟨h.crew, h.workers⟩
      cases job <;> exact hqueue.change i _
    · exact h
  | answer i a =>
    simp only [Confirmer.act, Confirmer.answer]
    split
    · split <;> exact h.change i _
    · split
      · exact h.change i _
      · exact h.decide i _ _ _ _
    · exact h
  | verdict i v =>
    simp only [Confirmer.act, Confirmer.verdict]
    split
    · exact h.decide i _ _ _ v
    · exact h
  | tick i =>
    simp only [Confirmer.act, Confirmer.tick]
    split
    · exact h.proceed i _ _
    · exact h
  | leave i =>
    simp only [Confirmer.act, Confirmer.leave]
    split
    · split
      · exact h.change i _
      · exact h
    · exact h
  | stop => exact ⟨h.crew, h.workers⟩
  | drain =>
    simp only [Confirmer.act, Confirmer.drain]
    split
    · exact ⟨h.crew, Nat.zero_le n⟩
    · exact h

theorem start (h : c.Within n) : c.start.Within n := by
  simp only [Confirmer.start]
  split
  · exact ⟨h.crew, by rw [List.length_replicate]; exact h.crew⟩
  · exact h

/-- One worker alone cannot overhear itself. -/
theorem not_overhears (h : c.Within 1) : ¬c.Overhears hash i := by
  rintro ⟨⟨⟨ws, hidle⟩, -⟩, j, tx, hne, hj, -⟩
  obtain ⟨vs, hbusy⟩ := submitting?_eq_some.mp hj
  have hi := (List.getElem?_eq_some_iff.mp hidle).1
  have hj' := (List.getElem?_eq_some_iff.mp hbusy).1
  have hone := h.workers
  omega

end Within

end Outbox.Confirmer
