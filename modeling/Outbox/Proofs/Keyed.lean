import Outbox.Keyed
import Mathlib.Data.List.Basic

namespace Outbox.Keyed

variable {κ β : Type} [DecidableEq κ]

def Distinct (m : Keyed κ β) : Prop := (m.map Prod.fst).Nodup

theorem mem_erase {m : Keyed κ β} {k : κ} {e : κ × β} : e ∈ erase m k ↔ e ∈ m ∧ e.1 ≠ k := by
  simp [erase]

theorem distinct_erase {m : Keyed κ β} (h : Distinct m) (k : κ) : Distinct (erase m k) := by
  have hs : (erase m k).Sublist m := List.filter_sublist
  exact h.sublist (hs.map Prod.fst)

theorem distinct_put {m : Keyed κ β} (h : Distinct m) (k : κ) (v : β) : Distinct (put m k v) := by
  have hk : k ∉ (erase m k).map Prod.fst := by
    intro hm
    obtain ⟨e, he, hek⟩ := List.mem_map.mp hm
    exact (mem_erase.mp he).2 hek
  exact List.nodup_cons.mpr ⟨hk, distinct_erase h k⟩

theorem mem_of_get? {m : Keyed κ β} {k : κ} {v : β} (h : get? m k = some v) : (k, v) ∈ m := by
  induction m with
  | nil => simp [get?] at h
  | cons e rest ih =>
    simp only [get?] at h
    split at h
    · next he =>
      obtain rfl : e.2 = v := Option.some.inj h
      rw [← he]
      exact List.mem_cons_self
    · exact List.mem_cons_of_mem _ (ih h)

theorem get?_of_mem {m : Keyed κ β} (hd : Distinct m) {k : κ} {v : β} (h : (k, v) ∈ m) :
    get? m k = some v := by
  induction m with
  | nil => simp at h
  | cons e rest ih =>
    obtain ⟨hne, hd'⟩ := List.nodup_cons.mp hd
    rcases List.mem_cons.mp h with rfl | hr
    · simp [get?]
    · have hk : e.1 ≠ k := by
        intro he
        exact hne (he ▸ List.mem_map_of_mem hr)
      simp only [get?, if_neg hk]
      exact ih hd' hr

/-- A key is there if it stands in some pair. -/
theorem has_iff {m : Keyed κ β} {k : κ} : has m k = true ↔ k ∈ m.map Prod.fst := by
  induction m with
  | nil => simp [has, get?]
  | cons e rest ih =>
    simp only [has, get?, List.map_cons, List.mem_cons] at ih ⊢
    by_cases he : e.1 = k
    · simp [he]
    · rw [if_neg he, ih]
      simp [Ne.symm he]

theorem erase_of_get?_none {m : Keyed κ β} {k : κ} (h : get? m k = none) : erase m k = m := by
  induction m with
  | nil => rfl
  | cons e rest ih =>
    simp only [get?] at h
    split at h
    · simp at h
    · next he =>
      have hr : erase rest k = rest := ih h
      simp only [erase] at hr ⊢
      rw [List.filter_cons_of_pos (by simpa using he), hr]

theorem get?_put (m : Keyed κ β) (k j : κ) (v : β) :
    get? (put m k v) j = if j = k then some v else get? m j := by
  by_cases h : j = k
  · rw [if_pos h, h]
    exact get?_put_self m k v
  · rw [if_neg h]
    exact get?_put_of_ne m v h

theorem get?_erase (m : Keyed κ β) (k j : κ) :
    get? (erase m k) j = if j = k then none else get? m j := by
  by_cases h : j = k
  · rw [if_pos h, h]
    exact get?_erase_self m k
  · rw [if_neg h]
    exact get?_erase_of_ne m h

theorem forall_get?_erase {P : κ → β → Prop} {m : Keyed κ β}
    (h : ∀ j v, get? m j = some v → P j v) (k : κ) :
    ∀ j v, get? (erase m k) j = some v → P j v := by
  intro j v hj
  rw [get?_erase] at hj
  split at hj
  · simp at hj
  · exact h j v hj

theorem forall_get?_put {P : κ → β → Prop} {m : Keyed κ β}
    (h : ∀ j v, get? m j = some v → P j v) {k : κ} {v : β} (hv : P k v) :
    ∀ j w, get? (put m k v) j = some w → P j w := by
  intro j w hj
  rw [get?_put] at hj
  split at hj
  · next hk =>
    obtain rfl := Option.some.inj hj
    rw [hk]
    exact hv
  · exact h j w hj

theorem get?_dropLast {m : Keyed κ β} {k : κ} {v : β} (h : get? m.dropLast k = some v) :
    get? m k = some v := by
  induction m with
  | nil => exact h
  | cons e rest ih =>
    cases rest with
    | nil => simp [get?] at h
    | cons e' rest =>
      simp only [List.dropLast_cons_cons, get?] at h ⊢
      split at h
      · next he => rw [if_pos he]; exact h
      · next he => rw [if_neg he]; exact ih h

/-- Dropping the last pair loses at most the key of that pair. -/
theorem get?_dropLast_or {m : Keyed κ β} {k last : κ} {w : β} (hl : m.getLast? = some (last, w)) :
    get? m.dropLast k = get? m k ∨ (k = last ∧ get? m.dropLast k = none) := by
  induction m with
  | nil => simp at hl
  | cons e rest ih =>
    cases rest with
    | nil =>
      obtain rfl : e = (last, w) := by simpa using hl
      by_cases hk : last = k
      · exact .inr ⟨hk.symm, rfl⟩
      · exact .inl (by simp [get?, hk])
    | cons e' rest =>
      have hl' : (e' :: rest).getLast? = some (last, w) := by simpa using hl
      simp only [List.dropLast_cons_cons, get?]
      by_cases he : e.1 = k
      · exact .inl (by simp only [if_pos he])
      · simpa only [if_neg he, get?] using ih hl'

/-- A key that goes with the last pair had that pair's value. -/
theorem get?_of_dropLast_eq_none {m : Keyed κ β} {k : κ} {w : β} (hl : m.getLast? = some (k, w))
    (hn : get? m.dropLast k = none) : get? m k = some w := by
  induction m with
  | nil => simp at hl
  | cons e rest ih =>
    cases rest with
    | nil =>
      obtain rfl : e = (k, w) := by simpa using hl
      simp [get?]
    | cons e' rest =>
      have hl' : (e' :: rest).getLast? = some (k, w) := by simpa using hl
      simp only [List.dropLast_cons_cons, get?] at hn
      split at hn
      · simp at hn
      · next he =>
        simp only [get?, if_neg he]
        exact ih hl' hn

theorem perm_of_get? {m : Keyed κ β} (hd : Distinct m) {k : κ} {v : β} (h : get? m k = some v) :
    m.Perm ((k, v) :: erase m k) := by
  induction m with
  | nil => simp [get?] at h
  | cons e rest ih =>
    obtain ⟨hne, hd'⟩ := List.nodup_cons.mp hd
    simp only [get?] at h
    by_cases he : e.1 = k
    · obtain rfl : e.2 = v := by simpa [he] using h
      have hr : get? rest k = none := by
        cases hg : get? rest k with
        | none => rfl
        | some w => exact absurd (he ▸ List.mem_map_of_mem (mem_of_get? hg)) hne
      have hk : erase (e :: rest) k = rest := by
        simp only [erase]
        rw [List.filter_cons_of_neg (by simpa using he)]
        exact erase_of_get?_none hr
      rw [hk, ← he]
    · have hk : erase (e :: rest) k = e :: erase rest k := by
        simp only [erase]
        rw [List.filter_cons_of_pos (by simpa using he)]
      rw [hk]
      have hp := ih hd' (by simpa [he] using h)
      exact (hp.cons e).trans (List.Perm.swap _ _ _)

end Outbox.Keyed
