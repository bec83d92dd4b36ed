namespace Outbox

/-- A finite map, the most recently written pair first and no key twice. The order is part of the
meaning. -/
abbrev Keyed (κ β : Type) := List (κ × β)

namespace Keyed

variable {κ β : Type} [DecidableEq κ]

def get? (m : Keyed κ β) (k : κ) : Option β :=
  match m with
  | [] => none
  | (k', v) :: rest => if k' = k then some v else get? rest k

def erase (m : Keyed κ β) (k : κ) : Keyed κ β := m.filter (fun e => e.1 ≠ k)

/-- The written key moves to the front. -/
def put (m : Keyed κ β) (k : κ) (v : β) : Keyed κ β := (k, v) :: erase m k

def has (m : Keyed κ β) (k : κ) : Bool := (get? m k).isSome

theorem get?_put_self (m : Keyed κ β) (k : κ) (v : β) : get? (put m k v) k = some v := by
  simp [put, get?]

theorem get?_erase_self (m : Keyed κ β) (k : κ) : get? (erase m k) k = none := by
  induction m with
  | nil => rfl
  | cons e rest ih =>
    simp only [erase, List.filter_cons]
    split
    · next h => simp only [get?]; rw [if_neg (by simpa using h)]; exact ih
    · exact ih

theorem get?_erase_of_ne (m : Keyed κ β) {k j : κ} (h : j ≠ k) :
    get? (erase m k) j = get? m j := by
  induction m with
  | nil => rfl
  | cons e rest ih =>
    simp only [erase, List.filter_cons]
    split
    · simp only [get?]; split
      · rfl
      · exact ih
    · next he =>
      have : e.1 = k := by simpa using he
      simp only [get?]
      rw [if_neg (by rw [this]; exact fun hk => h hk.symm)]
      exact ih

theorem get?_put_of_ne (m : Keyed κ β) {k j : κ} (v : β) (h : j ≠ k) :
    get? (put m k v) j = get? m j := by
  simp only [put, get?]
  rw [if_neg (fun hk => h hk.symm)]
  exact get?_erase_of_ne m h

end Keyed
end Outbox
