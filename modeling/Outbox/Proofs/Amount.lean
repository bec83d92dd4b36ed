import Mathlib.Data.List.TakeWhile
import Mathlib.Tactic.Positivity
import Mathlib.Tactic.Ring
import Outbox.Amount

namespace Outbox.Amount

/-- Digits with underscores among them and at most one point. -/
structure IsNumeral (text : List Char) : Prop where
  digit : ∃ c ∈ text, c.isDigit = true
  allowed : ∀ c ∈ text, c.isDigit = true ∨ c = '_' ∨ c = '.'
  point : text.count '.' ≤ 1

def plain (text : List Char) : List Char := text.filter (· ≠ '_')

def whole (text : List Char) : List Char := (plain text).takeWhile (· ≠ '.')

def fraction (text : List Char) : List Char := ((plain text).dropWhile (· ≠ '.')).drop 1

def AllDigits (cs : List Char) : Prop := ∀ c ∈ cs, c.isDigit = true

/-- What digits stand for behind a number. -/
def valueFrom (n : Nat) (cs : List Char) : Nat := cs.foldl (fun n c => 10 * n + (c.toNat - 48)) n

def value (cs : List Char) : Nat := valueFrom 0 cs

/-- The value of a numeral times a power of ten, without what remains behind the point. -/
def scaledValue (text : List Char) (decimals : Nat) : Nat :=
  value (whole text ++ fraction text) * 10 ^ decimals / 10 ^ (fraction text).length

/-- An amount is answered by its scaled value or refused. -/
def Faithful (amount : String) (decimals : Nat) : Prop :=
  match parse amount decimals with
  | .ok w => IsNumeral amount.toList ∧ w = scaledValue amount.toList decimals ∧ w < bound
  | .error (.failed _) => True
  | .error (.aborted _) => False

/-- As much of the amount as is looked at. -/
def kept (text : List Char) (decimals : Nat) : List Char :=
  whole text ++ fitBytes decimals (fraction text)

/-- The power of ten by which the kept digits are multiplied. -/
def scale (text : List Char) (decimals : Nat) : Nat :=
  10 ^ (decimals - byteLength (fraction text))

/-- The last place that counts ends inside a character. -/
def CutsInside (text : List Char) (decimals : Nat) : Prop :=
  byteLength (fitBytes decimals (fraction text)) < decimals ∧
    decimals < byteLength (fraction text)

/-- Behind a minus sign: nothing, or a number that half of the bound is enough for, as it is for the
power of ten. -/
def TakenSigned (magnitude : List Char) (power : Nat) : Prop :=
  magnitude = [] ∨ AllDigits magnitude ∧ 0 < value magnitude ∧ value magnitude ≤ bound / 2 ∧
    power < bound / 2

/-- A minus sign, and what is kept behind it is taken. -/
def BelowZero (text : List Char) (decimals : Nat) : Prop :=
  (plain text).head? = some '-' ∧ ∃ m, kept text decimals = '-' :: m ∧
    TakenSigned m (scale text decimals)

/-- Number and power of ten fit, but not their product. -/
def Overflows (text : List Char) (decimals : Nat) : Prop :=
  AllDigits (kept text decimals) ∧ value (kept text decimals) < bound ∧
    scale text decimals < bound ∧ bound ≤ value (kept text decimals) * scale text decimals

/-- No numeral, but what is kept of it could be one, or is nothing. -/
def ReadInPart (text : List Char) (decimals : Nat) : Prop :=
  ¬IsNumeral text ∧ AllDigits (kept text decimals) ∧ scale text decimals < bound ∧
    value (kept text decimals) * scale text decimals < bound

section Digits

variable {n w : Nat} {c : Char} {cs ds : List Char}

theorem bound_pos : 0 < bound := by decide

theorem digit?_eq_some {d : Nat} : digit? c = some d ↔ c.isDigit = true ∧ d = c.toNat - 48 := by
  unfold digit?
  split
  · next h => simp [h, eq_comm]
  · next h => simp [h]

theorem valueFrom_append (n : Nat) (cs ds : List Char) :
    valueFrom n (cs ++ ds) = valueFrom (valueFrom n cs) ds := by
  simp [valueFrom]

/-- Digits behind a number shift it by their count. -/
theorem valueFrom_eq (n : Nat) (cs : List Char) :
    valueFrom n cs = n * 10 ^ cs.length + value cs := by
  induction cs generalizing n with
  | nil => simp [valueFrom, value]
  | cons c cs ih =>
    have hzero := ih (10 * 0 + (c.toNat - 48))
    have hn := ih (10 * n + (c.toNat - 48))
    simp only [value, valueFrom, List.foldl_cons, List.length_cons, pow_succ] at *
    rw [hn, hzero]
    ring

theorem le_valueFrom (n : Nat) (cs : List Char) : n ≤ valueFrom n cs := by
  rw [valueFrom_eq]
  exact le_trans (Nat.le_mul_of_pos_right n (by positivity)) (Nat.le_add_right _ _)

theorem digit_lt (h : c.isDigit = true) : c.toNat - 48 < 10 := by
  simp only [Char.isDigit, Bool.and_eq_true, decide_eq_true_eq, UInt32.le_iff_toNat_le] at h
  have hhigh : c.toNat ≤ 57 := h.2
  omega

theorem value_lt (h : AllDigits cs) : value cs < 10 ^ cs.length := by
  induction cs with
  | nil => simp [value, valueFrom]
  | cons c cs ih =>
    have hhead := digit_lt (h c List.mem_cons_self)
    have htail := ih fun x hx => h x (List.mem_cons_of_mem _ hx)
    have hvalue : value (c :: cs) = (c.toNat - 48) * 10 ^ cs.length + value cs := by
      rw [value, ← valueFrom_eq]
      simp [valueFrom]
    calc value (c :: cs) < (c.toNat - 48) * 10 ^ cs.length + 10 ^ cs.length := by omega
      _ = (c.toNat - 48 + 1) * 10 ^ cs.length := by ring
      _ ≤ 10 * 10 ^ cs.length := Nat.mul_le_mul_right _ (by omega)
      _ = 10 ^ (c :: cs).length := by rw [List.length_cons, pow_succ']

/-- Reading on from a number succeeds as far as the digits go and stay in bounds. -/
theorem digitsFrom_eq_ok (hn : n < bound) :
    digitsFrom n cs = .ok w ↔ AllDigits cs ∧ valueFrom n cs = w ∧ w < bound := by
  induction cs generalizing n with
  | nil =>
    simp only [digitsFrom, valueFrom, List.foldl_nil, Except.ok.injEq, AllDigits,
      List.not_mem_nil, false_implies, implies_true, true_and]
    constructor
    · rintro rfl
      exact ⟨rfl, hn⟩
    · exact fun h => h.1
  | cons c cs ih =>
    have hcons : valueFrom n (c :: cs) = valueFrom (10 * n + (c.toNat - 48)) cs := rfl
    have hall : AllDigits (c :: cs) ↔ c.isDigit = true ∧ AllDigits cs := List.forall_mem_cons
    rw [digitsFrom, hcons, hall]
    cases hd : digit? c with
    | none =>
      have hno : c.isDigit = false := by simpa [digit?] using hd
      simp [hno]
    | some d =>
      obtain ⟨hdigit, rfl⟩ := digit?_eq_some.mp hd
      simp only [hdigit, true_and]
      by_cases hlt : 10 * n + (c.toNat - 48) < bound
      · rw [if_pos hlt]
        exact ih hlt
      · have hle := le_valueFrom (10 * n + (c.toNat - 48)) cs
        rw [if_neg hlt]
        constructor
        · intro h
          simp at h
        · rintro ⟨-, rfl, hw⟩
          exact absurd (lt_of_le_of_lt hle hw) hlt

theorem unsigned_eq_ok : unsigned cs = .ok w ↔ AllDigits cs ∧ value cs = w ∧ w < bound :=
  digitsFrom_eq_ok bound_pos

/-- A lone sign is zero; other magnitudes are not. -/
theorem magnitude_eq_ok :
    magnitude cs = .ok w ↔
      cs = [] ∧ w = 0 ∨ AllDigits cs ∧ value cs = w ∧ 0 < w ∧ w ≤ bound / 2 := by
  unfold magnitude
  split
  · next hnil =>
    have hzero : value cs = 0 := by rw [hnil]; rfl
    rw [Except.ok.injEq]
    constructor
    · rintro rfl
      exact .inl ⟨hnil, rfl⟩
    · rintro (⟨-, rfl⟩ | ⟨-, hvalue, hpos, -⟩)
      · rfl
      · omega
  · next hne =>
    have hhalf : bound / 2 < bound := by decide
    cases hread : unsigned cs with
    | ok n =>
      obtain ⟨hall, hvalue, -⟩ := unsigned_eq_ok.mp hread
      simp only [hne, false_and, false_or]
      split
      · next hn =>
        rw [Except.ok.injEq]
        constructor
        · rintro rfl
          exact ⟨hall, hvalue, hn⟩
        · rintro ⟨-, hw, -⟩
          exact hvalue.symm.trans hw
      · next hn =>
        constructor
        · intro h
          simp at h
        · rintro ⟨-, hw, hbounds⟩
          exact absurd (hvalue.symm.trans hw ▸ hbounds) hn
    | error m =>
      have hno : ¬(AllDigits cs ∧ value cs = w ∧ 0 < w ∧ w ≤ bound / 2) := by
        rintro ⟨hall, hvalue, -, hle⟩
        rw [unsigned_eq_ok.mpr ⟨hall, hvalue, lt_of_le_of_lt hle hhalf⟩] at hread
        simp at hread
      cases m <;> simp [hne, hno]

/-- No power of ten with more than seventy-eight digits fits. -/
theorem tenPower?_eq_some {limit e k : Nat} (hlimit : limit ≤ bound) :
    tenPower? limit e = some k ↔ 10 ^ e < limit ∧ k = 10 ^ e := by
  have hpow : Nat.pow 10 e = 10 ^ e := rfl
  have hsmall : 10 ^ e < limit → e < 78 := by
    intro h
    by_contra hlarge
    have hle : 10 ^ 78 ≤ 10 ^ e := Nat.pow_le_pow_right (by decide) (by omega)
    have hbound : bound < 10 ^ 78 := by decide
    omega
  unfold tenPower?
  rw [hpow]
  split
  · next h => simp [h.2, eq_comm]
  · next h =>
    have hno : ¬10 ^ e < limit := fun hlt => h ⟨hsmall hlt, hlt⟩
    simp [hno]

end Digits

section Bytes

variable {n : Nat} {c : Char} {cs ds : List Char}

theorem byteLength_from (n : Nat) (cs : List Char) :
    cs.foldl (fun n c => n + c.utf8Size) n = n + byteLength cs := by
  induction cs generalizing n with
  | nil => rfl
  | cons c cs ih =>
    rw [byteLength, List.foldl_cons, List.foldl_cons, ih, ih (0 + c.utf8Size)]
    omega

@[simp]
theorem byteLength_nil : byteLength [] = 0 := rfl

@[simp]
theorem byteLength_cons (c : Char) (cs : List Char) :
    byteLength (c :: cs) = c.utf8Size + byteLength cs := by
  rw [byteLength, List.foldl_cons, byteLength_from]
  omega

@[simp]
theorem byteLength_append (cs ds : List Char) :
    byteLength (cs ++ ds) = byteLength cs + byteLength ds := by
  induction cs with
  | nil => simp
  | cons c cs ih =>
    rw [List.cons_append, byteLength_cons, byteLength_cons, ih]
    omega

theorem fitBytes_of_le (h : byteLength cs ≤ n) : fitBytes n cs = cs := by
  induction cs generalizing n with
  | nil => rfl
  | cons c cs ih =>
    rw [byteLength_cons] at h
    rw [fitBytes, if_pos (by omega), ih (by omega)]

theorem fitBytes_append (n : Nat) (cs ds : List Char) :
    fitBytes (byteLength cs + n) (cs ++ ds) = cs ++ fitBytes n ds := by
  induction cs with
  | nil => simp
  | cons c cs ih =>
    have hrest : byteLength (c :: cs) + n - c.utf8Size = byteLength cs + n := by
      rw [byteLength_cons]
      omega
    rw [List.cons_append, fitBytes, hrest, ih, if_pos (by rw [byteLength_cons]; omega),
      List.cons_append]

theorem byteLength_fitBytes_le (n : Nat) (cs : List Char) : byteLength (fitBytes n cs) ≤ n := by
  induction cs generalizing n with
  | nil => simp [fitBytes]
  | cons c cs ih =>
    rw [fitBytes]
    split
    · have hrest := ih (n - c.utf8Size)
      rw [byteLength_cons]
      omega
    · simp

theorem takeBytes_fits (start : Nat) (h : byteLength (fitBytes n cs) = n ∨ byteLength cs ≤ n) :
    takeBytes start n cs = .ok (fitBytes n cs) := by
  induction cs generalizing start n with
  | nil => rfl
  | cons c cs ih =>
    have hsize := c.utf8Size_pos
    by_cases hn : n = 0
    · have hnot : ¬c.utf8Size ≤ 0 := by omega
      rw [hn, takeBytes, if_pos rfl, fitBytes, if_neg hnot]
    · have hfits : c.utf8Size ≤ n := by
        by_contra hnot
        rw [fitBytes, if_neg hnot, byteLength_nil, byteLength_cons] at h
        omega
      have hrest : byteLength (fitBytes (n - c.utf8Size) cs) = n - c.utf8Size ∨
          byteLength cs ≤ n - c.utf8Size := by
        rw [fitBytes, if_pos hfits, byteLength_cons, byteLength_cons] at h
        omega
      rw [takeBytes, if_neg hn, if_neg (by omega), ih _ hrest, fitBytes, if_pos hfits]
      rfl

theorem takeBytes_straddles (start : Nat) (hfit : byteLength (fitBytes n cs) < n)
    (hmore : n < byteLength cs) : ∃ place, takeBytes start n cs = .error place := by
  induction cs generalizing start n with
  | nil => simp at hmore
  | cons c cs ih =>
    by_cases hfits : c.utf8Size ≤ n
    · rw [fitBytes, if_pos hfits, byteLength_cons] at hfit
      rw [byteLength_cons] at hmore
      obtain ⟨place, hplace⟩ := ih (start + c.utf8Size) (n := n - c.utf8Size) (by omega) (by omega)
      refine ⟨place, ?_⟩
      rw [takeBytes, if_neg (by omega), if_neg (by omega), hplace]
      rfl
    · exact ⟨(c, start), by rw [takeBytes, if_neg (by omega), if_pos (by omega)]⟩

end Bytes

section Reading

variable {text : List Char} {decimals : Nat}

/-- Surplus places are counted from the end of the digits, that is, from the point. -/
theorem cut_index (h : decimals < byteLength (fraction text)) :
    byteLength (whole text ++ fraction text) - (byteLength (fraction text) - decimals) =
      byteLength (whole text) + decimals := by
  rw [byteLength_append]
  omega

theorem read_eq (decimals : Nat) (text : List Char) :
    read decimals text =
      if decimals < byteLength (fraction text) then
        match takeBytes 0 (byteLength (whole text ++ fraction text) -
            (byteLength (fraction text) - decimals)) (whole text ++ fraction text) with
        | .error (c, start) => .error (.inr (straddled (byteLength (whole text ++ fraction text) -
            (byteLength (fraction text) - decimals)) c start (whole text ++ fraction text)))
        | .ok digits => scaled ((plain text).head? == some '-') digits 0
      else scaled ((plain text).head? == some '-') (whole text ++ fraction text)
        (decimals - byteLength (fraction text)) := rfl

theorem read_cut (h : CutsInside text decimals) :
    ∃ message, read decimals text = .error (.inr message) := by
  obtain ⟨hfit, hmore⟩ := h
  have hfit' : byteLength (fitBytes (byteLength (whole text) + decimals)
      (whole text ++ fraction text)) < byteLength (whole text) + decimals := by
    rw [fitBytes_append, byteLength_append]
    omega
  have hmore' : byteLength (whole text) + decimals < byteLength (whole text ++ fraction text) := by
    rw [byteLength_append]
    omega
  obtain ⟨place, hplace⟩ := takeBytes_straddles 0 hfit' hmore'
  rw [read_eq, if_pos hmore, cut_index hmore, hplace]
  exact ⟨_, rfl⟩

/-- What is looked at is read as a number, with or without a sign, and scaled. -/
theorem read_kept (h : ¬CutsInside text decimals) :
    read decimals text = scaled ((plain text).head? == some '-') (kept text decimals)
      (decimals - byteLength (fraction text)) := by
  rw [read_eq]
  split
  · next hmore =>
    have hfit : byteLength (fitBytes decimals (fraction text)) = decimals := by
      have hle := byteLength_fitBytes_le decimals (fraction text)
      by_contra hne
      exact h ⟨by omega, hmore⟩
    have htake : takeBytes 0 (byteLength (whole text) + decimals) (whole text ++ fraction text) =
        .ok (kept text decimals) := by
      rw [takeBytes_fits 0 (.inl (by rw [fitBytes_append, byteLength_append, hfit])),
        fitBytes_append]
      rfl
    rw [cut_index hmore, htake, Nat.sub_eq_zero_of_le (Nat.le_of_lt hmore)]
  · next hmore =>
    rw [kept, fitBytes_of_le (by omega)]

/-- Without a sign the number is refused, or too large by its power of ten, or answered. -/
theorem scaled_plain_of_not {cs : List Char} {e : Nat}
    (h : ¬(AllDigits cs ∧ value cs < bound ∧ 10 ^ e < bound)) :
    ∃ m, scaled false cs e = .error (.inl m) := by
  simp only [scaled, Bool.false_eq_true, if_false]
  cases hread : unsigned cs with
  | error m => exact ⟨m, rfl⟩
  | ok n =>
    obtain ⟨hall, rfl, hlt⟩ := unsigned_eq_ok.mp hread
    cases hpow : tenPower? bound e with
    | none => exact ⟨.scaleTooLarge, rfl⟩
    | some k => exact absurd ⟨hall, hlt, ((tenPower?_eq_some le_rfl).mp hpow).1⟩ h

theorem scaled_plain {cs : List Char} {e : Nat} (hall : AllDigits cs) (hlt : value cs < bound)
    (hscale : 10 ^ e < bound) :
    scaled false cs e =
      if value cs * 10 ^ e < bound then .ok (value cs * 10 ^ e)
      else .error (.inr "arithmetic operation overflow") := by
  have hread : unsigned cs = .ok (value cs) := unsigned_eq_ok.mpr ⟨hall, rfl, hlt⟩
  have hpow : tenPower? bound e = some (10 ^ e) := (tenPower?_eq_some le_rfl).mpr ⟨hscale, rfl⟩
  simp only [scaled, Bool.false_eq_true, if_false, hread, hpow]

/-- With a sign the product may be as large as it is: it is answered in two's complement. -/
theorem scaled_signed {m : List Char} {e : Nat} (h : TakenSigned m (10 ^ e)) :
    scaled true ('-' :: m) e = .ok (complement (value m * 10 ^ e)) := by
  rcases h with rfl | ⟨hall, hpos, hle, hscale⟩
  · simp [scaled, magnitude, value, valueFrom, complement]
  · have hread : magnitude m = .ok (value m) := magnitude_eq_ok.mpr (.inr ⟨hall, rfl, hpos, hle⟩)
    have hpow : tenPower? (bound / 2) e = some (10 ^ e) :=
      (tenPower?_eq_some (by decide)).mpr ⟨hscale, rfl⟩
    have hne : m ≠ [] := by
      rintro rfl
      simp [value, valueFrom] at hpos
    simp [scaled, hread, hpow, hne]

theorem scaled_signed_of_not {m : List Char} {e : Nat} (h : ¬TakenSigned m (10 ^ e)) :
    ∃ f, scaled true ('-' :: m) e = .error (.inl f) := by
  have hne : m ≠ [] := fun hnil => h (.inl hnil)
  simp only [scaled, if_true, List.drop_succ_cons, List.drop_zero]
  cases hread : magnitude m with
  | error f => exact ⟨f, rfl⟩
  | ok n =>
    obtain ⟨hall, rfl, hpos, hle⟩ := (magnitude_eq_ok.mp hread).resolve_left fun hnil => hne hnil.1
    cases hpow : tenPower? (bound / 2) e with
    | none => exact ⟨.scaleTooLarge, by simp [hne]⟩
    | some k =>
      have hscale := ((tenPower?_eq_some (by decide)).mp hpow).1
      exact absurd (.inr ⟨hall, hpos, hle, hscale⟩) h

end Reading

section Numerals

variable {text : List Char} {decimals : Nat}

theorem utf8Size_of_isDigit {c : Char} (h : c.isDigit = true) : c.utf8Size = 1 := by
  simp only [Char.isDigit, Bool.and_eq_true, decide_eq_true_eq] at h
  rw [Char.utf8Size_eq_one_iff]
  exact UInt32.le_trans h.2 (by decide)

theorem byteLength_of_digits {cs : List Char} (h : AllDigits cs) : byteLength cs = cs.length := by
  induction cs with
  | nil => rfl
  | cons c cs ih =>
    have hsize := utf8Size_of_isDigit (h c List.mem_cons_self)
    rw [byteLength_cons, hsize, ih fun x hx => h x (List.mem_cons_of_mem _ hx), List.length_cons]
    omega

theorem fitBytes_of_digits {cs : List Char} (h : AllDigits cs) (n : Nat) :
    fitBytes n cs = cs.take n := by
  induction cs generalizing n with
  | nil => simp [fitBytes]
  | cons c cs ih =>
    have hsize := utf8Size_of_isDigit (h c List.mem_cons_self)
    have htail := ih (fun x hx => h x (List.mem_cons_of_mem _ hx)) (n - 1)
    cases n with
    | zero => simp [fitBytes, hsize]
    | succ n => simpa [fitBytes, hsize] using htail

/-- Without underscores a text is its whole part and, if it has a point, the point and its
fraction. -/
theorem plain_cases (text : List Char) :
    (plain text = whole text ∧ fraction text = []) ∨
      plain text = whole text ++ '.' :: fraction text := by
  have hsplit : whole text ++ (plain text).dropWhile (· ≠ '.') = plain text :=
    List.takeWhile_append_dropWhile
  cases hrest : (plain text).dropWhile (· ≠ '.') with
  | nil =>
    rw [hrest, List.append_nil] at hsplit
    exact .inl ⟨hsplit.symm, by rw [fraction, hrest]; rfl⟩
  | cons c cs =>
    have hhead := List.head?_dropWhile_not (· ≠ '.') (plain text)
    rw [hrest] at hhead hsplit
    have hc : c = '.' := by simpa using hhead
    have hfraction : fraction text = cs := by rw [fraction, hrest]; rfl
    rw [hfraction, ← hsplit, hc]
    exact .inr rfl

theorem IsNumeral.digits (h : IsNumeral text) : AllDigits (whole text ++ fraction text) := by
  have hplain : ∀ c ∈ plain text, c ≠ '.' → c.isDigit = true := by
    intro c hc hne
    obtain ⟨hmem, hunder⟩ := List.mem_filter.mp hc
    rcases h.allowed c hmem with hdigit | rfl | rfl
    · exact hdigit
    · simp at hunder
    · exact absurd rfl hne
  have hcount : (plain text).count '.' ≤ 1 :=
    le_trans (List.Sublist.count_le '.' (List.filter_sublist ..)) h.point
  have hwhole : '.' ∉ whole text := fun hmem => by simpa using List.mem_takeWhile_imp hmem
  have hfraction : '.' ∉ fraction text := by
    rcases plain_cases text with ⟨-, hnil⟩ | hsplit
    · simp [hnil]
    · rw [hsplit, List.count_append, List.count_cons_self] at hcount
      exact List.count_eq_zero.mp (by omega)
  have hsub : ∀ c ∈ whole text ++ fraction text, c ∈ plain text := by
    intro c hc
    rcases plain_cases text with ⟨hsplit, hnil⟩ | hsplit
    · rw [hsplit]
      simpa [hnil] using hc
    · rw [hsplit]
      rcases List.mem_append.mp hc with hc | hc
      · exact List.mem_append_left _ hc
      · exact List.mem_append_right _ (List.mem_cons_of_mem _ hc)
  intro c hc
  refine hplain c (hsub c hc) ?_
  rintro rfl
  rcases List.mem_append.mp hc with hc | hc
  · exact hwhole hc
  · exact hfraction hc

/-- The sign is no part of a numeral. -/
theorem IsNumeral.not_signed (h : IsNumeral text) : (plain text).head? ≠ some '-' := by
  intro hhead
  have hmem : '-' ∈ text := (List.mem_filter.mp (List.mem_of_mem_head? hhead)).1
  have hallowed := h.allowed _ hmem
  simp at hallowed

/-- Kept digits times the power of ten are the scaled value. -/
theorem IsNumeral.scaledValue_eq (h : IsNumeral text) (decimals : Nat) :
    scaledValue text decimals = value (kept text decimals) * scale text decimals := by
  have hdigits : AllDigits (fraction text) := fun c hc => h.digits c (List.mem_append_right _ hc)
  rw [kept, scale, fitBytes_of_digits hdigits, byteLength_of_digits hdigits, scaledValue]
  by_cases hle : (fraction text).length ≤ decimals
  · rw [List.take_of_length_le hle]
    obtain ⟨e, rfl⟩ := Nat.exists_eq_add_of_le hle
    rw [Nat.add_sub_cancel_left, pow_add, mul_left_comm, Nat.mul_div_cancel_left _ (by positivity)]
  · have hlt : decimals < (fraction text).length := by omega
    have hcut : whole text ++ fraction text =
        whole text ++ (fraction text).take decimals ++ (fraction text).drop decimals := by
      rw [List.append_assoc, List.take_append_drop]
    have hsurplus :
        value ((fraction text).drop decimals) < 10 ^ ((fraction text).length - decimals) := by
      have hdropped : AllDigits ((fraction text).drop decimals) := fun c hc =>
        hdigits c (List.mem_of_mem_drop hc)
      have hvalue := value_lt hdropped
      rwa [List.length_drop] at hvalue
    have hpow : 10 ^ (fraction text).length =
        10 ^ ((fraction text).length - decimals) * 10 ^ decimals := by
      rw [← pow_add, Nat.sub_add_cancel (Nat.le_of_lt hlt)]
    rw [hpow, Nat.mul_div_mul_right _ _ (by positivity), Nat.sub_eq_zero_of_le (Nat.le_of_lt hlt),
      hcut, value, valueFrom_append, valueFrom_eq, List.length_drop, ← value, pow_zero, mul_one,
      Nat.add_comm, Nat.add_mul_div_right _ _ (by positivity), Nat.div_eq_of_lt hsurplus, zero_add]

end Numerals

theorem parse_answered {amount : String} {decimals w : Nat}
    (h : read decimals amount.toList = .ok w) : parse amount decimals = .ok w := by
  simp [parse, h]

theorem parse_aborted {amount message : String} {decimals : Nat}
    (h : read decimals amount.toList = .error (.inr message)) :
    parse amount decimals = .error (.aborted message) := by
  simp [parse, h]

theorem not_faithful_of_aborted {amount message : String} {decimals : Nat}
    (h : parse amount decimals = .error (.aborted message)) : ¬Faithful amount decimals := by
  intro hfaithful
  simp only [Faithful, h] at hfaithful

theorem faithful_refused {amount : String} {decimals : Nat} {m : Misreading}
    (h : read decimals amount.toList = .error (.inl m)) : Faithful amount decimals := by
  simp [Faithful, parse, h]

theorem faithful_answered {amount : String} {decimals w : Nat} (h : parse amount decimals = .ok w) :
    Faithful amount decimals ↔
      IsNumeral amount.toList ∧ w = scaledValue amount.toList decimals ∧ w < bound := by
  simp [Faithful, h]

theorem kept_signed {text : List Char} (h : (plain text).head? = some '-') (decimals : Nat) :
    ∃ m, kept text decimals = '-' :: m := by
  obtain ⟨rest, hrest⟩ := List.head?_eq_some_iff.mp h
  have hwhole : whole text = '-' :: rest.takeWhile (· ≠ '.') := by
    rw [whole, hrest]
    rfl
  exact ⟨_, by rw [kept, hwhole, List.cons_append]⟩

theorem not_digits_of_signed {text : List Char} (h : (plain text).head? = some '-')
    (decimals : Nat) : ¬AllDigits (kept text decimals) := by
  obtain ⟨m, hm⟩ := kept_signed h decimals
  intro hall
  have hsign : '-'.isDigit = true := hall '-' (hm ▸ List.mem_cons_self)
  simp at hsign

/-- Of the amounts with a minus sign those are refused that a signed reading does not take. -/
theorem faithful_signed {amount : String} {decimals : Nat}
    (hcut : ¬CutsInside amount.toList decimals)
    (hsign : (plain amount.toList).head? = some '-') :
    Faithful amount decimals ↔ ¬BelowZero amount.toList decimals := by
  obtain ⟨m, hm⟩ := kept_signed hsign decimals
  have hread := read_kept hcut
  rw [hsign, beq_self_eq_true, hm] at hread
  by_cases htaken : TakenSigned m (scale amount.toList decimals)
  · rw [scaled_signed htaken] at hread
    refine iff_of_false (fun h => ?_) (not_not_intro ⟨hsign, m, hm, htaken⟩)
    exact ((faithful_answered (parse_answered hread)).mp h).1.not_signed hsign
  · obtain ⟨f, hf⟩ := scaled_signed_of_not htaken
    rw [hf] at hread
    refine iff_of_true (faithful_refused hread) ?_
    rintro ⟨-, m', hm', htaken'⟩
    obtain rfl := (List.cons.inj (hm.symm.trans hm')).2
    exact htaken htaken'

/-- Of the amounts without a sign those are answered whose kept part has digits only, and product
and factors in bounds. -/
theorem faithful_plain {amount : String} {decimals : Nat}
    (hcut : ¬CutsInside amount.toList decimals)
    (hsign : (plain amount.toList).head? ≠ some '-') :
    Faithful amount decimals ↔
      ¬ReadInPart amount.toList decimals ∧ ¬Overflows amount.toList decimals := by
  have hneg : ((plain amount.toList).head? == some '-') = false := by simpa using hsign
  have hread := read_kept hcut
  rw [hneg] at hread
  by_cases htaken : AllDigits (kept amount.toList decimals) ∧
      value (kept amount.toList decimals) < bound ∧ scale amount.toList decimals < bound
  · obtain ⟨hall, hlt, hscale⟩ := htaken
    rw [scaled_plain hall hlt hscale] at hread
    by_cases hprod : value (kept amount.toList decimals) * scale amount.toList decimals < bound
    · have hfits : ¬Overflows amount.toList decimals := fun h => Nat.not_le.mpr hprod h.2.2.2
      have hok := faithful_answered (parse_answered (hread.trans (if_pos hprod)))
      constructor
      · exact fun h => ⟨fun hpart => hpart.1 (hok.mp h).1, hfits⟩
      · rintro ⟨hpart, -⟩
        have hnumeral : IsNumeral amount.toList := by
          by_contra hno
          exact hpart ⟨hno, hall, hscale, hprod⟩
        exact hok.mpr ⟨hnumeral, (hnumeral.scaledValue_eq decimals).symm, hprod⟩
    · have habort := parse_aborted (hread.trans (if_neg hprod))
      exact iff_of_false (not_faithful_of_aborted habort)
        fun h => h.2 ⟨hall, hlt, hscale, Nat.not_lt.mp hprod⟩
  · obtain ⟨m, hm⟩ := scaled_plain_of_not htaken
    rw [hm] at hread
    refine iff_of_true (faithful_refused hread) ⟨?_, ?_⟩
    · rintro ⟨-, hall, hscale, hprod⟩
      have hone : 0 < scale amount.toList decimals := by
        unfold scale
        positivity
      exact htaken ⟨hall, lt_of_le_of_lt (Nat.le_mul_of_pos_right _ hone) hprod, hscale⟩
    · rintro ⟨hall, hlt, hscale, -⟩
      exact htaken ⟨hall, hlt, hscale⟩

/-- An amount is answered by what it says, or refused, if it is none of four kinds. -/
theorem faithful_iff (amount : String) (decimals : Nat) :
    Faithful amount decimals ↔
      ¬CutsInside amount.toList decimals ∧ ¬BelowZero amount.toList decimals ∧
      ¬ReadInPart amount.toList decimals ∧ ¬Overflows amount.toList decimals := by
  by_cases hcut : CutsInside amount.toList decimals
  · obtain ⟨message, hread⟩ := read_cut hcut
    exact iff_of_false (not_faithful_of_aborted (parse_aborted hread)) fun h => h.1 hcut
  by_cases hsign : (plain amount.toList).head? = some '-'
  · have hdigits := not_digits_of_signed hsign decimals
    rw [faithful_signed hcut hsign]
    constructor
    · exact fun h => ⟨hcut, h, fun hpart => hdigits hpart.2.1, fun hover => hdigits hover.1⟩
    · exact fun h => h.2.1
  · rw [faithful_plain hcut hsign]
    constructor
    · exact fun h => ⟨hcut, fun hzero => hsign hzero.1, h⟩
    · exact fun h => h.2.2

/-- One amount of each kind: a negative one, one with a letter behind the last place that counts,
the largest number with one place more, and one that is cut inside a character of two bytes. -/
theorem amounts_misread :
    (parse "-1" 18 = .ok (bound - 10 ^ 18) ∧ ¬Faithful "-1" 18) ∧
    (parse "1.5x" 1 = .ok 15 ∧ ¬Faithful "1.5x" 1) ∧
    (parse "115792089237316195423570985008687907853269984665640564039457584007913129639935" 1 =
        .error (.aborted "arithmetic operation overflow") ∧
      ¬Faithful "115792089237316195423570985008687907853269984665640564039457584007913129639935" 1) ∧
    (parse "1.\u00bd" 1 = .error (.aborted (straddled 2 '\u00bd' 1 ['1', '\u00bd'])) ∧
      ¬Faithful "1.\u00bd" 1) := by
  have hnegative : parse "-1" 18 = .ok (bound - 10 ^ 18) := rfl
  have hletter : parse "1.5x" 1 = .ok 15 := rfl
  have hlarge : parse
      "115792089237316195423570985008687907853269984665640564039457584007913129639935" 1 =
      .error (.aborted "arithmetic operation overflow") := rfl
  have hcut : parse "1.\u00bd" 1 =
      .error (.aborted (straddled 2 '\u00bd' 1 ['1', '\u00bd'])) := rfl
  have hminus : ¬IsNumeral "-1".toList := fun h => by simpa using h.allowed '-' (by decide)
  have hx : ¬IsNumeral "1.5x".toList := fun h => by simpa using h.allowed 'x' (by decide)
  exact ⟨⟨hnegative, fun h => hminus ((faithful_answered hnegative).mp h).1⟩,
    ⟨hletter, fun h => hx ((faithful_answered hletter).mp h).1⟩,
    ⟨hlarge, not_faithful_of_aborted hlarge⟩, ⟨hcut, not_faithful_of_aborted hcut⟩⟩

end Outbox.Amount
