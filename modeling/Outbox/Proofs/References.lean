import Mathlib.Data.List.Basic
import Outbox.Settings.Substitution

namespace Outbox.Settings

/-- A capital letter or an underscore, then capitals, digits and underscores. -/
def IsName : List Char → Prop
  | [] => False
  | c :: cs => (('A' ≤ c ∧ c ≤ 'Z') ∨ c = '_') ∧
      ∀ x ∈ cs, ('A' ≤ x ∧ x ≤ 'Z') ∨ ('0' ≤ x ∧ x ≤ '9') ∨ x = '_'

/-- A reference as it is written. -/
def written (name : List Char) : List Char := '$' :: '\x7b' :: (name ++ ['\x7d'])

/-- A reference to `name` stands at place `i` of the text. -/
def RefersAt (text : List Char) (i : Nat) (name : List Char) : Prop :=
  IsName name ∧ written name <+: text.drop i

/-- What a name stands for; a variable that cannot be read stands for nothing. -/
def valueOf (env : String → Option String) (name : List Char) : List Char :=
  ((env (String.ofList name)).getD "").toList

/-- A text, then references to names with a text after each of them. -/
def joined (start : List Char) (refs : List (List Char × List Char)) : List Char :=
  start ++ refs.flatMap fun r => written r.1 ++ r.2

/-- The same with values in the places of the references. -/
def filled (env : String → Option String) (start : List Char)
    (refs : List (List Char × List Char)) : List Char :=
  start ++ refs.flatMap fun r => valueOf env r.1 ++ r.2

/-- The joined text has no references but those that it was joined from. -/
structure Complete (start : List Char) (refs : List (List Char × List Char)) : Prop where
  names : ∀ r ∈ refs, IsName r.1
  shown : ∀ i name, RefersAt (joined start refs) i name →
    ∃ before after text, refs = before ++ (name, text) :: after ∧ i = (joined start before).length

section Names

variable {c : Char} {cs name other text rest : List Char} {i : Nat}

theorem isUpper_iff : c.isUpper = true ↔ 'A' ≤ c ∧ c ≤ 'Z' := decide_eq_true_iff

theorem startsName_iff : startsName c = true ↔ ('A' ≤ c ∧ c ≤ 'Z') ∨ c = '_' := by
  simp [startsName, isUpper_iff]

theorem continuesName_iff :
    continuesName c = true ↔ ('A' ≤ c ∧ c ≤ 'Z') ∨ ('0' ≤ c ∧ c ≤ '9') ∨ c = '_' := by
  simp [continuesName, isUpper_iff, Char.isDigit, Char.le_def, or_assoc]

/-- No character of a name ends the reference, so that a name is read to its end. -/
theorem nameRest?_eq_some_iff :
    nameRest? cs = some name ↔ (∀ x ∈ name, continuesName x = true) ∧ name ++ ['\x7d'] <+: cs := by
  induction cs generalizing name with
  | nil => simp [nameRest?]
  | cons c cs ih =>
    have hbrace : continuesName '\x7d' = false := by decide
    cases name with
    | nil =>
      by_cases hc : c = '\x7d'
      · simp [nameRest?, hc]
      · have hne : '\x7d' ≠ c := fun h => hc h.symm
        simp [nameRest?, hc, hne]
    | cons x xs =>
      by_cases hc : c = '\x7d'
      · subst hc
        simp only [nameRest?, if_pos, List.cons_append, List.cons_prefix_cons, reduceCtorEq,
          Option.some.injEq, false_iff, not_and]
        intro hx hxc
        have hx := hx x List.mem_cons_self
        rw [hxc, hbrace] at hx
        exact absurd hx (by simp)
      · simp only [nameRest?, if_neg hc, List.cons_append, List.cons_prefix_cons,
          List.forall_mem_cons]
        by_cases hcont : continuesName c = true
        · rw [if_pos hcont, Option.map_eq_some_iff]
          constructor
          · rintro ⟨ys, hys, heq⟩
            obtain ⟨rfl, rfl⟩ := List.cons.inj heq
            obtain ⟨hall, hpre⟩ := ih.mp hys
            exact ⟨⟨hcont, hall⟩, rfl, hpre⟩
          · rintro ⟨⟨-, hall⟩, rfl, hpre⟩
            exact ⟨xs, ih.mpr ⟨hall, hpre⟩, rfl⟩
        · rw [if_neg hcont]
          simp only [reduceCtorEq, false_iff, not_and]
          rintro ⟨hx, -⟩ rfl
          exact absurd hx hcont

theorem reference?_eq_some_iff :
    reference? text = some name ↔ IsName name ∧ written name <+: text := by
  constructor
  · intro h
    unfold reference? at h
    split at h
    · next c cs =>
      split at h
      · next hc =>
        obtain ⟨xs, hxs, rfl⟩ := Option.map_eq_some_iff.mp h
        obtain ⟨hall, hpre⟩ := nameRest?_eq_some_iff.mp hxs
        refine ⟨⟨startsName_iff.mp hc, fun x hx => continuesName_iff.mp (hall x hx)⟩, ?_⟩
        simpa [written] using hpre
      · simp at h
    · simp at h
  · rintro ⟨hname, rest, rfl⟩
    cases name with
    | nil => exact absurd hname (by simp [IsName])
    | cons c xs =>
      obtain ⟨hc, hall⟩ := hname
      have hxs : nameRest? (xs ++ '\x7d' :: rest) = some xs := by
        refine nameRest?_eq_some_iff.mpr ⟨fun x hx => continuesName_iff.mpr (hall x hx), ?_⟩
        exact ⟨rest, by simp⟩
      simp [reference?, written, startsName_iff.mpr hc, hxs]

theorem refersAt_iff : RefersAt text i name ↔ reference? (text.drop i) = some name :=
  reference?_eq_some_iff.symm

theorem refersAt_zero : RefersAt text 0 name ↔ reference? text = some name := by
  rw [refersAt_iff, List.drop_zero]

theorem RefersAt.dollar (h : RefersAt text i name) : text[i]? = some '$' := by
  obtain ⟨-, rest, hrest⟩ := h
  have hhead : (text.drop i)[0]? = some '$' := by rw [← hrest]; rfl
  simpa using hhead

theorem RefersAt.lt (h : RefersAt text i name) : i < text.length :=
  (List.getElem?_eq_some_iff.mp h.dollar).1

theorem refersAt_append_right :
    RefersAt (cs ++ text) (cs.length + i) name ↔ RefersAt text i name := by
  rw [RefersAt, RefersAt, ← List.drop_drop, List.drop_left]

theorem RefersAt.append_left (h : RefersAt text i name) : RefersAt (text ++ rest) i name := by
  refine ⟨h.1, h.2.trans ?_⟩
  rw [List.drop_append_of_le_length (Nat.le_of_lt h.lt)]
  exact List.prefix_append _ _

theorem length_written (name : List Char) : (written name).length = name.length + 3 := by
  simp [written]

/-- There is no dollar sign inside a reference, so that no other reference begins there. -/
theorem not_dollar (hname : IsName name) (hi : i ≠ 0) : (written name)[i]? ≠ some '$' := by
  have hcont : ∀ x ∈ name, continuesName x = true := by
    cases name with
    | nil => simp
    | cons c cs =>
      obtain ⟨hc, hcs⟩ := hname
      intro x hx
      rcases List.mem_cons.mp hx with rfl | hx
      · exact continuesName_iff.mpr (hc.imp_right .inr)
      · exact continuesName_iff.mpr (hcs x hx)
  intro h
  obtain ⟨j, rfl⟩ := Nat.exists_eq_succ_of_ne_zero hi
  have hmem : '$' ∈ '\x7b' :: (name ++ ['\x7d']) := List.mem_of_getElem? h
  have hname : '$' ∈ name := by simpa using hmem
  exact absurd (hcont _ hname) (by decide)

theorem RefersAt.outside (hname : IsName name) (h : RefersAt (written name ++ rest) i other) :
    (i = 0 ∧ other = name) ∨ (written name).length ≤ i := by
  by_cases hi : i = 0
  · subst hi
    have hname : reference? (written name ++ rest) = some name :=
      reference?_eq_some_iff.mpr ⟨hname, List.prefix_append _ _⟩
    rw [refersAt_zero, hname] at h
    exact .inl ⟨rfl, (Option.some.inj h).symm⟩
  · refine .inr (Nat.le_of_not_lt fun hlt => not_dollar hname hi ?_)
    rw [← List.getElem?_append_left hlt]
    exact h.dollar

end Names

section Cutting

variable {c : Char} {cs name text rest start : List Char} {refs : List (List Char × List Char)}

theorem pieces_drop (n : Nat) (text : List Char) : pieces n text = pieces 0 (text.drop n) := by
  induction text generalizing n with
  | nil => cases n <;> rfl
  | cons c cs ih =>
    cases n with
    | zero => rfl
    | succ n => exact ih n

theorem pieces_char (h : reference? (c :: cs) = none) :
    pieces 0 (c :: cs) = .char c :: pieces 0 cs := by
  simp only [pieces, h]

theorem pieces_reference (h : IsName name) (rest : List Char) :
    pieces 0 (written name ++ rest) = .reference name :: pieces 0 rest := by
  have hread : reference? (written name ++ rest) = some name :=
    reference?_eq_some_iff.mpr ⟨h, List.prefix_append _ _⟩
  have hcons : written name ++ rest = '$' :: ('\x7b' :: (name ++ '\x7d' :: rest)) := by
    simp [written]
  rw [hcons] at hread ⊢
  simp only [pieces, hread]
  rw [pieces_drop]
  simp

/-- A text is empty, or begins with a character that begins no reference, or with a reference. -/
theorem cutting {P : List Char → Prop} (nil : P [])
    (char : ∀ c cs, reference? (c :: cs) = none → P cs → P (c :: cs))
    (reference : ∀ name rest, IsName name → P rest → P (written name ++ rest))
    (text : List Char) : P text := by
  induction hn : text.length using Nat.strongRecOn generalizing text with
  | _ n ih =>
    cases text with
    | nil => exact nil
    | cons c cs =>
      cases href : reference? (c :: cs) with
      | none => exact char c cs href (ih cs.length (by simp [← hn]) cs rfl)
      | some name =>
        obtain ⟨hname, rest, hrest⟩ := reference?_eq_some_iff.mp href
        rw [← hrest]
        refine reference name rest hname (ih rest.length ?_ rest rfl)
        rw [← hn, ← hrest, List.length_append, length_written]
        omega

theorem joined_char (c : Char) (start : List Char) (refs : List (List Char × List Char)) :
    joined (c :: start) refs = c :: joined start refs := rfl

theorem joined_reference (name start : List Char) (refs : List (List Char × List Char)) :
    joined [] ((name, start) :: refs) = written name ++ joined start refs := by
  simp [joined]

theorem complete_nil : Complete [] [] :=
  ⟨by simp, fun i name h => absurd h.lt (by simp [joined])⟩

theorem complete_char :
    Complete (c :: start) refs ↔
      reference? (c :: joined start refs) = none ∧ Complete start refs := by
  have hshift : ∀ i name,
      RefersAt (joined (c :: start) refs) (i + 1) name ↔ RefersAt (joined start refs) i name :=
    fun _ _ => Iff.rfl
  constructor
  · rintro ⟨hnames, hshown⟩
    refine ⟨?_, hnames, fun i name h => ?_⟩
    · refine Option.eq_none_iff_forall_ne_some.mpr fun name href => ?_
      obtain ⟨before, after, text, -, hi⟩ := hshown 0 name (refersAt_zero.mpr href)
      simp [joined] at hi
    · obtain ⟨before, after, text, hrefs, hi⟩ := hshown (i + 1) name ((hshift i name).mpr h)
      refine ⟨before, after, text, hrefs, ?_⟩
      simpa [joined] using hi
  · rintro ⟨hnone, hnames, hshown⟩
    refine ⟨hnames, fun i name h => ?_⟩
    cases i with
    | zero =>
      have href : reference? (c :: joined start refs) = some name := refersAt_zero.mp h
      rw [hnone] at href
      exact absurd href (by simp)
    | succ i =>
      obtain ⟨before, after, text, hrefs, hi⟩ := hshown i name ((hshift i name).mp h)
      refine ⟨before, after, text, hrefs, ?_⟩
      simp [joined, hi]

theorem complete_reference :
    Complete [] ((name, start) :: refs) ↔ IsName name ∧ Complete start refs := by
  constructor
  · rintro ⟨hnames, hshown⟩
    refine ⟨hnames _ List.mem_cons_self, fun r hr => hnames r (List.mem_cons_of_mem _ hr),
      fun i other h => ?_⟩
    have hlater :
        RefersAt (joined [] ((name, start) :: refs)) ((written name).length + i) other := by
      rw [joined_reference]
      exact refersAt_append_right.mpr h
    obtain ⟨before, after, text, hrefs, hi⟩ := hshown _ other hlater
    cases before with
    | nil => simp [joined, length_written] at hi
    | cons r before =>
      obtain ⟨rfl, htail⟩ := List.cons.inj hrefs
      refine ⟨before, after, text, htail, ?_⟩
      rw [joined_reference, List.length_append] at hi
      omega
  · rintro ⟨hname, hnames, hshown⟩
    refine ⟨List.forall_mem_cons.mpr ⟨hname, hnames⟩, fun i other h => ?_⟩
    rw [joined_reference] at h
    rcases h.outside hname with ⟨rfl, rfl⟩ | hle
    · exact ⟨[], refs, start, rfl, rfl⟩
    · obtain ⟨j, rfl⟩ := Nat.exists_eq_add_of_le hle
      obtain ⟨before, after, text, hrefs, hj⟩ := hshown j other (refersAt_append_right.mp h)
      refine ⟨(name, start) :: before, after, text, by rw [hrefs]; rfl, ?_⟩
      rw [joined_reference, List.length_append, hj]

/-- The texts between the references that were found. -/
def cut : List Piece → List Char × List (List Char × List Char)
  | [] => ([], [])
  | .char c :: ps => (c :: (cut ps).1, (cut ps).2)
  | .reference name :: ps => ([], (name, (cut ps).1) :: (cut ps).2)

/-- Every text is cut at all of its references. -/
theorem cut_pieces (text : List Char) :
    joined (cut (pieces 0 text)).1 (cut (pieces 0 text)).2 = text ∧
      Complete (cut (pieces 0 text)).1 (cut (pieces 0 text)).2 := by
  induction text using cutting with
  | nil => exact ⟨rfl, complete_nil⟩
  | char c cs hnone ih =>
    obtain ⟨hjoined, hcomplete⟩ := ih
    rw [pieces_char hnone, cut, joined_char, hjoined]
    refine ⟨rfl, complete_char.mpr ⟨?_, hcomplete⟩⟩
    rw [hjoined]
    exact hnone
  | reference name rest hname ih =>
    obtain ⟨hjoined, hcomplete⟩ := ih
    rw [pieces_reference hname, cut, joined_reference, hjoined]
    exact ⟨rfl, complete_reference.mpr ⟨hname, hcomplete⟩⟩

theorem cut_joined (h : Complete start refs) :
    cut (pieces 0 (joined start refs)) = (start, refs) := by
  induction refs generalizing start with
  | nil =>
    induction start with
    | nil => rfl
    | cons c start ih =>
      obtain ⟨hnone, htail⟩ := complete_char.mp h
      rw [joined_char, pieces_char hnone, cut, ih htail]
  | cons r refs ih =>
    obtain ⟨name, text⟩ := r
    induction start with
    | nil =>
      obtain ⟨hname, htail⟩ := complete_reference.mp h
      rw [joined_reference, pieces_reference hname, cut, ih htail]
    | cons c start ihstart =>
      obtain ⟨hnone, htail⟩ := complete_char.mp h
      rw [joined_char, pieces_char hnone, cut, ihstart htail]

end Cutting

section Substituted

variable {c : Char} {cs name rest : List Char} {env : String → Option String}

/-- The substituted text, as its characters. -/
def substituted (env : String → Option String) (text : List Char) : List Char :=
  (pieces 0 text).flatMap (Piece.expand env)

theorem toList_substitute (env : String → Option String) (text : String) :
    (substitute env text).toList = substituted env text.toList := by
  simp [substitute, substituted]

theorem substituted_char (h : reference? (c :: cs) = none) :
    substituted env (c :: cs) = c :: substituted env cs := by
  rw [substituted, pieces_char h]
  rfl

theorem substituted_reference (h : IsName name) (rest : List Char) :
    substituted env (written name ++ rest) = valueOf env name ++ substituted env rest := by
  rw [substituted, pieces_reference h]
  rfl

theorem filled_cut (env : String → Option String) (ps : List Piece) :
    filled env (cut ps).1 (cut ps).2 = ps.flatMap (Piece.expand env) := by
  induction ps with
  | nil => rfl
  | cons p ps ih =>
    cases p with
    | char c =>
      rw [List.flatMap_cons, ← ih]
      rfl
    | reference name =>
      rw [List.flatMap_cons, ← ih]
      simp [filled, cut, Piece.expand, valueOf]

/-- The values are put in as they are, whatever they contain. -/
theorem substituted_joined {start : List Char} {refs : List (List Char × List Char)}
    (h : Complete start refs) : substituted env (joined start refs) = filled env start refs := by
  rw [substituted, ← filled_cut, cut_joined h]

theorem substituted_append {before after : List Char}
    (h : ∀ i name, RefersAt (before ++ after) i name →
      i + (written name).length ≤ before.length ∨ before.length ≤ i) :
    substituted env (before ++ after) = substituted env before ++ substituted env after := by
  induction before using cutting with
  | nil => rfl
  | char c cs hnone ih =>
    have hwhole : reference? (c :: (cs ++ after)) = none := by
      refine Option.eq_none_iff_forall_ne_some.mpr fun name href => ?_
      obtain ⟨hname, hpre⟩ := reference?_eq_some_iff.mp href
      have hlen : (written name).length ≤ (c :: cs).length := by
        rcases h 0 name (refersAt_zero.mpr href) with hin | hout
        · omega
        · simp at hout
      have hpre' : written name <+: c :: cs :=
        List.prefix_of_prefix_length_le hpre (List.prefix_append (c :: cs) after) hlen
      rw [reference?_eq_some_iff.mpr ⟨hname, hpre'⟩] at hnone
      exact absurd hnone (by simp)
    have htail : substituted env (cs ++ after) = substituted env cs ++ substituted env after := by
      refine ih fun i name href => ?_
      have hnext : RefersAt (c :: cs ++ after) (i + 1) name := href
      have hcut := h (i + 1) name hnext
      simp only [List.length_cons] at hcut
      omega
    rw [List.cons_append, substituted_char hwhole, htail, substituted_char hnone,
      List.cons_append]
  | reference name rest hname ih =>
    have htail :
        substituted env (rest ++ after) = substituted env rest ++ substituted env after := by
      refine ih fun i other href => ?_
      have hlater : RefersAt (written name ++ rest ++ after) ((written name).length + i) other := by
        rw [List.append_assoc]
        exact refersAt_append_right.mpr href
      have hcut := h _ other hlater
      simp only [List.length_append] at hcut
      omega
    rw [List.append_assoc, substituted_reference hname, htail, substituted_reference hname,
      List.append_assoc]

theorem substituted_plain {text : List Char} (h : ∀ i name, ¬RefersAt text i name) :
    substituted env text = text := by
  have hjoined : joined text [] = text := by simp [joined]
  have hcomplete : Complete text [] :=
    ⟨by simp, fun i name href => absurd (hjoined ▸ href) (h i name)⟩
  have hfilled : substituted env (joined text []) = filled env text [] :=
    substituted_joined hcomplete
  rw [← hjoined, hfilled, hjoined]
  simp [filled]

/-- What surrounds the references is kept, however close it comes to being one. -/
theorem substituted_within {before text after : List Char}
    (h : ∀ i name, RefersAt (before ++ text ++ after) i name →
      before.length ≤ i ∧ i + (written name).length ≤ before.length + text.length) :
    substituted env (before ++ text ++ after) = before ++ substituted env text ++ after := by
  have hbefore : ∀ i name, ¬RefersAt before i name := by
    intro i name href
    have hlt := href.lt
    have hin := h i name (by rw [List.append_assoc]; exact href.append_left)
    omega
  have hafter : ∀ i name, ¬RefersAt after i name := by
    intro i name href
    have hin := h ((before ++ text).length + i) name (refersAt_append_right.mpr href)
    simp only [List.length_append, length_written] at hin
    omega
  rw [substituted_append fun i name href => ?_, substituted_append fun i name href => ?_,
    substituted_plain hbefore, substituted_plain hafter]
  · exact .inr (h i name href.append_left).1
  · rw [List.length_append]
    exact .inl (h i name href).2

/-- Substituting replaces the references of a text and nothing else. -/
theorem references_replaced (env : String → Option String) :
    (∀ text : String, ∃! parts : List Char × List (List Char × List Char),
      text.toList = joined parts.1 parts.2 ∧ Complete parts.1 parts.2) ∧
    (∀ start refs, Complete start refs →
      substitute env (String.ofList (joined start refs)) = String.ofList (filled env start refs)) ∧
    (∀ text : String, (∀ i name, ¬RefersAt text.toList i name) → substitute env text = text) ∧
    (∀ before text after : String,
      (∀ i name, RefersAt (before ++ text ++ after).toList i name →
        before.length ≤ i ∧ i + (written name).length ≤ before.length + text.length) →
      substitute env (before ++ text ++ after) = before ++ substitute env text ++ after) ∧
    (∀ before after : String,
      (∀ i name, RefersAt (before ++ after).toList i name →
        i + (written name).length ≤ before.length ∨ before.length ≤ i) →
      substitute env (before ++ after) = substitute env before ++ substitute env after) := by
  refine ⟨fun text => ?_, fun start refs h => ?_, fun text h => ?_, fun before text after h => ?_,
    fun before after h => ?_⟩
  · obtain ⟨hjoined, hcomplete⟩ := cut_pieces text.toList
    refine ⟨cut (pieces 0 text.toList), ⟨hjoined.symm, hcomplete⟩, ?_⟩
    rintro ⟨start, refs⟩ ⟨htext, hparts⟩
    rw [htext, cut_joined hparts]
  · rw [← String.toList_inj, toList_substitute, String.toList_ofList, String.toList_ofList]
    exact substituted_joined h
  · rw [← String.toList_inj, toList_substitute]
    exact substituted_plain h
  · rw [← String.toList_inj, toList_substitute]
    simp only [String.toList_append, toList_substitute, ← String.length_toList] at h ⊢
    exact substituted_within h
  · rw [← String.toList_inj, toList_substitute]
    simp only [String.toList_append, toList_substitute, ← String.length_toList] at h ⊢
    exact substituted_append h

/-- References behind a dollar sign and inside another that is not closed; the first value looks
like the second reference. -/
theorem references_replaced_nested :
    Complete ['$'] [(['A'], "$\x7bA".toList), (['B'], [])] ∧
    substitute (fun v => if v = "A" then some "$\x7bB\x7d" else if v = "B" then some "b" else none)
        (String.ofList (joined ['$'] [(['A'], "$\x7bA".toList), (['B'], [])])) =
      "$$\x7bB\x7d$\x7bAb" := by
  have hcut : cut (pieces 0 "$$\x7bA\x7d$\x7bA$\x7bB\x7d".toList) =
      (['$'], [(['A'], "$\x7bA".toList), (['B'], [])]) := rfl
  have hcomplete := (cut_pieces "$$\x7bA\x7d$\x7bA$\x7bB\x7d".toList).2
  rw [hcut] at hcomplete
  refine ⟨hcomplete, ?_⟩
  rw [(references_replaced _).2.1 _ _ hcomplete]
  rfl

example :
    substitute (fun _ => some "value")
        "$\x7ba\x7d $\x7b1A\x7d $\x7b\x7d $\x7bA $A \x7bA\x7d $ \x7bA\x7d" =
      "$\x7ba\x7d $\x7b1A\x7d $\x7b\x7d $\x7bA $A \x7bA\x7d $ \x7bA\x7d" := by
  rfl

end Substituted

end Outbox.Settings
