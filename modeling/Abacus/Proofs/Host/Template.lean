import Abacus.Host.Template
import Abacus.Proofs.Answer

/-!
# Filling a template

Filling reads a template one character at a time, while its author put it together from texts with
doubled braces and from fields. Each of these parts is filled on its own, whatever stands next to
it, and what has been put in is not read again. A field without a value ends the filling, whatever
stands behind it.
-/

namespace Abacus

open Answer

namespace Template

variable {fields : List (String × String)}

/-! ## Part by part -/

/-- Whatever stands behind that part of a template, the text is put down for it, and the filling
goes on behind it. -/
def Becomes (fields : List (String × String)) (part text : String) : Prop :=
  ∀ rest, fillChars fields .plain (part.toList ++ rest) = do
    let filled ← fillChars fields .plain rest
    return text.toList ++ filled

theorem becomes_empty : Becomes fields "" "" := by
  intro rest
  show fillChars fields .plain rest = _
  cases fillChars fields .plain rest <;> rfl

theorem Becomes.append {part part' text text' : String} (h : Becomes fields part text)
    (h' : Becomes fields part' text') : Becomes fields (part ++ part') (text ++ text') := by
  intro rest
  rw [String.toList_append, List.append_assoc, h, h', String.toList_append]
  cases fillChars fields .plain rest with
  | error fault => rfl
  | ok filled => rw [ok_bind, ok_bind, pure_eq_ok, ok_bind, List.append_assoc]

theorem becomes_join {ι : Type} {part text : ι → String} (h : ∀ i, Becomes fields (part i) (text i))
    (is : List ι) : Becomes fields (String.join (is.map part)) (String.join (is.map text)) := by
  induction is with
  | nil => exact becomes_empty
  | cons i is ih =>
    rw [List.map_cons, List.map_cons, String.join_cons, String.join_cons]
    exact (h i).append ih

theorem Becomes.fill_eq {template text : String} (h : Becomes fields template text) :
    fill fields template = .ok text := by
  have hchars : fillChars fields .plain template.toList = .ok text.toList := by
    have hend := h []
    rwa [List.append_nil, fillChars, ok_bind, List.append_nil] at hend
  rw [fill, hchars]
  show Except.ok (String.ofList text.toList) = _
  rw [String.ofList_toList]

/-! ## Texts -/

/-- A brace twice, any other character once. -/
def doubledChar (c : Char) : String :=
  if c = '\x7b' ∨ c = '\x7d' then String.ofList [c, c] else String.singleton c

/-- The text with each of its braces doubled. -/
def doubled (text : String) : String := String.join (text.toList.map doubledChar)

theorem becomes_doubledChar (c : Char) : Becomes fields (doubledChar c) (String.singleton c) := by
  intro rest
  rw [doubledChar]
  by_cases hc : c = '\x7b' ∨ c = '\x7d'
  · rw [if_pos hc, String.toList_ofList]
    rcases hc with rfl | rfl <;> rfl
  · obtain ⟨hopen, hclose⟩ := not_or.1 hc
    rw [if_neg hc, String.toList_singleton, List.singleton_append, fillChars, if_neg hopen,
      if_neg hclose]
    rfl

theorem join_singletons (text : String) :
    String.join (text.toList.map String.singleton) = text := by
  rw [← String.toList_inj, String.toList_join, List.flatMap_map]
  simp

theorem becomes_doubled (text : String) : Becomes fields (doubled text) text := by
  have h : Becomes fields (doubled text) (String.join (text.toList.map String.singleton)) :=
    becomes_join becomes_doubledChar text.toList
  rwa [join_singletons] at h

/-! ## Fields -/

/-- The field for the value of that name. -/
def field (name : String) : String := "\x7b" ++ name ++ "\x7d"

/-- The characters that have a meaning inside a field. -/
def marks : List Char := ['\x7b', '\x7d', '.', '[', ']', '!', ':']

/-- A field of that name asks for the name as it stands, and not for a position. -/
structure PlainField (name : String) : Prop where
  unmarked : ∀ c ∈ name.toList, c ∉ marks
  notPosition : ∃ c ∈ name.toList, Text.decimalValue? c = none

instance (name : String) : Decidable (PlainField name) :=
  decidable_of_iff ((name.toList.all fun c => !marks.contains c) = true ∧
    (name.toList.any fun c => (Text.decimalValue? c).isNone) = true) <| by
      simp only [List.all_eq_true, List.any_eq_true, Option.isNone_iff_eq_none, Bool.not_eq_true',
        List.contains_eq_mem, decide_eq_false_iff_not]
      exact ⟨fun h => ⟨h.1, h.2⟩, fun h => ⟨h.unmarked, h.notPosition⟩⟩

theorem PlainField.ne_brace {name : String} (h : PlainField name) :
    ∀ c ∈ name.toList, c ≠ '\x7b' ∧ c ≠ '\x7d' := by
  intro c hc
  have hmarks := h.unmarked c hc
  exact ⟨fun hopen => hmarks (hopen ▸ by decide), fun hclose => hmarks (hclose ▸ by decide)⟩

theorem fillChars_inField {cs : List Char} (h : ∀ c ∈ cs, c ≠ '\x7b' ∧ c ≠ '\x7d')
    (before rest : List Char) :
    fillChars fields (.field before) (cs ++ '\x7d' :: rest) = do
      let v ← value fields (before ++ cs)
      let filled ← fillChars fields .plain rest
      return v ++ filled := by
  induction cs generalizing before with
  | nil =>
    rw [List.nil_append, List.append_nil, fillChars, if_neg (by decide), if_pos rfl]
  | cons c cs ih =>
    obtain ⟨⟨hopen, hclose⟩, hcs⟩ := List.forall_mem_cons.1 h
    rw [List.cons_append, fillChars, if_neg hopen, if_neg hclose, ih hcs, List.append_assoc,
      List.singleton_append]

theorem fillChars_field {name : String} (h : PlainField name) (rest : List Char) :
    fillChars fields .plain ((field name).toList ++ rest) = do
      let v ← value fields name.toList
      let filled ← fillChars fields .plain rest
      return v ++ filled := by
  have hsource : (field name).toList ++ rest = '\x7b' :: (name.toList ++ '\x7d' :: rest) := by
    rw [field, String.toList_append, String.toList_append, List.append_assoc, List.append_assoc]
    rfl
  obtain ⟨d, hd, -⟩ := h.notPosition
  obtain ⟨c, cs, hname⟩ := List.exists_cons_of_ne_nil (List.ne_nil_of_mem hd)
  have hbraces := h.ne_brace
  rw [hname] at hbraces
  obtain ⟨⟨hopen, hclose⟩, hcs⟩ := List.forall_mem_cons.1 hbraces
  rw [hsource, hname, fillChars, if_pos rfl, List.cons_append, fillChars, if_neg hopen,
    if_neg hclose, fillChars_inField hcs, List.singleton_append]

theorem becomes_field {name v : String} (h : PlainField name)
    (hv : value fields name.toList = .ok v.toList) : Becomes fields (field name) v := by
  intro rest
  rw [fillChars_field h, hv, ok_bind]

/-- The first field without a value is the fault. -/
theorem fill_field_error {before text name : String} {fault : TemplateFault}
    (hbefore : Becomes fields before text) (h : PlainField name)
    (hv : value fields name.toList = .error fault) (rest : String) :
    fill fields (before ++ field name ++ rest) = .error (.template fault) := by
  have hchars : fillChars fields .plain (before ++ field name ++ rest).toList = .error fault := by
    rw [String.toList_append, String.toList_append, List.append_assoc, hbefore, fillChars_field h,
      hv, error_bind, error_bind]
  rw [fill, hchars]

/-! ## Positions -/

/-- The values of the digits that a name begins with. -/
def leadingDigits : List Char → List Nat
  | [] => []
  | c :: cs =>
    match Text.decimalValue? c with
    | some d => d :: leadingDigits cs
    | none => []

/-- The number with these decimal digits behind those of the given one. -/
def numberFrom (n : Nat) (digits : List Nat) : Nat := digits.foldl (fun m d => 10 * m + d) n

/-- The number that a name begins with; zero if it begins with none. -/
def leadingNumber (name : String) : Nat := numberFrom 0 (leadingDigits name.toList)

theorem le_numberFrom (n : Nat) (digits : List Nat) : n ≤ numberFrom n digits := by
  induction digits generalizing n with
  | nil => exact Nat.le_refl n
  | cons d digits ih =>
    have hnext : 10 * n + d ≤ numberFrom (10 * n + d) digits := ih _
    show n ≤ numberFrom (10 * n + d) digits
    omega

/-- A name that goes on behind its digits is no position, but the digits are read first and must not
get out of hand. -/
theorem position?_of_not_digits {cs : List Char} (h : ∃ c ∈ cs, Text.decimalValue? c = none)
    {n : Nat} (hn : n ≤ widestPosition) :
    position? n cs =
      if widestPosition < numberFrom n (leadingDigits cs) then .error .positionTooWide
      else .ok none := by
  induction cs generalizing n with
  | nil =>
    obtain ⟨c, hc, -⟩ := h
    exact absurd hc List.not_mem_nil
  | cons c cs ih =>
    rw [position?, leadingDigits]
    cases hc : Text.decimalValue? c with
    | none =>
      have hnot : ¬widestPosition < numberFrom n [] := Nat.not_lt.2 hn
      rw [if_neg hnot]
    | some d =>
      have hcs : ∃ c ∈ cs, Text.decimalValue? c = none := by
        obtain ⟨e, he, hnone⟩ := h
        rcases List.mem_cons.1 he with rfl | he
        · rw [hc] at hnone
          cases hnone
        · exact ⟨e, he, hnone⟩
      have hnumber : numberFrom n (d :: leadingDigits cs) =
        numberFrom (10 * n + d) (leadingDigits cs) := rfl
      dsimp only
      rw [hnumber]
      by_cases hwide : widestPosition < 10 * n + d
      · rw [if_pos hwide, if_pos (Nat.lt_of_lt_of_le hwide (le_numberFrom _ _))]
      · rw [if_neg hwide, ih hcs (Nat.not_lt.1 hwide)]

section Values

variable {name : String} (h : PlainField name)
include h

theorem position?_of_narrow (hn : leadingNumber name ≤ widestPosition) :
    position? 0 name.toList = .ok none := by
  rw [position?_of_not_digits h.notPosition (Nat.zero_le _)]
  exact if_neg (Nat.not_lt.2 hn)

theorem value_of_lookup {v : String} (hn : leadingNumber name ≤ widestPosition)
    (hv : fields.lookup name = some v) : value fields name.toList = .ok v.toList := by
  rw [value, position?_of_narrow h hn]
  dsimp only
  rw [String.ofList_toList, hv]

theorem value_of_unknown (hn : leadingNumber name ≤ widestPosition)
    (hv : fields.lookup name = none) : value fields name.toList = .error (.unknownField name) := by
  rw [value, position?_of_narrow h hn]
  dsimp only
  rw [String.ofList_toList, hv]

theorem value_of_wide (hn : widestPosition < leadingNumber name) :
    value fields name.toList = .error .positionTooWide := by
  have hposition : position? 0 name.toList = .error .positionTooWide := by
    rw [position?_of_not_digits h.notPosition (Nat.zero_le _)]
    exact if_pos hn
  rw [value, hposition]

end Values

end Template

end Abacus
