import Abacus.Json.Reader
import Abacus.Json.Text
import Mathlib.Tactic.SplitIfs

/-!
# Strings as JSON

Every character of a string is written in its own escape or stands for itself, and what is written
is read as the UTF-16 units of the character. Joining the units gives the string back, because no
character is a half of a surrogate pair.
-/

namespace Abacus.Json

open Text (backslash doubleQuote hexDigits)

/-! ## Hexadecimal digits -/

theorem hexValue?_digitChar {d : Nat} (h : d < 16) : hexValue? (Nat.digitChar d) = some d := by
  have hall : ∀ d < 16, hexValue? (Nat.digitChar d) = some d := by decide
  exact hall d h

theorem hexDigits_four (u : Nat) : hexDigits 4 u =
    [Nat.digitChar (u / 16 / 16 / 16 % 16), Nat.digitChar (u / 16 / 16 % 16),
      Nat.digitChar (u / 16 % 16), Nat.digitChar (u % 16)] := rfl

theorem hexQuad?_hexDigits {u : Nat} (h : u < 0x10000) : hexQuad? (hexDigits 4 u) = some u := by
  have hvalue (n : Nat) : hexValue? (Nat.digitChar (n % 16)) = some (n % 16) :=
    hexValue?_digitChar (Nat.mod_lt n (by omega))
  simp only [hexQuad?, hexDigits_four, List.mapM_cons, List.mapM_nil, hvalue, Option.pure_def,
    Option.bind_eq_bind, Option.bind_some, Option.map_some, List.foldl_cons, List.foldl_nil,
    Option.some.injEq]
  omega

/-! ## Reading what is written -/

section Reading

variable {opening rest after : List Char} {us : List Nat}

theorem readUnits_close (opening rest : List Char) :
    readUnits opening (doubleQuote :: rest) = .ok ([], rest) := by
  unfold readUnits
  rw [if_pos rfl]

theorem ne_nil_of_readUnits (h : readUnits opening rest = .ok (us, after)) : rest ≠ [] := by
  rintro rfl
  rw [readUnits] at h
  cases h

theorem readUnits_plain {c : Char} (hq : c ≠ doubleQuote) (hb : c ≠ backslash)
    (hc : 0x20 ≤ c.toNat) (h : readUnits opening rest = .ok (us, after)) :
    readUnits opening (c :: rest) = .ok (c.toNat :: us, after) := by
  unfold readUnits
  rw [if_neg hq, if_neg hb, if_neg (Nat.not_lt.2 hc), h]

theorem readUnits_escape {e d : Char} (he : e ≠ 'u') (hd : unescape? e = some d)
    (h : readUnits opening rest = .ok (us, after)) :
    readUnits opening (backslash :: e :: rest) = .ok (d.toNat :: us, after) := by
  have hne : backslash ≠ doubleQuote := by decide
  rw [readUnits, if_neg hne, if_pos rfl]
  simp only [he, if_false, hd, h]

theorem readUnits_escapeUnit {u : Nat} (hu : u < 0x10000)
    (h : readUnits opening rest = .ok (us, after)) :
    readUnits opening (escapeUnit u ++ rest) = .ok (u :: us, after) := by
  have hne : backslash ≠ doubleQuote := by decide
  have hlength : (hexDigits 4 u).length = 4 := Text.length_hexDigits 4 u
  have htake : (hexDigits 4 u ++ rest).take 4 = hexDigits 4 u := List.take_left' hlength
  have hdrop : (hexDigits 4 u ++ rest).drop 4 = rest := List.drop_left' hlength
  have hmore : rest.isEmpty = false := List.isEmpty_eq_false_iff.2 (ne_nil_of_readUnits h)
  rw [escapeUnit, List.cons_append, List.cons_append, readUnits, if_neg hne, if_pos rfl]
  simp only [if_true, hdrop, hmore, Bool.false_eq_true, if_false, htake, hexQuad?_hexDigits hu, h]

theorem readUnits_escapeUnits {vs : List Nat} (hvs : ∀ v ∈ vs, v < 0x10000)
    (h : readUnits opening rest = .ok (us, after)) :
    readUnits opening (vs.flatMap escapeUnit ++ rest) = .ok (vs ++ us, after) := by
  induction vs with
  | nil => exact h
  | cons v vs ih =>
    obtain ⟨hv, hvs⟩ := List.forall_mem_cons.1 hvs
    rw [List.flatMap_cons, List.append_assoc]
    exact readUnits_escapeUnit hv (ih hvs)

end Reading

/-! ## Units of a character -/

theorem toNat_of_char (c : Char) :
    c.toNat < 0xd800 ∨ 0xe000 ≤ c.toNat ∧ c.toNat < 0x110000 := by
  rcases c.valid with h | ⟨hlow, hhigh⟩
  · exact .inl h
  · exact .inr ⟨hlow, hhigh⟩

theorem units_of_lt {c : Char} (h : c.toNat < 0x10000) : units c = [c.toNat] := if_pos h

theorem lt_of_mem_units (c : Char) : ∀ u ∈ units c, u < 0x10000 := by
  unfold units
  split
  · rename_i h
    exact List.forall_mem_singleton.2 h
  · have hc := toNat_of_char c
    refine List.forall_mem_cons.2 ⟨by omega, List.forall_mem_singleton.2 (by omega)⟩

/-- A character's units are joined to the character, whatever comes behind them. -/
theorem joinUnits_units (c : Char) (us : List Nat) :
    joinUnits (units c ++ us) = c :: joinUnits us := by
  have hc := toNat_of_char c
  unfold units
  split
  · rename_i h
    have hhalf : ¬(0xd800 ≤ c.toNat ∧ c.toNat < 0xe000) := by omega
    cases us with
    | nil =>
      show joinUnits [c.toNat] = [c]
      rw [joinUnits, if_neg hhalf, Char.ofNat_toNat]
    | cons v us =>
      have hpair : ¬(0xd800 ≤ c.toNat ∧ c.toNat < 0xdc00 ∧ 0xdc00 ≤ v ∧ v < 0xe000) := by omega
      show joinUnits (c.toNat :: v :: us) = _
      rw [joinUnits, if_neg hpair, if_neg hhalf, Char.ofNat_toNat]
  · rename_i h
    have hpair : 0xd800 ≤ 0xd800 + (c.toNat - 0x10000) / 0x400 ∧
        0xd800 + (c.toNat - 0x10000) / 0x400 < 0xdc00 ∧
        0xdc00 ≤ 0xdc00 + (c.toNat - 0x10000) % 0x400 ∧
        0xdc00 + (c.toNat - 0x10000) % 0x400 < 0xe000 := by omega
    have hjoin : 0x10000 + (0xd800 + (c.toNat - 0x10000) / 0x400 - 0xd800) * 0x400 +
        (0xdc00 + (c.toNat - 0x10000) % 0x400 - 0xdc00) = c.toNat := by omega
    show joinUnits (_ :: _ :: us) = _
    rw [joinUnits, if_pos hpair, hjoin, Char.ofNat_toNat]

theorem joinUnits_flatMap_units (cs : List Char) : joinUnits (cs.flatMap units) = cs := by
  induction cs with
  | nil => rfl
  | cons c cs ih => rw [List.flatMap_cons, joinUnits_units, ih]

/-! ## Strings -/

/-- A visible character of ASCII, or the space. -/
def Printable (c : Char) : Prop := 0x20 ≤ c.toNat ∧ c.toNat < 0x7f

instance (c : Char) : Decidable (Printable c) :=
  inferInstanceAs (Decidable (0x20 ≤ c.toNat ∧ c.toNat < 0x7f))

/-- A character is written with a letter behind a backslash, as itself, or by its units. -/
theorem escapeChar_cases (c : Char) :
    (∃ e, e ≠ 'u' ∧ unescape? e = some c ∧ c.toNat < 0x10000 ∧ Printable e ∧
      escapeChar c = [backslash, e]) ∨
    (c ≠ doubleQuote ∧ c ≠ backslash ∧ Printable c ∧ escapeChar c = [c]) ∨
    escapeChar c = (units c).flatMap escapeUnit := by
  unfold escapeChar
  split_ifs with hmark hline hreturn htab hback hfeed hplain
  · refine .inl ⟨c, ?_⟩
    rcases hmark with rfl | rfl <;> decide
  · exact .inl ⟨'n', by subst hline; decide⟩
  · exact .inl ⟨'r', by subst hreturn; decide⟩
  · exact .inl ⟨'t', by subst htab; decide⟩
  · exact .inl ⟨'b', by subst hback; decide⟩
  · exact .inl ⟨'f', by subst hfeed; decide⟩
  · rw [not_or] at hmark
    exact .inr (.inl ⟨hmark.1, hmark.2, hplain, rfl⟩)
  · exact .inr (.inr rfl)

theorem readUnits_escapeChar {opening rest after : List Char} {us : List Nat} (c : Char)
    (h : readUnits opening rest = .ok (us, after)) :
    readUnits opening (escapeChar c ++ rest) = .ok (units c ++ us, after) := by
  rcases escapeChar_cases c with ⟨e, he, hd, hc, -, hform⟩ | ⟨hq, hb, hc, hform⟩ | hform
  · rw [hform, units_of_lt hc]
    exact readUnits_escape he hd h
  · have hlt : c.toNat < 0x10000 := Nat.lt_trans hc.2 (by decide)
    rw [hform, units_of_lt hlt]
    exact readUnits_plain hq hb hc.1 h
  · rw [hform]
    exact readUnits_escapeUnits (lt_of_mem_units c) h

theorem readUnits_flatMap_escapeChar (opening cs more : List Char) :
    readUnits opening (cs.flatMap escapeChar ++ doubleQuote :: more) =
      .ok (cs.flatMap units, more) := by
  induction cs with
  | nil => exact readUnits_close opening more
  | cons c cs ih =>
    rw [List.flatMap_cons, List.flatMap_cons, List.append_assoc]
    exact readUnits_escapeChar c ih

/-- A written string is read as the string, up to its closing quote. -/
theorem readString_stringChars (s : String) (more : List Char) :
    readString (stringChars s more) = .ok (s, more) := by
  have hread := readUnits_flatMap_escapeChar (stringChars s more) s.toList more
  unfold readString
  rw [show (stringChars s more).tail = s.toList.flatMap escapeChar ++ doubleQuote :: more from rfl,
    hread]
  simp only [joinUnits_flatMap_units, String.ofList_toList]

/-! ## What is written is printable -/

theorem printable_digitChar {d : Nat} (h : d < 16) : Printable (Nat.digitChar d) := by
  have hall : ∀ d < 16, Printable (Nat.digitChar d) := by decide
  exact hall d h

theorem printable_escapeUnit (u : Nat) : ∀ x ∈ escapeUnit u, Printable x := by
  have hdigit (n : Nat) : Printable (Nat.digitChar (n % 16)) :=
    printable_digitChar (Nat.mod_lt n (by omega))
  rw [escapeUnit, hexDigits_four]
  refine List.forall_mem_cons.2 ⟨by decide, List.forall_mem_cons.2 ⟨by decide, ?_⟩⟩
  simp only [List.forall_mem_cons, hdigit, List.not_mem_nil, false_imp_iff, implies_true, and_true]

theorem printable_escapeChar (c : Char) : ∀ x ∈ escapeChar c, Printable x := by
  rcases escapeChar_cases c with ⟨e, -, -, -, he, hform⟩ | ⟨-, -, hc, hform⟩ | hform <;> rw [hform]
  · exact List.forall_mem_cons.2 ⟨by decide, List.forall_mem_singleton.2 he⟩
  · exact List.forall_mem_singleton.2 hc
  · intro x hx
    obtain ⟨u, -, hx⟩ := List.mem_flatMap.1 hx
    exact printable_escapeUnit u x hx

theorem printable_stringChars (s : String) {more : List Char} (hm : ∀ x ∈ more, Printable x) :
    ∀ x ∈ stringChars s more, Printable x := by
  refine List.forall_mem_cons.2 ⟨by decide, List.forall_mem_append.2 ⟨?_, ?_⟩⟩
  · intro x hx
    obtain ⟨c, -, hx⟩ := List.mem_flatMap.1 hx
    exact printable_escapeChar c x hx
  · exact List.forall_mem_cons.2 ⟨by decide, hm⟩

end Abacus.Json
