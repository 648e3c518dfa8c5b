import Abacus.Datum.Same
import Mathlib.Data.List.Nodup
import Mathlib.Data.List.Perm.Subperm

/-!
# Mappings whose keys are texts

A mapping with texts as keys is equal to another mapping when this one has just the same keys with
equal values, in whatever order. So what is under each key decides on equality.
-/

namespace Abacus.Datum

/-- The value of a mapping under a text. -/
def field? (key : String) (d : Datum) : Option Datum :=
  d.entries?.bind (get? key)

theorem field?_of_entries? {d : Datum} {entries : List (Datum × Datum)}
    (h : d.entries? = some entries) (key : String) : d.field? key = get? key entries := by
  rw [field?, h, Option.bind_some]

theorem get?_cons_self (key : String) (v : Datum) (rest : List (Datum × Datum)) :
    get? key ((.text key, v) :: rest) = some v := by
  rw [get?, if_pos (isText_iff.2 rfl)]

theorem get?_cons_of_ne {key : String} {k : Datum} (h : k ≠ .text key) (v : Datum)
    (rest : List (Datum × Datum)) : get? key ((k, v) :: rest) = get? key rest := by
  rw [get?, if_neg (fun htext => h (isText_iff.1 htext))]

theorem mem_of_get? {key : String} {v : Datum} {entries : List (Datum × Datum)}
    (h : get? key entries = some v) : (.text key, v) ∈ entries := by
  induction entries with
  | nil => cases h
  | cons entry entries ih =>
    obtain ⟨k, w⟩ := entry
    by_cases hk : k = .text key
    · subst hk
      rw [get?_cons_self] at h
      cases h
      exact List.mem_cons_self
    · rw [get?_cons_of_ne hk] at h
      exact List.mem_cons_of_mem _ (ih h)

theorem same_int_iff {m n : Int} : (Datum.int m).same (.int n) = true ↔ m = n := by
  simp [same, sameNumber]

/-- No datum is equal to two whole numbers. -/
theorem eq_of_same_int {m n : Int} {d : Datum} (hm : (Datum.int m).same d = true)
    (hn : (Datum.int n).same d = true) : m = n := by
  cases d with
  | int k => exact (same_int_iff.1 hm).trans (same_int_iff.1 hn).symm
  | bool b =>
    simp only [same, sameNumber, beq_iff_eq] at hm hn
    exact hm.trans hn.symm
  | float x =>
    simp only [same, sameNumber, beq_iff_eq] at hm hn
    exact Option.some.inj (hm.symm.trans hn)
  | _ => cases hm

theorem text_same_eq_isText (s : String) (d : Datum) : (Datum.text s).same d = d.isText s := by
  cases d with
  | text t => simp [same, isText, eq_comm]
  | _ => rfl

/-- Looking for an equal key is looking for the text. -/
theorem find?_same_text (key : String) (entries : List (Datum × Datum)) :
    (entries.find? fun e => (Datum.text key).same e.1).map Prod.snd = get? key entries := by
  induction entries with
  | nil => rfl
  | cons entry entries ih =>
    obtain ⟨k, v⟩ := entry
    rw [get?, List.find?_cons, text_same_eq_isText]
    cases k.isText key with
    | true => rfl
    | false => exact ih

theorem sameEntries_cons_text {key : String} {x : Datum} {xs ys : List (Datum × Datum)} :
    sameEntries ((.text key, x) :: xs) ys = true ↔
      (∃ y, get? key ys = some y ∧ x.same y = true) ∧ sameEntries xs ys = true := by
  rw [sameEntries, ← find?_same_text, Bool.and_eq_true]
  cases ys.find? fun e => (Datum.text key).same e.1 <;> simp

/-! ## Mappings with just the given keys -/

/-- The datum is a mapping with an entry under each of the keys, and no others. -/
def HasJust (keys : List String) (d : Datum) : Prop :=
  ∃ entries, d.entries? = some entries ∧ (entries.map Prod.fst).Perm (keys.map .text)

/-- Entries with just the given keys are equal to others when these have equal values there. -/
theorem sameEntries_iff {keys : List String} {xs ys : List (Datum × Datum)}
    (hn : keys.Nodup) (h : (xs.map Prod.fst).Perm (keys.map .text)) :
    sameEntries xs ys = true ↔ ∀ key ∈ keys, ∃ x y, get? key xs = some x ∧
      get? key ys = some y ∧ x.same y = true := by
  induction xs generalizing keys with
  | nil =>
    have hkeys : keys = [] := List.map_eq_nil_iff.1 h.nil_eq.symm
    subst hkeys
    simp [sameEntries]
  | cons entry xs ih =>
    obtain ⟨k, x⟩ := entry
    obtain ⟨key, hkey, rfl⟩ := List.mem_map.1 (h.subset List.mem_cons_self)
    have hrest : (xs.map Prod.fst).Perm ((keys.erase key).map .text) :=
      (h.trans ((List.perm_cons_erase hkey).map Datum.text)).cons_inv
    have hskip : ∀ other, other ≠ key → get? other ((.text key, x) :: xs) = get? other xs :=
      fun other hne => get?_cons_of_ne (fun he => hne (Datum.text.inj he).symm) x xs
    rw [sameEntries_cons_text, ih (hn.erase key) hrest]
    constructor
    · rintro ⟨⟨y, hy, hxy⟩, hall⟩ other hother
      by_cases heq : other = key
      · subst heq
        exact ⟨x, y, get?_cons_self other x xs, hy, hxy⟩
      · rw [hskip other heq]
        exact hall other ((List.mem_erase_of_ne heq).2 hother)
    · intro hall
      refine ⟨?_, fun other hother => ?_⟩
      · obtain ⟨x', y, hx, hy, hxy⟩ := hall key hkey
        rw [get?_cons_self] at hx
        cases hx
        exact ⟨y, hy, hxy⟩
      · obtain ⟨hne, hmem⟩ := (List.Nodup.mem_erase_iff hn).1 hother
        rw [← hskip other hne]
        exact hall other hmem

theorem same_of_entries? {d d' : Datum} {xs ys : List (Datum × Datum)}
    (h : d.entries? = some xs) (h' : d'.entries? = some ys) :
    d.same d' = (xs.length == ys.length && sameEntries xs ys) := by
  cases d with
  | mapping es | view es =>
    cases h
    rw [same, h']
  | _ => cases h

theorem exists_entries?_of_same {d d' : Datum} {xs : List (Datum × Datum)}
    (h : d.entries? = some xs) (hs : d.same d' = true) : ∃ ys, d'.entries? = some ys := by
  cases hys : d'.entries? with
  | some ys => exact ⟨ys, rfl⟩
  | none =>
    cases d with
    | mapping es | view es =>
      rw [same, hys] at hs
      cases hs
    | _ => cases h

/-- A mapping that is equal has the same keys. -/
theorem HasJust.of_same {keys : List String} {d d' : Datum} (hn : keys.Nodup)
    (h : HasJust keys d) (hs : d.same d' = true) : HasJust keys d' := by
  obtain ⟨xs, hxs, hperm⟩ := h
  obtain ⟨ys, hys⟩ := exists_entries?_of_same hxs hs
  rw [same_of_entries? hxs hys, Bool.and_eq_true, beq_iff_eq] at hs
  obtain ⟨hlength, hsame⟩ := hs
  have hsubset : keys.map .text ⊆ ys.map Prod.fst := by
    intro k hk
    obtain ⟨key, hkey, rfl⟩ := List.mem_map.1 hk
    obtain ⟨x, y, -, hy, -⟩ := (sameEntries_iff hn hperm).1 hsame key hkey
    exact List.mem_map_of_mem (mem_of_get? hy)
  -- There are as many entries as keys, so that the keys are all there is.
  have hkeys : (keys.map Datum.text).Nodup := hn.map fun _ _ => Datum.text.inj
  have hcount : (ys.map Prod.fst).length = (keys.map Datum.text).length := by
    rw [← hperm.length_eq, List.length_map, List.length_map, hlength]
  have hsub : List.Subperm (keys.map .text) (ys.map Prod.fst) :=
    List.subperm_of_subset hkeys hsubset
  exact ⟨ys, hys, (hsub.perm_of_length_le (Nat.le_of_eq hcount)).symm⟩

theorem HasJust.exists_of_same {keys : List String} {d d' : Datum} (hn : keys.Nodup)
    (h : HasJust keys d) (hs : d.same d' = true) {key : String} (hkey : key ∈ keys) :
    ∃ x y, d.field? key = some x ∧ d'.field? key = some y ∧ x.same y = true := by
  obtain ⟨xs, hxs, hperm⟩ := h
  obtain ⟨ys, hys⟩ := exists_entries?_of_same hxs hs
  rw [same_of_entries? hxs hys, Bool.and_eq_true] at hs
  rw [field?_of_entries? hxs, field?_of_entries? hys]
  exact (sameEntries_iff hn hperm).1 hs.2 key hkey

/-- The order of the entries does not count. -/
theorem HasJust.same {keys : List String} {d d' : Datum} (hn : keys.Nodup) (h : HasJust keys d)
    (h' : HasJust keys d') (hf : ∀ key ∈ keys, ∃ x y, d.field? key = some x ∧
      d'.field? key = some y ∧ x.same y = true) : d.same d' = true := by
  obtain ⟨xs, hxs, hperm⟩ := h
  obtain ⟨ys, hys, hperm'⟩ := h'
  have hlength : xs.length = ys.length := by
    have hmap := (hperm.trans hperm'.symm).length_eq
    rwa [List.length_map, List.length_map] at hmap
  simp only [field?_of_entries? hxs, field?_of_entries? hys] at hf
  rw [same_of_entries? hxs hys, Bool.and_eq_true, beq_iff_eq]
  exact ⟨hlength, (sameEntries_iff hn hperm).2 hf⟩

end Abacus.Datum
