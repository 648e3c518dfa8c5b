import Abacus.Proofs.Datum.Mapping
import Abacus.Proofs.Slots

/-!
# Layouts as mappings

A layout can be built of names that are all different, and the first repetition is refused. It is
the mapping of these names to their slots. Since the slots leave no gap, that mapping tells the
order of the names as well: layouts are equal when they are equal as mappings, although the order of
entries does not count there.
-/

namespace Abacus

open Answer

namespace Layout

/-! ## Building a layout -/

theorem insertNew_of_mem {t : Layout} {x : String} (h : x ∈ t.names) :
    t.insertNew x = .error (.duplicateSlot x) :=
  dif_pos h

theorem exists_ofNames {names : List String} (h : names.Nodup) :
    ∃ t, ofNames names = .ok t ∧ t.names = names :=
  foldlM_insertNew (t := empty) h

/-- A name is refused where it stands among the names before it. -/
theorem ofNames_of_repeated {before after : List String} {x : String} (hn : before.Nodup)
    (hx : x ∈ before) : ofNames (before ++ x :: after) = .error (.duplicateSlot x) := by
  obtain ⟨t, ht, hnames⟩ := exists_ofNames hn
  have hmem : x ∈ t.names := hnames ▸ hx
  have hprefix : before.foldlM insertNew empty = .ok t := ht
  rw [ofNames, List.foldlM_append, hprefix, ok_bind, List.foldlM_cons, insertNew_of_mem hmem,
    error_bind]

/-- Of the names that repeat an earlier one there is a first. -/
theorem exists_first_repeated {names : List String} (h : ¬names.Nodup) :
    ∃ before x after, names = before ++ x :: after ∧ before.Nodup ∧ x ∈ before := by
  induction names using List.reverseRecOn with
  | nil => exact absurd List.nodup_nil h
  | append_singleton names x ih =>
    by_cases hn : names.Nodup
    · refine ⟨names, x, [], rfl, hn, ?_⟩
      by_contra hx
      exact h (List.concat_eq_append ▸ (List.nodup_concat names x).2 ⟨hx, hn⟩)
    · obtain ⟨before, y, after, rfl, hbefore, hy⟩ := ih hn
      exact ⟨before, y, after ++ [x], List.append_assoc _ _ _, hbefore, hy⟩

theorem nodup_of_ofNames {names : List String} {t : Layout} (h : ofNames names = .ok t) :
    names.Nodup ∧ t.names = names := by
  by_cases hn : names.Nodup
  · obtain ⟨u, hu, hnames⟩ := exists_ofNames hn
    cases h.symm.trans hu
    exact ⟨hn, hnames⟩
  · obtain ⟨before, x, after, rfl, hbefore, hx⟩ := exists_first_repeated hn
    rw [ofNames_of_repeated hbefore hx] at h
    cases h

/-! ## Entries -/

/-- Gives a new name the number of the entries before it. -/
def grow (entries : List (String × Nat)) (x : String) : Except Fault (List (String × Nat)) :=
  if x ∈ entries.map Prod.fst then .error (.duplicateSlot x)
  else .ok (entries ++ [(x, entries.length)])

theorem map_fst_entries (t : Layout) : t.entries.map Prod.fst = t.names :=
  List.zipIdx_map_fst 0 t.names

theorem entries_push (t : Layout) (x : String) (h : x ∉ t.names) :
    (t.push x h).entries = t.entries ++ [(x, t.entries.length)] := by
  rw [entries, names_push, List.zipIdx_append, entries, List.length_zipIdx, Nat.zero_add]
  rfl

theorem grow_entries (t : Layout) (x : String) :
    grow t.entries x = (t.insertNew x).map entries := by
  rw [grow, map_fst_entries]
  by_cases hx : x ∈ t.names
  · rw [if_pos hx, insertNew_of_mem hx]
    rfl
  · rw [if_neg hx, insertNew_of_not_mem hx, ← entries_push t x hx]
    rfl

/-- A layout has the entries that come about by numbering each new name with those before it. -/
theorem foldlM_grow (t : Layout) (names : List String) :
    names.foldlM grow t.entries = (names.foldlM insertNew t).map entries := by
  induction names generalizing t with
  | nil => rfl
  | cons x names ih =>
    rw [List.foldlM_cons, List.foldlM_cons, grow_entries]
    cases t.insertNew x with
    | error fault => rfl
    | ok u => exact ih u

theorem lookup_zipIdx (names : List String) (x : String) (n : Nat) :
    (names.zipIdx n).lookup x = (names.idxOf? x).map (n + ·) := by
  induction names generalizing n with
  | nil => rfl
  | cons y names ih =>
    rw [List.zipIdx_cons, List.lookup_cons, List.idxOf?_cons, ih]
    by_cases hxy : y = x
    · simp [hxy]
    · have hne : (x == y) = false := beq_eq_false_iff_ne.2 (Ne.symm hxy)
      have hne' : (y == x) = false := beq_eq_false_iff_ne.2 hxy
      simp only [hne, hne', Option.map_map, Bool.false_eq_true, if_false]
      congr 1
      funext i
      simp only [Function.comp_apply]
      omega

theorem lookup_entries (t : Layout) (x : String) : t.entries.lookup x = t.slot? x := by
  simp [entries, lookup_zipIdx, slot?]

/-! ## Looking names up -/

theorem slot_eq_ok_iff_slot? {t : Layout} {x : String} {i : Nat} :
    t.slot x = .ok i ↔ t.slot? x = some i := by
  unfold slot
  cases t.slot? x <;> simp

/-- The layout gives these names their slots in order and no other name any, however it is asked. -/
structure Numbers (t : Layout) (names : List String) : Prop where
  names_eq : t.names = names
  slot_getElem : ∀ (i : Nat) (hi : i < names.length), t.slot names[i] = .ok i
  present : ∀ x ∈ names, ∃ i, t.slot x = .ok i ∧ t.contains x = true ∧
    ∀ default, t.getD x default = .int i
  absent : ∀ x ∉ names, t.slot x = .error (.unboundVariable x) ∧ t.contains x = false ∧
    ∀ default, t.getD x default = default
  rebuilt : ofNames t.names = .ok t

theorem numbers_names (t : Layout) : t.Numbers t.names where
  names_eq := rfl
  slot_getElem := t.slot_getElem
  present x hx := by
    obtain ⟨i, hi⟩ := exists_slot hx
    have hslot : t.slot? x = some i := slot_eq_ok_iff_slot?.1 hi
    refine ⟨i, hi, ?_, fun default => ?_⟩
    · rw [contains, hslot, Option.isSome_some]
    · rw [getD, hslot]
  absent x hx := by
    have hslot : t.slot? x = none := List.idxOf?_eq_none_iff.2 hx
    refine ⟨slot_of_not_mem hx, ?_, fun default => ?_⟩
    · rw [contains, hslot, Option.isSome_none]
    · rw [getD, hslot]
  rebuilt := ofNames_names t

/-! ## Equality -/

open Datum (HasJust)

/-- The mapping has the names of the layout with their slots, and nothing else. -/
structure Matches (t : Layout) (d : Datum) : Prop where
  just : HasJust t.names d
  slots : ∀ x i, t.slot x = .ok i → d.field? x = some (.int i)

theorem field?_toDatum (t : Layout) (x : String) :
    t.toDatum.field? x = (t.slot? x).map fun i => .int i := by
  have hget : ∀ entries : List (String × Nat),
      Datum.get? x (entries.map fun e => (.text e.1, .int e.2)) =
        (entries.lookup x).map fun i => .int i := by
    intro entries
    induction entries with
    | nil => rfl
    | cons e entries ih =>
      obtain ⟨y, i⟩ := e
      rw [List.map_cons, List.lookup_cons]
      by_cases hxy : x = y
      · subst hxy
        simp [Datum.get?_cons_self]
      · have hne : (x == y) = false := beq_eq_false_iff_ne.2 hxy
        rw [Datum.get?_cons_of_ne fun h => hxy (Datum.text.inj h).symm, ih, hne]
  rw [Datum.field?_of_entries? rfl, hget, lookup_entries]

theorem matches_toDatum (t : Layout) : t.Matches t.toDatum := by
  refine ⟨⟨_, rfl, ?_⟩, fun x i hi => ?_⟩
  · have hkeys : (t.entries.map fun e => ((.text e.1, .int e.2) : Datum × Datum)).map Prod.fst =
        t.names.map .text := by
      rw [← map_fst_entries, List.map_map, List.map_map]
      rfl
    rw [hkeys]
  · rw [field?_toDatum, slot_eq_ok_iff_slot?.1 hi, Option.map_some]

/-- A layout is equal to the mappings with just its names, when the values under them are equal to
the slots. -/
theorem toDatum_same_iff {t : Layout} {d : Datum} : t.toDatum.same d = true ↔
    HasJust t.names d ∧
      ∀ x i, t.slot x = .ok i → ∃ v, d.field? x = some v ∧ (Datum.int i).same v = true := by
  have hown := t.matches_toDatum
  constructor
  · intro h
    refine ⟨hown.just.of_same t.nodup h, fun x i hi => ?_⟩
    have hx : x ∈ t.names := List.mem_of_getElem? (slot_eq_ok.1 hi)
    obtain ⟨w, v, hw, hv, hsame⟩ := hown.just.exists_of_same t.nodup h hx
    cases hw.symm.trans (hown.slots x i hi)
    exact ⟨v, hv, hsame⟩
  · rintro ⟨hjust, hslots⟩
    refine hown.just.same t.nodup hjust fun x hx => ?_
    obtain ⟨i, hi⟩ := exists_slot hx
    obtain ⟨v, hv, hsame⟩ := hslots x i hi
    exact ⟨.int i, v, hown.slots x i hi, hv, hsame⟩

theorem toDatum_same_iff_matches {t : Layout} {d : Datum}
    (hd : ∀ x v, d.field? x = some v → ∃ n : Int, v = .int n) :
    t.toDatum.same d = true ↔ t.Matches d := by
  rw [toDatum_same_iff]
  constructor
  · rintro ⟨hjust, hslots⟩
    refine ⟨hjust, fun x i hi => ?_⟩
    obtain ⟨v, hv, hsame⟩ := hslots x i hi
    obtain ⟨n, rfl⟩ := hd x v hv
    rw [Datum.same_int_iff.1 hsame, hv]
  · rintro ⟨hjust, hslots⟩
    exact ⟨hjust, fun x i hi => ⟨.int i, hslots x i hi, Datum.same_int_iff.2 rfl⟩⟩

/-- The slots under the names tell the order of the names, so that no mapping is equal to two
layouts. -/
theorem eq_of_toDatum_same {t u : Layout} {d : Datum} (ht : t.toDatum.same d = true)
    (hu : u.toDatum.same d = true) : t = u := by
  obtain ⟨⟨es, hes, hperm⟩, hslots⟩ := toDatum_same_iff.1 ht
  obtain ⟨⟨es', hes', hperm'⟩, hslots'⟩ := toDatum_same_iff.1 hu
  cases hes.symm.trans hes'
  have hnames : (t.names.map Datum.text).Perm (u.names.map Datum.text) := hperm.symm.trans hperm'
  have hmem : ∀ x, x ∈ t.names → x ∈ u.names := fun x hx => by
    obtain ⟨y, hy, hxy⟩ := List.mem_map.1 (hnames.subset (List.mem_map_of_mem hx))
    cases hxy
    exact hy
  have hlength : t.names.length = u.names.length := by
    have h := hnames.length_eq
    rwa [List.length_map, List.length_map] at h
  refine ext (List.ext_getElem hlength fun i hi hi' => ?_)
  obtain ⟨j, hj⟩ := exists_slot (hmem _ (List.getElem_mem hi))
  obtain ⟨v, hv, hsame⟩ := hslots _ _ (t.slot_getElem i hi)
  obtain ⟨w, hw, hsame'⟩ := hslots' _ _ hj
  cases hv.symm.trans hw
  have hij : (i : Int) = j := Datum.eq_of_same_int hsame hsame'
  cases Int.ofNat.inj hij
  exact ((List.getElem?_eq_some_iff.1 (slot_eq_ok.1 hj)).2).symm

/-- The order of the entries does not count for equality as mappings, and yet the order of the names
decides on it. -/
theorem toDatum_same_toDatum (t u : Layout) : t.toDatum.same u.toDatum = decide (t = u) := by
  have hself : ∀ v : Layout, v.toDatum.same v.toDatum = true := fun v =>
    toDatum_same_iff.2 ⟨v.matches_toDatum.just, fun x i hi =>
      ⟨.int i, v.matches_toDatum.slots x i hi, Datum.same_int_iff.2 rfl⟩⟩
  rw [Bool.eq_iff_iff, decide_eq_true_iff]
  constructor
  · exact fun h => eq_of_toDatum_same h (hself u)
  · rintro rfl
    exact hself t

end Layout

/-- Names without repetition make a layout, the first repetition is refused, and the layout can be
asked for just these names. Layouts with the same names in the same order are the only ones that are
equal as mappings, and so a mapping in whatever order is equal to at most one layout. -/
theorem layouts_are_mappings :
    (∀ names : List String,
      ((∃ t, Layout.ofNames names = .ok t) ↔ names.Nodup) ∧
      (∀ t, Layout.ofNames names = .ok t → t.Numbers names) ∧
      (¬names.Nodup → ∃ before x after, names = before ++ x :: after ∧ before.Nodup ∧
        x ∈ before ∧ Layout.ofNames names = .error (.duplicateSlot x)) ∧
      names.foldlM Layout.grow [] = (Layout.ofNames names).map Layout.entries) ∧
    (∀ t u : Layout, (t = u ↔ t.names = u.names) ∧
      t.toDatum.same u.toDatum = decide (t = u)) ∧
    ∀ (t : Layout) (d : Datum),
      ((∀ x v, d.field? x = some v → ∃ n : Int, v = .int n) →
        (t.toDatum.same d = true ↔ t.Matches d)) ∧
      ∀ u : Layout, t.toDatum.same d = true → u.toDatum.same d = true → t = u := by
  refine ⟨fun names => ⟨⟨?_, ?_⟩, ?_, ?_, ?_⟩, fun t u => ⟨?_, ?_⟩, fun t d => ⟨?_, ?_⟩⟩
  · rintro ⟨t, ht⟩
    exact (Layout.nodup_of_ofNames ht).1
  · intro hn
    obtain ⟨t, ht, -⟩ := Layout.exists_ofNames hn
    exact ⟨t, ht⟩
  · intro t ht
    exact (Layout.nodup_of_ofNames ht).2 ▸ t.numbers_names
  · intro hn
    obtain ⟨before, x, after, rfl, hbefore, hx⟩ := Layout.exists_first_repeated hn
    exact ⟨before, x, after, rfl, hbefore, hx, Layout.ofNames_of_repeated hbefore hx⟩
  · exact Layout.foldlM_grow .empty names
  · exact ⟨fun h => h ▸ rfl, Layout.ext⟩
  · exact Layout.toDatum_same_toDatum t u
  · exact Layout.toDatum_same_iff_matches
  · exact fun u => Layout.eq_of_toDatum_same

/-- The second `b` is refused. A mapping with `x` before `y` is equal to the layout with `y` before
`x`, because of the slots in it, and to no other. -/
theorem layouts_are_mappings_reordered :
    ¬["b", "a", "b"].Nodup ∧ Layout.ofNames ["b", "a", "b"] = .error (.duplicateSlot "b") ∧
    ∃ t, Layout.ofNames ["y", "x"] = .ok t ∧ t.getD "x" .null = .int 1 ∧
      t.getD "z" .null = .null ∧
      t.toDatum.same (.mapping [(.text "x", .int 1), (.text "y", .int 0)]) = true ∧
      ∀ u : Layout, u.toDatum.same (.mapping [(.text "x", .int 1), (.text "y", .int 0)]) = true →
        t = u := by
  obtain ⟨built, -, equal⟩ := layouts_are_mappings
  have hrepeated : ¬["b", "a", "b"].Nodup := by decide
  refine ⟨hrepeated, ?_, ?_⟩
  · obtain ⟨before, x, after, hsplit, -, hx, hrefused⟩ := (built ["b", "a", "b"]).2.2.1 hrepeated
    rw [hrefused]
    rcases before with _ | ⟨a, _ | ⟨b, _ | ⟨c, before⟩⟩⟩
    · cases hx
    · cases hsplit
      exact absurd (List.mem_singleton.1 hx) (by decide)
    · cases hsplit
      rfl
    · simp at hsplit
  · obtain ⟨succeeds, numbers, -⟩ := built ["y", "x"]
    obtain ⟨t, ht⟩ := succeeds.2 (by decide)
    have hnumbers := numbers t ht
    have hone : t.slot "x" = .ok 1 := hnumbers.slot_getElem 1 (by decide)
    obtain ⟨i, hi, -, hget⟩ := hnumbers.present "x" (by decide)
    cases hone.symm.trans hi
    obtain ⟨whole, unique⟩ := equal t (.mapping [(.text "x", .int 1), (.text "y", .int 0)])
    have hsame := (whole ?_).2 ⟨⟨_, rfl, ?_⟩, ?_⟩
    · exact ⟨t, ht, hget .null, (hnumbers.absent "z" (by decide)).2.2 .null, hsame,
        fun u => unique u hsame⟩
    · intro x v hv
      rw [Datum.field?_of_entries? rfl] at hv
      rcases List.mem_cons.1 (Datum.mem_of_get? hv) with h | h
      · cases h
        exact ⟨1, rfl⟩
      · cases List.mem_singleton.1 h
        exact ⟨0, rfl⟩
    · rw [hnumbers.names_eq]
      exact List.Perm.swap _ _ _
    · intro x i hi
      have hx : ["y", "x"][i]? = some x := hnumbers.names_eq ▸ Layout.slot_eq_ok.1 hi
      rcases i with _ | _ | i
      · cases hx
        rfl
      · cases hx
        rfl
      · cases hx

end Abacus
