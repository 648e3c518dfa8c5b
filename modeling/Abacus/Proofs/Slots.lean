import Abacus.Proofs.Layout
import Mathlib.Data.Finset.Insert
import Mathlib.Data.List.NodupEquivFin

/-!
# Which variable has which slot

The slots of a tree number its variables in the order of their first occurrences. A walk that keeps
a list of the names it has met, and a set of the same names to look them up in, comes to the same
list. The row that a layout makes of an environment has the value of each variable at its slot, and
where values are missing, the missing variable with the least slot is the fault.
-/

namespace Abacus

open Answer

namespace Env

theorem length_of_mapM_value {env : Env} {names : List String} {values : List Int}
    (h : names.mapM env.value = .ok values) : values.length = names.length := by
  induction names generalizing values with
  | nil => cases h; rfl
  | cons x names ih =>
    rw [List.mapM_cons] at h
    obtain ⟨v, -, h⟩ := bind_eq_ok.1 h
    obtain ⟨rest, hrest, h⟩ := bind_eq_ok.1 h
    cases h
    rw [List.length_cons, List.length_cons, ih hrest]

theorem mapM_value_congr {env env' : Env} {names : List String}
    (h : ∀ x ∈ names, env'.get? x = env.get? x) : names.mapM env'.value = names.mapM env.value := by
  induction names with
  | nil => rfl
  | cons x names ih =>
    have hx : env'.value x = env.value x := value_congr (h x List.mem_cons_self)
    rw [List.mapM_cons, List.mapM_cons, hx, ih fun y hy => h y (List.mem_cons_of_mem x hy)]

end Env

namespace Layout

theorem insertNew_of_not_mem {t : Layout} {x : String} (h : x ∉ t.names) :
    t.insertNew x = .ok (t.push x h) :=
  dif_neg h

theorem foldlM_insertNew {names : List String} {t : Layout} (h : (t.names ++ names).Nodup) :
    ∃ u, names.foldlM insertNew t = .ok u ∧ u.names = t.names ++ names := by
  induction names generalizing t with
  | nil => exact ⟨t, rfl, (List.append_nil t.names).symm⟩
  | cons x names ih =>
    have hx : x ∉ t.names := fun hmem =>
      (List.nodup_append.1 h).2.2 x hmem x List.mem_cons_self rfl
    have hsplit : t.names ++ x :: names = (t.push x hx).names ++ names := by
      rw [names_push, List.append_assoc, List.singleton_append]
    obtain ⟨u, hu, hnames⟩ := ih (hsplit ▸ h)
    refine ⟨u, ?_, hnames.trans hsplit.symm⟩
    rw [List.foldlM_cons, insertNew_of_not_mem hx, ok_bind, hu]

/-- Names that are all different are never refused. -/
theorem ofNames_names (t : Layout) : ofNames t.names = .ok t := by
  obtain ⟨u, hu, hnames⟩ := foldlM_insertNew (t := empty) t.nodup
  rw [ofNames, hu, ext hnames]

theorem slot_getElem (t : Layout) (i : Nat) (hi : i < t.names.length) :
    t.slot t.names[i] = .ok i :=
  slot_eq_ok.2 (List.getElem?_eq_getElem hi)

/-- The slots number the names from zero on, without a gap. -/
theorem exists_slots (t : Layout) : ∃ slots : {x // x ∈ t.names} ≃ Fin t.names.length,
    ∀ x : {x // x ∈ t.names}, t.slot x = .ok (slots x) ∧ t.names[(slots x).1] = x := by
  refine ⟨(t.nodup.getEquiv t.names).symm, fun x => ?_⟩
  have hx : t.names[((t.nodup.getEquiv t.names).symm x).1] = x :=
    congrArg Subtype.val ((t.nodup.getEquiv t.names).apply_symm_apply x)
  have hslot := t.slot_getElem _ ((t.nodup.getEquiv t.names).symm x).2
  rw [hx] at hslot
  exact ⟨hslot, hx⟩

/-! ## Rows -/

theorem exists_values_iff {t : Layout} {env : Env} :
    (∃ values, t.values env = .ok values) ↔ env.Binds t.names :=
  ⟨fun ⟨_, hv⟩ => Env.binds_of_mapM_value hv, exists_values⟩

/-- The first name that is missing has the least slot of all that are. -/
theorem exists_slot_of_missing {t : Layout} {env : Env} {x : String}
    (h : env.missing? t.names = some x) :
    ∃ i, t.slot x = .ok i ∧ env.get? x = none ∧
      ∀ y j, t.slot y = .ok j → j < i → ∃ v, env.get? y = some v := by
  obtain ⟨hx, i, hi, rfl, before⟩ := List.find?_eq_some_iff_getElem.1 h
  refine ⟨i, t.slot_getElem i hi, Option.isNone_iff_eq_none.1 hx, fun y j hy hj => ?_⟩
  obtain ⟨-, rfl⟩ := List.getElem?_eq_some_iff.1 (slot_eq_ok.1 hy)
  have hbound : (!(env.get? t.names[j]).isNone) = true := before j hj
  rwa [Option.not_isNone, Option.isSome_iff_exists] at hbound

end Layout

/-! ## Names met on a walk -/

/-- The names that a walk has met, as a list in the order of meeting and as a set. -/
structure Met where
  names : List String
  seen : Finset String
  agree : ∀ x, x ∈ seen ↔ x ∈ names

namespace Met

def nothing : Met := ⟨[], ∅, fun _ => iff_of_false (Finset.notMem_empty _) List.not_mem_nil⟩

/-- A name that was seen before is not listed again. -/
def meet (m : Met) (x : String) : Met :=
  if x ∈ m.seen then m
  else ⟨m.names ++ [x], insert x m.seen, fun y => by
    rw [Finset.mem_insert, List.mem_append, List.mem_singleton, m.agree, or_comm]⟩

theorem names_meet (m : Met) (x : String) :
    (m.meet x).names = if x ∈ m.names then m.names else m.names ++ [x] := by
  simp only [meet, m.agree]
  split <;> rfl

/-- The list goes along with the layout that gives the same names slots. -/
theorem names_foldl_meet {xs : List String} {m : Met} {t : Layout} (h : m.names = t.names) :
    (xs.foldl meet m).names = (xs.foldl Layout.insert t).names := by
  induction xs generalizing m t with
  | nil => exact h
  | cons x xs ih =>
    refine ih ?_
    rw [names_meet, Layout.names_insert, h]

end Met

namespace Expr

/-- Goes on from the names met so far with the names of a tree, from left to right. -/
def collect : Expr → Met → Except Fault Met
  | .literal _, m => .ok m
  | .var x, m => .ok (m.meet x)
  | .binary _ l r, m => do
    let m ← l.collect m
    r.collect m
  | .foreign it, _ => reject it

/-- Whatever was met before, a walk meets the occurrences of the tree one after another. -/
theorem collect_eq (e : Expr) (m : Met) :
    e.collect m = (do
      let xs ← e.occurrences
      return xs.foldl Met.meet m) := by
  induction e generalizing m with
  | literal v => rfl
  | var x => rfl
  | binary op l r ihl ihr =>
    rw [collect, occurrences, ihl]
    cases l.occurrences with
    | error fault => rfl
    | ok xs =>
      have hright := ihr (xs.foldl Met.meet m)
      rw [ok_bind, pure_eq_ok, ok_bind, hright]
      cases r.occurrences with
      | error fault => rfl
      | ok ys => simp only [ok_bind, pure_eq_ok, List.foldl_append]
  | foreign it => rfl

/-- The names that were collected are all different, so that none of them is refused a slot. -/
theorem layout_eq_collect (e : Expr) :
    e.layout = (do
      let m ← e.collect .nothing
      Layout.ofNames m.names) := by
  rw [layout, collect_eq]
  cases e.occurrences with
  | error fault => rfl
  | ok xs =>
    have hnames : (xs.foldl Met.meet .nothing).names = (xs.foldl Layout.insert .empty).names :=
      Met.names_foldl_meet rfl
    rw [ok_bind, ok_bind, pure_eq_ok, pure_eq_ok, ok_bind, hnames, Layout.ofNames_names]

end Expr

/-- The layout of a tree numbers its variables by their first occurrences, and a row has the values
of its variables at their slots. A row is refused for the first variable that has no value, and for
nothing else. -/
theorem slots_number_variables :
    (∀ e : Expr, e.Recognised → ∃ t names, e.layout = .ok t ∧ e.freeVariables = .ok names ∧
      t.names = e.vars.eraseDups ∧ t.names.Nodup ∧ (∀ x, x ∈ t.names ↔ x ∈ names) ∧
      (∃ slots : {x // x ∈ t.names} ≃ Fin t.names.length,
        ∀ x : {x // x ∈ t.names}, t.slot x = .ok (slots x) ∧ t.names[(slots x).1] = x) ∧
      ∀ (i : Nat) (hi : i < t.names.length), t.slot t.names[i] = .ok i) ∧
    (∀ e : Expr, e.layout = (do
      let m ← e.collect .nothing
      Layout.ofNames m.names)) ∧
    ∀ (t : Layout) (env : Env),
      ((∃ values, t.values env = .ok values) ↔ env.Binds t.names) ∧
      (∀ values, t.values env = .ok values → values.length = t.size ∧
        ∀ x ∈ t.names, ∃ i v, t.slot x = .ok i ∧ values[i]? = some v ∧ env.get? x = some v) ∧
      (∀ env' : Env, (∀ x ∈ t.names, env'.get? x = env.get? x) → t.values env' = t.values env) ∧
      (¬env.Binds t.names → ∃ x i, t.slot x = .ok i ∧ env.get? x = none ∧
        (∀ y j, t.slot y = .ok j → j < i → ∃ v, env.get? y = some v) ∧
        t.values env = .error (.unboundVariable x)) := by
  refine ⟨?_, Expr.layout_eq_collect, fun t env => ⟨Layout.exists_values_iff, ?_, ?_, ?_⟩⟩
  · intro e he
    obtain ⟨t, ht, hn⟩ := Expr.exists_layout he
    have hfree := Expr.freeVariables_eq he
    refine ⟨t, _, ht, hfree, hn, t.nodup, fun x => ?_, t.exists_slots, t.slot_getElem⟩
    rw [Expr.mem_freeVariables he hfree, hn, List.mem_eraseDups]
  · intro values hv
    refine ⟨Env.length_of_mapM_value hv, fun x hx => ?_⟩
    obtain ⟨i, hi⟩ := Layout.exists_slot hx
    obtain ⟨v, hiv, hxv⟩ := Layout.getElem?_values hv hi
    exact ⟨i, v, hi, hiv, Env.value_eq_ok.1 hxv⟩
  · exact fun env' => Env.mapM_value_congr
  · intro hb
    rw [← Env.missing?_eq_none_iff, ← ne_eq, Option.ne_none_iff_exists'] at hb
    obtain ⟨x, hx⟩ := hb
    obtain ⟨i, hi, hnone, before⟩ := Layout.exists_slot_of_missing hx
    exact ⟨x, i, hi, hnone, before, Layout.values_of_missing hx⟩

/-- In `y * x - (y + 2)` the variable `y` comes first and keeps its slot, whatever becomes of the
operator. Where both variables are missing, `y` is the one that is reported. -/
theorem slots_number_variables_repeated :
    (Expr.binary "-" (.mul (.var "y") (.var "x")) (.add (.var "y") (.literal 2))).Recognised ∧
    ∃ t, (Expr.binary "-" (.mul (.var "y") (.var "x"))
        (.add (.var "y") (.literal 2))).layout = .ok t ∧
      t.names = ["y", "x"] ∧ t.slot "x" = .ok 1 ∧
      (∃ values, t.values ⟨[("x", 3), ("z", 8), ("y", 5)]⟩ = .ok values ∧ values.length = 2 ∧
        values[1]? = some 3) ∧
      t.values ⟨[("z", 8)]⟩ = .error (.unboundVariable "y") := by
  have he : (Expr.binary "-" (.mul (.var "y") (.var "x"))
      (.add (.var "y") (.literal 2))).Recognised :=
    ⟨⟨trivial, trivial⟩, trivial, trivial⟩
  obtain ⟨layouts, -, rows⟩ := slots_number_variables
  obtain ⟨t, -, ht, -, hn, -, -, -, slots⟩ := layouts _ he
  have heq : t = ⟨["y", "x"], by decide⟩ := Layout.ext hn
  subst heq
  have hx : Layout.slot ⟨["y", "x"], by decide⟩ "x" = .ok 1 := slots 1 (by decide)
  refine ⟨he, _, ht, rfl, hx, ?_, ?_⟩
  · obtain ⟨succeeds, contents, -⟩ := rows ⟨["y", "x"], by decide⟩
      ⟨[("x", 3), ("z", 8), ("y", 5)]⟩
    obtain ⟨values, hv⟩ := succeeds.2
      (List.forall_mem_cons.2 ⟨⟨5, rfl⟩, List.forall_mem_singleton.2 ⟨3, rfl⟩⟩)
    obtain ⟨hlength, held⟩ := contents values hv
    obtain ⟨i, v, hi, hiv, hv3⟩ := held "x" (by decide)
    cases hx.symm.trans hi
    cases hv3
    exact ⟨values, hv, hlength, hiv⟩
  · obtain ⟨-, -, -, missing⟩ := rows ⟨["y", "x"], by decide⟩ ⟨[("z", 8)]⟩
    have unbound : ¬Env.Binds ⟨[("z", 8)]⟩ ["y", "x"] := by
      intro h
      obtain ⟨v, hv⟩ := h "y" List.mem_cons_self
      cases hv
    obtain ⟨x, i, hi, -, before, hfault⟩ := missing unbound
    cases i with
    | zero =>
      cases Layout.slot_eq_ok.1 hi
      exact hfault
    | succ i =>
      obtain ⟨v, hv⟩ := before "y" 0 rfl (Nat.succ_pos i)
      cases hv

end Abacus
