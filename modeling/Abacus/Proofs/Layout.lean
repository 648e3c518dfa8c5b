import Abacus.Layout
import Abacus.Proofs.Env
import Abacus.Proofs.Expr.Shape

/-!
# Slots

A layout and the row that it makes of an environment agree: the value of a variable stands at the
variable's slot. The layout of a tree has the tree's variables in the order of their first
occurrences.
-/

namespace Abacus

open Answer

namespace Layout

theorem slot_eq_ok {t : Layout} {x : String} {i : Nat} :
    t.slot x = .ok i ↔ t.names[i]? = some x := by
  have hslot : t.slot x = .ok i ↔ t.names.idxOf? x = some i := by
    unfold slot slot?
    cases t.names.idxOf? x <;> simp
  rw [hslot, List.idxOf?_eq_some_iff, List.getElem?_eq_some_iff]
  constructor
  · rintro ⟨hi, hx, -⟩
    exact ⟨hi, hx⟩
  · rintro ⟨hi, hx⟩
    refine ⟨hi, hx, fun j hj hjx => ?_⟩
    have heq : j = i := (List.getElem_inj t.nodup).1 (hjx.trans hx.symm)
    omega

theorem exists_slot {t : Layout} {x : String} (h : x ∈ t.names) : ∃ i, t.slot x = .ok i := by
  obtain ⟨i, hi⟩ := List.mem_iff_getElem?.1 h
  exact ⟨i, slot_eq_ok.2 hi⟩

theorem slot_of_not_mem {t : Layout} {x : String} (h : x ∉ t.names) :
    t.slot x = .error (.unboundVariable x) := by
  rw [slot, slot?, List.idxOf?_eq_none_iff.2 h]

theorem values_of_missing {t : Layout} {env : Env} {x : String} (h : env.missing? t.names = some x) :
    t.values env = .error (.unboundVariable x) :=
  Env.mapM_value_of_missing h

theorem exists_values {t : Layout} {env : Env} (h : env.Binds t.names) :
    ∃ values, t.values env = .ok values :=
  Env.exists_mapM_value h

/-- The value of a variable stands at its slot. -/
theorem getElem?_values {t : Layout} {env : Env} {values : List Int} {x : String} {i : Nat}
    (hv : t.values env = .ok values) (hs : t.slot x = .ok i) :
    ∃ v, values[i]? = some v ∧ env.value x = .ok v := by
  have hx : t.names[i]? = some x := slot_eq_ok.1 hs
  obtain ⟨v, hxv⟩ := Env.binds_of_mapM_value hv x (List.mem_of_getElem? hx)
  refine ⟨v, ?_, Env.value_eq_ok.2 hxv⟩
  rw [Env.getElem?_of_mapM_value hv, hx, Option.bind_some, hxv]

theorem names_foldl_insert (names : List String) :
    (names.foldl insert empty).names = names.eraseDups := by
  induction names using List.reverseRecOn with
  | nil => rfl
  | append_singleton names x ih =>
    rw [List.foldl_append, List.foldl_cons, List.foldl_nil, names_insert, ih, Env.eraseDups_concat]
    simp only [List.mem_eraseDups]

end Layout

theorem Expr.exists_layout {e : Expr} (he : e.Recognised) :
    ∃ t, e.layout = .ok t ∧ t.names = e.vars.eraseDups := by
  refine ⟨e.vars.foldl Layout.insert Layout.empty, ?_, Layout.names_foldl_insert e.vars⟩
  rw [layout, occurrences_eq_vars he, ok_bind, pure_eq_ok]

end Abacus
