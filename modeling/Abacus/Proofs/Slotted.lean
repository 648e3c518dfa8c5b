import Abacus.Proofs.Expr.Value
import Abacus.Proofs.Layout
import Abacus.Slotted

/-!
# Running slotted expressions

A tree whose variables have been replaced by slots gives, on a row of values, what the tree gives
under the environment that the row was made from. Further values behind the row make no difference,
and neither does the layout that was used.
-/

namespace Abacus

open Answer

theorem Row.get_of_getElem? {row : Row} {i : Nat} {v : Int} (h : row.values[i]? = some v) :
    row.get i = .ok v := by
  have hget : row.get? i = some v := by
    rw [get?, if_pos (Int.natCast_nonneg i), Int.toNat_natCast, h]
  rw [get, hget]

namespace Expr

theorem slotted_binary_eq_ok {t : Layout} {op : String} {l r : Expr} {s : Slotted} :
    (binary op l r).slotted t = .ok s ↔ ∃ o : Operator, op = o.symbol ∧
      ∃ l' r', l.slotted t = .ok l' ∧ r.slotted t = .ok r' ∧ s = .binary op o l' r' := by
  simp only [slotted, bind_eq_ok, operator_eq_ok, pure_eq_ok, Except.ok.injEq, exists_and_left,
    eq_comm (a := s)]

theorem exists_slotted {t : Layout} {e : Expr} (he : e.WellFormed)
    (h : ∀ x ∈ e.vars, x ∈ t.names) : ∃ s, e.slotted t = .ok s := by
  induction e, he using wellFormed_induction with
  | literal v => exact ⟨_, rfl⟩
  | var x =>
    obtain ⟨i, hi⟩ := Layout.exists_slot (h x (List.mem_singleton.2 rfl))
    refine ⟨.slot i, ?_⟩
    rw [slotted, hi, ok_bind, pure_eq_ok]
  | binary o l r hl hr ihl ihr =>
    obtain ⟨l', hl'⟩ := ihl fun x hx => h x (List.mem_append_left _ hx)
    obtain ⟨r', hr'⟩ := ihr fun x hx => h x (List.mem_append_right _ hx)
    exact ⟨_, slotted_binary_eq_ok.2 ⟨o, rfl, l', r', hl', hr', rfl⟩⟩

/-- The row stands for the environment, with or without values behind it. -/
theorem run_slotted {t : Layout} {env : Env} {e : Expr} {s : Slotted} {values : List Int}
    (hs : e.slotted t = .ok s) (hv : t.values env = .ok values) (extra : List Int)
    (isTuple : Bool) : s.run ⟨values ++ extra, isTuple⟩ = e.eval env := by
  induction e generalizing s with
  | literal v =>
    cases hs
    rfl
  | var x =>
    obtain ⟨i, hi, hs⟩ := bind_eq_ok.1 hs
    cases hs
    obtain ⟨v, hiv, hxv⟩ := Layout.getElem?_values hv hi
    have hrow : (values ++ extra)[i]? = some v := by
      obtain ⟨hlt, -⟩ := List.getElem?_eq_some_iff.1 hiv
      rw [List.getElem?_append_left hlt, hiv]
    rw [Slotted.run, Row.get_of_getElem? hrow, eval, hxv]
  | binary op l r ihl ihr =>
    obtain ⟨o, rfl, l', r', hl, hr, rfl⟩ := slotted_binary_eq_ok.1 hs
    rw [Slotted.run, ihl hl, ihr hr, eval_symbol]
  | foreign it => cases hs

end Expr

end Abacus
