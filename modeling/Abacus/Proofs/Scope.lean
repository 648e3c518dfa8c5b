import Abacus.Proofs.Slotted

/-!
# Trees in the scope of a layout

A tree can be slotted by a layout when it is well-formed and the layout has its variables; in what
order the layout has them, and what else it has, does not matter. The slots that come about are all
slots of the layout, so that the slotted expression runs on every row that is long enough.
-/

namespace Abacus

open Answer

namespace Slotted

/-- All slots are among the first `size` ones, and every operation is the one that its text
names. -/
inductive Within (size : Nat) : Slotted → Prop where
  | literal (v : Int) : Within size (.literal v)
  | slot {i : Nat} (h : i < size) : Within size (.slot i)
  | binary {o : Operator} {l r : Slotted} (hl : Within size l) (hr : Within size r) :
    Within size (.binary o.symbol o l r)

theorem run_binary_eq_ok {row : Row} {op : String} {o : Operator} {l r : Slotted} {v : Int} :
    (binary op o l r).run row = .ok v ↔
      ∃ a b, l.run row = .ok a ∧ r.run row = .ok b ∧ o.apply a b = v := by
  simp only [run, bind_eq_ok, pure_eq_ok, Except.ok.injEq, exists_and_left]

/-- A row that has all slots lacks nothing. -/
theorem Within.exists_run {size : Nat} {s : Slotted} (h : s.Within size) {row : Row}
    (hrow : size ≤ row.values.length) : ∃ v, s.run row = .ok v := by
  induction h with
  | literal v => exact ⟨v, rfl⟩
  | @slot i hi =>
    have hlt : i < row.values.length := Nat.lt_of_lt_of_le hi hrow
    exact ⟨row.values[i], Row.get_of_getElem? (List.getElem?_eq_getElem hlt)⟩
  | @binary o l r hl hr ihl ihr =>
    obtain ⟨a, ha⟩ := ihl
    obtain ⟨b, hb⟩ := ihr
    exact ⟨o.apply a b, run_binary_eq_ok.2 ⟨a, b, ha, hb, rfl⟩⟩

end Slotted

namespace Expr

theorem within_slotted {t : Layout} {e : Expr} {s : Slotted} (h : e.slotted t = .ok s) :
    s.Within t.size := by
  induction e generalizing s with
  | literal v =>
    cases h
    exact .literal v
  | var x =>
    obtain ⟨i, hi, hs⟩ := bind_eq_ok.1 h
    cases hs
    obtain ⟨hlt, -⟩ := List.getElem?_eq_some_iff.1 (Layout.slot_eq_ok.1 hi)
    exact .slot hlt
  | binary op l r ihl ihr =>
    obtain ⟨o, rfl, l', r', hl, hr, rfl⟩ := slotted_binary_eq_ok.1 h
    exact .binary (ihl hl) (ihr hr)
  | foreign it => cases h

theorem wellFormed_of_slotted {t : Layout} {e : Expr} {s : Slotted} (h : e.slotted t = .ok s) :
    e.WellFormed := by
  induction e generalizing s with
  | literal v => trivial
  | var x => trivial
  | binary op l r ihl ihr =>
    obtain ⟨o, ho, l', r', hl, hr, -⟩ := slotted_binary_eq_ok.1 h
    exact wellFormed_binary_iff.2 ⟨o, ho, ihl hl, ihr hr⟩
  | foreign it => cases h

theorem mem_names_of_slotted {t : Layout} {e : Expr} {s : Slotted} (h : e.slotted t = .ok s) :
    ∀ x ∈ e.vars, x ∈ t.names := by
  induction e generalizing s with
  | literal v => exact fun x hx => (nomatch hx)
  | var y =>
    obtain ⟨i, hi, -⟩ := bind_eq_ok.1 h
    exact List.forall_mem_singleton.2 (List.mem_of_getElem? (Layout.slot_eq_ok.1 hi))
  | binary op l r ihl ihr =>
    obtain ⟨o, -, l', r', hl, hr, -⟩ := slotted_binary_eq_ok.1 h
    exact List.forall_mem_append.2 ⟨ihl hl, ihr hr⟩
  | foreign it => cases h

/-- The layout has the free variables of the tree. -/
def InScope (e : Expr) (t : Layout) : Prop :=
  ∃ names, e.freeVariables = .ok names ∧ ∀ x ∈ names, x ∈ t.names

theorem inScope_iff {e : Expr} (he : e.WellFormed) {t : Layout} :
    e.InScope t ↔ ∀ x ∈ e.vars, x ∈ t.names := by
  have hn := freeVariables_eq he.recognised
  constructor
  · rintro ⟨names, hnames, h⟩ x hx
    exact h x ((mem_freeVariables he.recognised hnames).2 hx)
  · intro h
    exact ⟨_, hn, fun x hx => h x ((mem_freeVariables he.recognised hn).1 hx)⟩

theorem exists_slotted_iff {t : Layout} {e : Expr} :
    (∃ s, e.slotted t = .ok s) ↔ e.WellFormed ∧ e.InScope t := by
  constructor
  · rintro ⟨s, hs⟩
    have he : e.WellFormed := wellFormed_of_slotted hs
    exact ⟨he, (inScope_iff he).2 (mem_names_of_slotted hs)⟩
  · rintro ⟨he, h⟩
    exact exists_slotted he ((inScope_iff he).1 h)

/-- A row that the layout could be filled for gives the tree its value. -/
theorem exists_eval_of_values {t : Layout} {env : Env} {e : Expr} {s : Slotted}
    {values : List Int} (hs : e.slotted t = .ok s) (hv : t.values env = .ok values) :
    ∃ v, e.eval env = .ok v := by
  have hbinds : env.Binds t.names := Env.binds_of_mapM_value hv
  exact eval_of_binds (wellFormed_of_slotted hs) fun x hx => hbinds x (mem_names_of_slotted hs x hx)

/-- Slotting succeeds exactly in scope, keeps to the slots of the layout, and is evaluation on every
row that the layout makes of an environment. -/
theorem slotted_correct (e : Expr) (t : Layout) :
    ((∃ s, e.slotted t = .ok s) ↔ e.WellFormed ∧ e.InScope t) ∧
    ∀ s, e.slotted t = .ok s →
      s.Within t.size ∧
      (∀ row : Row, t.size ≤ row.values.length → ∃ v, s.run row = .ok v) ∧
      (∀ (env : Env) (values : List Int), t.values env = .ok values →
        ∃ v, e.eval env = .ok v ∧
          ∀ (extra : List Int) (isTuple : Bool), s.run ⟨values ++ extra, isTuple⟩ = .ok v) ∧
      ∀ (t' : Layout) (s' : Slotted), e.slotted t' = .ok s' →
        ∀ (env : Env) (values values' : List Int), t.values env = .ok values →
          t'.values env = .ok values' → s'.run ⟨values', true⟩ = s.run ⟨values, true⟩ := by
  refine ⟨exists_slotted_iff, fun s hs => ?_⟩
  have within : s.Within t.size := within_slotted hs
  refine ⟨within, fun row hrow => within.exists_run hrow, ?_, ?_⟩
  · intro env values hv
    obtain ⟨v, hev⟩ := exists_eval_of_values hs hv
    exact ⟨v, hev, fun extra isTuple => (run_slotted hs hv extra isTuple).trans hev⟩
  · intro t' s' hs' env values values' hv hv'
    have h := run_slotted hs hv [] true
    have h' := run_slotted hs' hv' [] true
    rw [List.append_nil] at h h'
    rw [h, h']

/-- `x * y + x` with the variables the other way round and one more between them, and with just its
variables. -/
theorem slotted_correct_permuted :
    ∃ s s' : Slotted,
      (add (.mul (.var "x") (.var "y")) (.var "x")).slotted ⟨["y", "z", "x"], by decide⟩ = .ok s ∧
      (add (.mul (.var "x") (.var "y")) (.var "x")).slotted ⟨["x", "y"], by decide⟩ = .ok s' ∧
      s.Within 3 ∧ (∃ v, s.run ⟨[7, 8, 9, 10], false⟩ = .ok v) ∧
      s.run ⟨[-3, 11, 5, 99], true⟩ = .ok (-10) ∧
      s'.run ⟨[5, -3], true⟩ = s.run ⟨[-3, 11, 5], true⟩ := by
  have hs : (add (.mul (.var "x") (.var "y")) (.var "x")).slotted ⟨["y", "z", "x"], by decide⟩ =
      .ok (.binary "+" .plus (.binary "*" .times (.slot 2) (.slot 0)) (.slot 2)) := rfl
  have hs' : (add (.mul (.var "x") (.var "y")) (.var "x")).slotted ⟨["x", "y"], by decide⟩ =
      .ok (.binary "+" .plus (.binary "*" .times (.slot 0) (.slot 1)) (.slot 0)) := rfl
  obtain ⟨within, runs, evaluates, agrees⟩ := (slotted_correct _ _).2 _ hs
  obtain ⟨v, hev, hrun⟩ := evaluates ⟨[("x", 5), ("y", -3), ("z", 11)]⟩ [-3, 11, 5] rfl
  cases hev
  exact ⟨_, _, hs, hs', within, runs ⟨[7, 8, 9, 10], false⟩ (by decide), hrun [99] true,
    agrees _ _ hs' ⟨[("x", 5), ("y", -3), ("z", 11)]⟩ _ _ rfl rfl⟩

end Expr

end Abacus
