import Abacus.Proofs.Compile
import Abacus.Proofs.Host.Grammar
import Abacus.Proofs.Scope

/-!
# What the text of an expression means

The text of a slotted expression has one derivation, and the derivation is the expression itself. So
the text has the value that the expression has when it is run, and no other expression has the same
text. In Python every expression has a text; in C its literals must be in bounds.
-/

namespace Abacus

open Answer
open Host (Digits Derivation)

theorem Row.get_eq_ok {row : Row} {i : Nat} {v : Int} :
    row.get i = .ok v ↔ row.values[i]? = some v := by
  have hget : row.get? i = row.values[i]? := by
    rw [get?, if_pos (Int.natCast_nonneg i), Int.toNat_natCast]
  rw [get, hget]
  cases row.values[i]? with
  | some w => simp
  | none =>
    constructor
    · intro h
      dsimp only at h
      split at h <;> cases h
    · intro h
      cases h

namespace Host.Derivation

/-- The slotted expression that a derivation spells. -/
def toSlotted : Derivation → Slotted
  | .number ds => .literal ds.value
  | .negative ds => .literal (-ds.value)
  | .element ds => .slot ds.value
  | .operation o l r => .binary o.symbol o l.toSlotted r.toSlotted

/-- Computing with the text and running the expression are the same. -/
theorem value_eq_some_iff {d : Derivation} {row : Row} {v : Int} :
    d.value row.values = some v ↔ d.toSlotted.run row = .ok v := by
  induction d generalizing v with
  | number ds => simp [value, toSlotted, Slotted.run]
  | negative ds => simp [value, toSlotted, Slotted.run]
  | element ds => exact Row.get_eq_ok.symm
  | operation o l r ihl ihr =>
    rw [toSlotted, Slotted.run_binary_eq_ok, value]
    simp [Option.bind_eq_some_iff, ihl, ihr]

/-! ## The derivation of an expression's text -/

theorem exists_literalText (v : Int) :
    ∃ d : Derivation, d.text = literalText v ∧ d.toSlotted = .literal v := by
  rcases Text.toList_toString_cases v with ⟨n, rfl, hn⟩ | ⟨n, hpos, rfl, hn⟩
  · refine ⟨.number (.ofNat n), ?_, by rw [toSlotted, Digits.value_ofNat]⟩
    rw [literalText, if_neg (by omega), ← String.ofList_toList (s := toString (n : Int)), hn]
    rfl
  · refine ⟨.negative (.ofNat n), ?_, by rw [toSlotted, Digits.value_ofNat]⟩
    rw [literalText, if_pos (by omega), ← String.toList_inj, String.toList_append,
      String.toList_append, hn, text, String.toList_ofList]
    rfl

theorem exists_read {h : Host} (ha : h.array = "arr") (i : Nat) :
    ∃ d : Derivation, d.text = h.read i ∧ d.toSlotted = .slot i := by
  refine ⟨.element (.ofNat i), ?_, by rw [toSlotted, Digits.value_ofNat]⟩
  have hdigits : (toString (i : Int)).toList = Nat.toDigits 10 i := Nat.toList_repr
  rw [read, ha, ← String.toList_inj, String.toList_append, String.toList_append,
    String.toList_append, hdigits, text, String.toList_ofList]
  rfl

theorem text_operation (o : Operator) (l r : Derivation) :
    (operation o l r).text = "(" ++ l.text ++ o.symbol ++ r.text ++ ")" := by
  rw [← String.toList_inj]
  simp only [text, String.toList_append, String.toList_ofList, chars, List.append_assoc]
  rfl

end Host.Derivation

namespace Slotted

theorem textIn_binary_eq_ok {h : Host} {op : String} {o : Operator} {l r : Slotted}
    {text : String} : (binary op o l r).textIn h = .ok text ↔
      ∃ left right, l.textIn h = .ok left ∧ r.textIn h = .ok right ∧
        "(" ++ left ++ op ++ right ++ ")" = text := by
  simp only [textIn, bind_eq_ok, pure_eq_ok, Except.ok.injEq, exists_and_left]

theorem literalText_of_literal {h : Host} {v : Int} {text : String} (ht : h.literal v = .ok text) :
    Host.literalText v = text := by
  unfold Host.literal at ht
  split at ht
  · exact Except.ok.inj ht
  · cases ht

theorem Within.exists_derivation {size : Nat} {s : Slotted} (hs : s.Within size) {h : Host}
    (ha : h.array = "arr") {text : String} (ht : s.textIn h = .ok text) :
    ∃ d : Derivation, d.text = text ∧ d.toSlotted = s := by
  induction hs generalizing text with
  | literal v =>
    rw [← literalText_of_literal ht]
    exact Derivation.exists_literalText v
  | @slot i hi =>
    cases ht
    exact Derivation.exists_read ha i
  | @binary o l r hl hr ihl ihr =>
    obtain ⟨left, right, hleft, hright, rfl⟩ := textIn_binary_eq_ok.1 ht
    obtain ⟨d, rfl, hd⟩ := ihl hleft
    obtain ⟨d', rfl, hd'⟩ := ihr hright
    refine ⟨.operation o d d', Derivation.text_operation o d d', ?_⟩
    rw [Derivation.toSlotted, hd, hd']

/-- Where literals have no bounds, everything has a text. -/
theorem Within.exists_textIn {size : Nat} {s : Slotted} (hs : s.Within size) {h : Host}
    (hb : h.bounds = none) : ∃ text, s.textIn h = .ok text := by
  induction hs with
  | literal v =>
    refine ⟨Host.literalText v, ?_⟩
    have hadmits : h.admits v = true := by rw [Host.admits, hb]
    rw [textIn, Host.literal, if_pos hadmits]
  | slot hi => exact ⟨_, rfl⟩
  | binary hl hr ihl ihr =>
    obtain ⟨left, hleft⟩ := ihl
    obtain ⟨right, hright⟩ := ihr
    exact ⟨_, textIn_binary_eq_ok.2 ⟨left, right, hleft, hright, rfl⟩⟩

end Slotted

/-! ## Built-in languages -/

theorem Host.array_of_builtIn {h : Host} (hb : h ∈ Host.builtIn) : h.array = "arr" := by
  rw [builtIn, List.mem_cons, List.mem_singleton] at hb
  rcases hb with rfl | rfl <;> rfl

/-- The text was made in a built-in language from a tree that the layout slotted. -/
structure Generated (t : Layout) (s : Slotted) (text : String) : Prop where
  slotted : ∃ e : Expr, e.slotted t = .ok s
  written : ∃ target h, Target.host target = .ok h ∧ h ∈ Host.builtIn ∧
    s.hostText target = .ok text

theorem Generated.exists_derivation {t : Layout} {s : Slotted} {text : String}
    (hg : Generated t s text) : ∃ d : Derivation, d.text = text ∧ d.toSlotted = s := by
  obtain ⟨⟨e, hs⟩, target, h, htarget, hb, ht⟩ := hg
  rw [Slotted.hostText, htarget, ok_bind] at ht
  exact (Expr.within_slotted hs).exists_derivation (Host.array_of_builtIn hb) ht

/-- The default target has a text for every compiled expression. -/
theorem Compiled.Coherent.exists_generated {c : Compiled} (hc : c.Coherent) :
    ∃ text, c.hostText .byDefault = .ok text ∧ Generated c.layout c.slotted text := by
  have hpython : Target.byDefault.host = .ok Host.python := by rfl
  obtain ⟨text, ht⟩ := (Expr.within_slotted hc.slotted_eq).exists_textIn (h := Host.python) rfl
  have hwritten : c.slotted.hostText .byDefault = .ok text := by
    rw [Slotted.hostText, hpython, ok_bind, ht]
  refine ⟨text, ?_, ⟨_, hc.slotted_eq⟩, .byDefault, Host.python, hpython, ?_, hwritten⟩
  · rw [Compiled.hostText, Expr.hostText, hc.slotted_eq, ok_bind, hwritten]
  · exact List.mem_cons_of_mem _ List.mem_cons_self

theorem Generated.exists_run {t : Layout} {s : Slotted} {text : String}
    (hg : Generated t s text) (row : Row) (hrow : t.size ≤ row.values.length) :
    ∃ v, s.run row = .ok v := by
  obtain ⟨⟨e, hs⟩, -⟩ := hg
  exact (Expr.within_slotted hs).exists_run hrow

/-- Generated text stands for the expression that it was made from and for nothing else, and what it
computes is what the expression gives when it is run. -/
theorem generated_text_faithful :
    (∀ (t : Layout) (s : Slotted) (text : String), Generated t s text →
      ∃ d : Derivation, d.text = text ∧ (∀ d' : Derivation, d'.text = text → d' = d) ∧
        d.toSlotted = s ∧
        ∀ arr : List Int, t.size ≤ arr.length →
          ∃ v, d.value arr = some v ∧ s.run ⟨arr, true⟩ = .ok v) ∧
    (∀ (t t' : Layout) (s s' : Slotted) (text : String), Generated t s text →
      Generated t' s' text → s = s') ∧
    ∀ (e : Expr) (names : List String), e.WellFormed → e.freeVariables = .ok names →
      ∀ (simplified : Bool) (env : Env), env.Binds names →
        ∃ c text values v, e.compile simplified = .ok c ∧ c.hostText .byDefault = .ok text ∧
          Generated c.layout c.slotted text ∧ c.layout.values env = .ok values ∧
          (∃ d : Derivation, d.text = text ∧ d.value values = some v) ∧ c.run env = .ok v := by
  refine ⟨?_, ?_, ?_⟩
  · intro t s text hg
    obtain ⟨d, hd, rfl⟩ := hg.exists_derivation
    refine ⟨d, hd, fun d' hd' => Derivation.text_injective (hd'.trans hd.symm), rfl, ?_⟩
    intro arr harr
    obtain ⟨v, hv⟩ := hg.exists_run ⟨arr, true⟩ harr
    exact ⟨v, Derivation.value_eq_some_iff.2 hv, hv⟩
  · intro t t' s s' text hg hg'
    obtain ⟨d, hd, rfl⟩ := hg.exists_derivation
    obtain ⟨d', hd', rfl⟩ := hg'.exists_derivation
    rw [Derivation.text_injective (hd.trans hd'.symm)]
  · intro e names he hn simplified env hbinds
    obtain ⟨v, hev⟩ :=
      Expr.eval_of_binds he ((Expr.binds_freeVariables_iff he.recognised hn).1 hbinds)
    obtain ⟨c, hcompile, hc, keeps⟩ := Expr.exists_compile he simplified
    have hrun : c.run env = .ok v := keeps env v hev
    obtain ⟨text, ht, hg⟩ := hc.exists_generated
    obtain ⟨d, hd, hds⟩ := hg.exists_derivation
    obtain ⟨values, hvalues, hslots⟩ := bind_eq_ok.1 hrun
    rw [← hds] at hslots
    exact ⟨c, text, values, v, hcompile, ht, hg, hvalues,
      ⟨d, hd, Derivation.value_eq_some_iff.2 hslots⟩, hrun⟩

/-- `-12 * x + y`, with the slots of `y`, `z` and `x` in this order, and as it is compiled. -/
theorem generated_text_faithful_negative :
    Generated ⟨["y", "z", "x"], by decide⟩
      (.binary "+" .plus (.binary "*" .times (.literal (-12)) (.slot 2)) (.slot 0))
      "(((-12)*arr[2])+arr[0])" ∧
    (∃ d : Derivation, d.text = "(((-12)*arr[2])+arr[0])" ∧
      (∀ d' : Derivation, d'.text = "(((-12)*arr[2])+arr[0])" → d' = d) ∧
      d.value [5, 0, 10, 7] = some (-115)) ∧
    ∃ c, (Expr.add (.mul (.literal (-12)) (.var "x")) (.var "y")).compile true = .ok c ∧
      c.hostText .byDefault = .ok "(((-12)*arr[0])+arr[1])" ∧
      (∃ d : Derivation, d.text = "(((-12)*arr[0])+arr[1])" ∧ d.value [10, 5] = some (-115)) ∧
      c.run ⟨[("y", 5), ("x", 10)]⟩ = .ok (-115) := by
  have he : (Expr.add (.mul (.literal (-12)) (.var "x")) (.var "y")).WellFormed := by decide
  have hg : Generated ⟨["y", "z", "x"], by decide⟩
      (.binary "+" .plus (.binary "*" .times (.literal (-12)) (.slot 2)) (.slot 0))
      "(((-12)*arr[2])+arr[0])" :=
    ⟨⟨.add (.mul (.literal (-12)) (.var "x")) (.var "y"), rfl⟩, .named "c", Host.c, rfl,
      List.mem_cons_self, rfl⟩
  obtain ⟨derived, -, compiled⟩ := generated_text_faithful
  refine ⟨hg, ?_, ?_⟩
  · obtain ⟨d, hd, unique, -, computes⟩ := derived _ _ _ hg
    obtain ⟨v, hv, hrun⟩ := computes [5, 0, 10, 7] (by decide)
    cases hrun
    exact ⟨d, hd, unique, hv⟩
  · have hn := Expr.freeVariables_eq he.recognised
    have hvars : Env.Binds ⟨[("y", 5), ("x", 10)]⟩ ["x", "y"] :=
      List.forall_mem_cons.2 ⟨⟨10, rfl⟩, List.forall_mem_singleton.2 ⟨5, rfl⟩⟩
    obtain ⟨c, text, values, v, hcompile, ht, -, hvalues, hd, hrun⟩ :=
      compiled _ _ he hn true _ ((Expr.binds_freeVariables_iff he.recognised hn).2 hvars)
    cases hcompile
    cases ht
    cases hvalues
    cases hrun
    exact ⟨_, rfl, rfl, hd, rfl⟩

end Abacus
