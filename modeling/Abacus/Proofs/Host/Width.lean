import Abacus.Proofs.Expr.Defect
import Abacus.Proofs.Expr.NormalForm
import Abacus.Proofs.Host.Printed

/-!
# What C makes of a text

C computes a text in two widths. A constant is narrow where it can be, what is read from the array
is wide, and an operation has the wider width of its operands and is undefined where its result does
not fit in it. So a part of a tree is computed in the narrow width just where it has neither a
variable nor a great literal, and there its value must fit in that width even though everything
around it is wide. Simplified trees have no operations of this kind.
-/

namespace Abacus

open Answer

namespace Host

/-- The widths in which C computes: `int` has 32 bits and `long long` has 64. -/
inductive Width where
  | int
  | longLong
deriving DecidableEq, Repr

namespace Width

def greatest : Width → Int
  | .int => 0x7fffffff
  | .longLong => 0x7fffffffffffffff

/-- There is one number more below zero than above. -/
def Fits (w : Width) (v : Int) : Prop := -w.greatest - 1 ≤ v ∧ v ≤ w.greatest

instance (w : Width) (v : Int) : Decidable (w.Fits v) := inferInstanceAs (Decidable (_ ∧ _))

/-- The wider one of two. -/
def join : Width → Width → Width
  | .int, w => w
  | .longLong, _ => .longLong

theorem greatest_nonneg (w : Width) : 0 ≤ w.greatest := by
  cases w <;> decide

theorem int_le_longLong : int.greatest ≤ longLong.greatest := by
  decide

theorem fits_of_bounds {w : Width} {v : Int} (h : -w.greatest ≤ v ∧ v ≤ w.greatest) : w.Fits v :=
  ⟨by omega, h.2⟩

theorem join_eq_int_iff {w w' : Width} : w.join w' = .int ↔ w = .int ∧ w' = .int := by
  cases w <;> cases w' <;> decide

end Width

/-- A number with the width in which it was computed. -/
structure Computed where
  width : Width
  value : Int

/-- The number in the given width; a number that does not fit is undefined. -/
def Width.fit (w : Width) (v : Int) : Option Computed :=
  if w.Fits v then some ⟨w, v⟩ else none

theorem Width.fit_eq_some {w : Width} {v : Int} {c : Computed} :
    w.fit v = some c ↔ w.Fits v ∧ c = ⟨w, v⟩ := by
  rw [fit, Option.ite_none_right_eq_some, Option.some.injEq, eq_comm (a := c)]

/-- A constant without a sign; it is narrow where it can be. -/
def constant (n : Nat) : Option Computed :=
  if n ≤ Width.int.greatest then some ⟨.int, n⟩ else Width.longLong.fit n

/-- The width of a literal, whatever its sign. -/
def literalWidth (v : Int) : Width :=
  if -Width.int.greatest ≤ v ∧ v ≤ Width.int.greatest then .int else .longLong

namespace Derivation

/-- What C computes from the text, with the given contents of the array. A negative number is the
negation of a constant. -/
def inC (arr : List Int) : Derivation → Option Computed
  | .number ds => constant ds.value
  | .negative ds => do
    let c ← constant ds.value
    c.width.fit (-c.value)
  | .element ds => do
    let v ← arr[ds.value]?
    Width.longLong.fit v
  | .operation o l r => do
    let a ← l.inC arr
    let b ← r.inC arr
    (a.width.join b.width).fit (o.apply a.value b.value)

end Derivation

theorem constant_eq_some {n : Nat} {c : Computed} :
    constant n = some c ↔ n ≤ Width.longLong.greatest ∧ c = ⟨literalWidth n, n⟩ := by
  have hint := Width.int.greatest_nonneg
  have hlong := Width.longLong.greatest_nonneg
  have hle := Width.int_le_longLong
  unfold constant literalWidth
  by_cases hn : (n : Int) ≤ Width.int.greatest
  · rw [if_pos hn, if_pos ⟨by omega, hn⟩, Option.some.injEq, eq_comm]
    exact (and_iff_right (by omega)).symm
  · rw [if_neg hn, if_neg fun h => hn h.2, Width.fit_eq_some]
    exact and_congr_left fun _ => ⟨And.right, fun h => ⟨by omega, h⟩⟩

theorem fits_literalWidth {v : Int}
    (h : -Width.longLong.greatest ≤ v ∧ v ≤ Width.longLong.greatest) : (literalWidth v).Fits v := by
  unfold literalWidth
  split
  · rename_i hnarrow
    exact Width.fits_of_bounds hnarrow
  · exact Width.fits_of_bounds h

theorem literalWidth_neg (v : Int) : literalWidth (-v) = literalWidth v := by
  unfold literalWidth
  congr 1
  rw [eq_iff_iff]
  omega

namespace Derivation

/-- A literal is spelled in one of two ways, of which neither can overflow. -/
theorem inC_literal {d : Derivation} {v : Int} (hd : d.toSlotted = .literal v) (arr : List Int)
    {c : Computed} : d.inC arr = some c ↔
      (-Width.longLong.greatest ≤ v ∧ v ≤ Width.longLong.greatest) ∧ c = ⟨literalWidth v, v⟩ := by
  have hlong := Width.longLong.greatest_nonneg
  cases d with
  | number ds =>
    cases hd
    rw [inC, constant_eq_some]
    exact and_congr_left fun _ => ⟨fun h => ⟨by omega, h⟩, And.right⟩
  | negative ds =>
    cases hd
    rw [inC, Option.bind_eq_bind, Option.bind_eq_some_iff]
    constructor
    · rintro ⟨a, ha, hc⟩
      obtain ⟨hle, rfl⟩ := constant_eq_some.1 ha
      obtain ⟨-, rfl⟩ := Width.fit_eq_some.1 hc
      exact ⟨⟨by omega, by omega⟩, by rw [literalWidth_neg]⟩
    · rintro ⟨hbounds, rfl⟩
      have hconstant : constant ds.value = some ⟨literalWidth ds.value, ds.value⟩ :=
        constant_eq_some.2 ⟨by omega, rfl⟩
      have hfits := fits_literalWidth hbounds
      rw [literalWidth_neg] at hfits ⊢
      exact ⟨_, hconstant, Width.fit_eq_some.2 ⟨hfits, rfl⟩⟩
  | element ds => cases hd
  | operation o l r => cases hd

theorem inC_slot {d : Derivation} {i : Nat} (hd : d.toSlotted = .slot i) (arr : List Int)
    {c : Computed} : d.inC arr = some c ↔
      ∃ v, arr[i]? = some v ∧ Width.longLong.Fits v ∧ c = ⟨.longLong, v⟩ := by
  cases d with
  | element ds =>
    rw [toSlotted, Slotted.slot.injEq, Int.ofNat_inj] at hd
    rw [inC, hd, Option.bind_eq_bind, Option.bind_eq_some_iff]
    simp only [Width.fit_eq_some]
  | number ds => cases hd
  | negative ds => cases hd
  | operation o l r => cases hd

theorem inC_operation {d : Derivation} {o : Operator} {l r : Slotted}
    (hd : d.toSlotted = .binary o.symbol o l r) (arr : List Int) : ∃ dl dr : Derivation,
      dl.toSlotted = l ∧ dr.toSlotted = r ∧ ∀ c, d.inC arr = some c ↔
        ∃ a b, dl.inC arr = some a ∧ dr.inC arr = some b ∧
          (a.width.join b.width).Fits (o.apply a.value b.value) ∧
          c = ⟨a.width.join b.width, o.apply a.value b.value⟩ := by
  cases d with
  | operation o' dl dr =>
    rw [toSlotted, Slotted.binary.injEq] at hd
    obtain ⟨-, rfl, rfl, rfl⟩ := hd
    refine ⟨dl, dr, rfl, rfl, fun c => ?_⟩
    simp only [inC, Option.bind_eq_bind, Option.bind_eq_some_iff, Width.fit_eq_some,
      exists_and_left]
  | number ds => cases hd
  | negative ds => cases hd
  | element ds => cases hd

end Derivation

end Host

namespace Expr

open Host

/-- The width in which C computes the tree. -/
def width : Expr → Width
  | .literal v => literalWidth v
  | .var _ => .longLong
  | .binary _ l r => l.width.join r.width
  | .foreign _ => .longLong

/-- Without variables, and with literals only that C gives the narrow width. -/
def Narrow (e : Expr) : Prop :=
  e.vars = [] ∧ ∀ v ∈ e.literals, -Width.int.greatest ≤ v ∧ v ≤ Width.int.greatest

theorem width_eq_int_iff {e : Expr} (he : e.Recognised) : e.width = .int ↔ e.Narrow := by
  induction e with
  | literal v =>
    rw [width, literalWidth, Narrow, vars, literals, List.forall_mem_singleton]
    split
    · rename_i h
      exact iff_of_true rfl ⟨rfl, h⟩
    · rename_i h
      exact iff_of_false (by decide) fun hn => h hn.2
  | var x =>
    rw [width, Narrow, vars]
    exact iff_of_false (by decide) fun hn => List.cons_ne_nil _ _ hn.1
  | binary op l r ihl ihr =>
    rw [width, Width.join_eq_int_iff, ihl he.1, ihr he.2, Narrow, Narrow, Narrow, vars, literals,
      List.append_eq_nil_iff, List.forall_mem_append]
    exact and_and_and_comm
  | foreign it => exact he.elim

/-- What C computed of a tree is the tree's value, and fits in the tree's width. -/
theorem eval_of_inC {t : Layout} {env : Env} {values : List Int} (hv : t.values env = .ok values)
    {e : Expr} {s : Slotted} {d : Derivation} {c : Computed} (hs : e.slotted t = .ok s)
    (hd : d.toSlotted = s) (hc : d.inC values = some c) :
    e.eval env = .ok c.value ∧ c.width = e.width ∧ c.width.Fits c.value := by
  induction e generalizing s d c with
  | literal v =>
    cases hs
    obtain ⟨hbounds, rfl⟩ := (Derivation.inC_literal hd values).1 hc
    exact ⟨rfl, rfl, fits_literalWidth hbounds⟩
  | var x =>
    obtain ⟨i, hi, hs⟩ := bind_eq_ok.1 hs
    cases hs
    obtain ⟨v, hiv, hfits, rfl⟩ := (Derivation.inC_slot hd values).1 hc
    obtain ⟨w, hiw, hxw⟩ := Layout.getElem?_values hv hi
    cases hiv.symm.trans hiw
    exact ⟨hxw, rfl, hfits⟩
  | binary op l r ihl ihr =>
    obtain ⟨o, rfl, l', r', hl, hr, rfl⟩ := slotted_binary_eq_ok.1 hs
    obtain ⟨dl, dr, hdl, hdr, hcomputed⟩ := Derivation.inC_operation hd values
    obtain ⟨a, b, ha, hb, hfits, rfl⟩ := (hcomputed c).1 hc
    obtain ⟨hla, hwa, -⟩ := ihl hl hdl ha
    obtain ⟨hrb, hwb, -⟩ := ihr hr hdr hb
    refine ⟨eval_binary_eq_ok.2 ⟨o, rfl, _, _, hla, hrb, rfl⟩, ?_, hfits⟩
    rw [width, hwa, hwb]
  | foreign it => cases hs

/-- Every part that is computed in the narrow width has a value that fits in it. -/
def NarrowFits (env : Env) (e : Expr) : Prop :=
  ∀ n ∈ e.nodes, n.Narrow → ∀ v, n.eval env = .ok v → Width.int.Fits v

/-- Where C computes a tree it has computed all parts of the tree. -/
theorem narrowFits_of_inC {t : Layout} {env : Env} {values : List Int}
    (hv : t.values env = .ok values) {e : Expr} {d : Derivation} {c : Computed}
    (hs : e.slotted t = .ok d.toSlotted) (hc : d.inC values = some c) : e.NarrowFits env := by
  intro n hn hnarrow v hnv
  have part : ∃ (d : Derivation) (c : Computed),
      n.slotted t = .ok d.toSlotted ∧ d.inC values = some c := by
    refine forall_mem_nodes (p := fun n => ∃ (d : Derivation) (c : Computed),
      n.slotted t = .ok d.toSlotted ∧ d.inC values = some c) ?_ ⟨d, c, hs, hc⟩ n hn
    rintro op l r ⟨d, c, hs, hc⟩
    obtain ⟨o, rfl, l', r', hl, hr, hd⟩ := slotted_binary_eq_ok.1 hs
    obtain ⟨dl, dr, rfl, rfl, hcomputed⟩ := Derivation.inC_operation hd values
    obtain ⟨a, b, ha, hb, -⟩ := (hcomputed c).1 hc
    exact ⟨⟨dl, a, hl, ha⟩, dr, b, hr, hb⟩
  obtain ⟨d', c', hs', hc'⟩ := part
  obtain ⟨hvalue, hwidth, hfits⟩ := eval_of_inC hv hs' rfl hc'
  have hint : n.width = .int := (width_eq_int_iff (wellFormed_of_slotted hs').recognised).2 hnarrow
  rw [hnv, Except.ok.injEq] at hvalue
  rw [hwidth, hint, ← hvalue] at hfits
  exact hfits

/-- A value fits in the width of its tree. -/
theorem fits_width {env : Env} {e : Expr} {v : Int} (he : e.Recognised) (hev : e.eval env = .ok v)
    (hbounds : -Width.longLong.greatest ≤ v ∧ v ≤ Width.longLong.greatest)
    (hnarrow : e.Narrow → ∀ v, e.eval env = .ok v → Width.int.Fits v) : e.width.Fits v := by
  cases hw : e.width with
  | int => exact hnarrow ((width_eq_int_iff he).1 hw) v hev
  | longLong => exact Width.fits_of_bounds hbounds

theorem exists_inC {t : Layout} {env : Env} {values : List Int} (hv : t.values env = .ok values)
    {e : Expr} {s : Slotted} {d : Derivation} (hs : e.slotted t = .ok s) (hd : d.toSlotted = s)
    (hbounds : ∀ n ∈ e.nodes, ∀ v, n.eval env = .ok v →
      -Width.longLong.greatest ≤ v ∧ v ≤ Width.longLong.greatest)
    (hnarrow : e.NarrowFits env) : ∃ c, d.inC values = some c := by
  induction e generalizing s d with
  | literal v =>
    cases hs
    exact ⟨_, (Derivation.inC_literal hd values).2
      ⟨hbounds _ (List.mem_singleton.2 rfl) v rfl, rfl⟩⟩
  | var x =>
    obtain ⟨i, hi, hs⟩ := bind_eq_ok.1 hs
    cases hs
    obtain ⟨w, hiw, hxw⟩ := Layout.getElem?_values hv hi
    have hw := hbounds _ (List.mem_singleton.2 rfl) w hxw
    exact ⟨_, (Derivation.inC_slot hd values).2 ⟨w, hiw, Width.fits_of_bounds hw, rfl⟩⟩
  | binary op l r ihl ihr =>
    obtain ⟨o, rfl, l', r', hl, hr, rfl⟩ := slotted_binary_eq_ok.1 hs
    obtain ⟨dl, dr, hdl, hdr, hcomputed⟩ := Derivation.inC_operation hd values
    obtain ⟨hroot, hbl, hbr⟩ := forall_mem_nodes_binary.1 hbounds
    obtain ⟨hnroot, hnl, hnr⟩ := forall_mem_nodes_binary.1 hnarrow
    obtain ⟨a, ha⟩ := ihl hl hdl hbl hnl
    obtain ⟨b, hb⟩ := ihr hr hdr hbr hnr
    obtain ⟨hla, hwa, -⟩ := eval_of_inC hv hl hdl ha
    obtain ⟨hrb, hwb, -⟩ := eval_of_inC hv hr hdr hb
    have hev : (binary o.symbol l r).eval env = .ok (o.apply a.value b.value) :=
      eval_binary_eq_ok.2 ⟨o, rfl, _, _, hla, hrb, rfl⟩
    have hfits : (l.width.join r.width).Fits (o.apply a.value b.value) :=
      fits_width (wellFormed_of_slotted hs).recognised hev (hroot _ hev) hnroot
    rw [← hwa, ← hwb] at hfits
    exact ⟨_, (hcomputed _).2 ⟨a, b, ha, hb, hfits, rfl⟩⟩
  | foreign it => cases hs

/-- A simplified tree is narrow in its literals only. -/
theorem narrowFits_of_simplify {e s : Expr} (h : e.simplify = .ok s) (env : Env) :
    s.NarrowFits env := by
  intro n hn hnarrow v hnv
  have hn : n.WellFormed ∧ Irreducible n := by
    refine forall_mem_nodes (p := fun n => n.WellFormed ∧ Irreducible n) ?_
      ⟨wellFormed_simplified h, irreducible_simplify h⟩ n hn
    rintro op l r ⟨hf, hi⟩
    exact ⟨⟨hf.2.1, fun f hf => hi _ (.left hf)⟩, hf.2.2, fun f hf => hi _ (.right hf)⟩
  obtain ⟨w, rfl⟩ := eq_literal_of_irreducible hn.1 hn.2 hnarrow.1
  cases hnv
  exact Width.fits_of_bounds (hnarrow.2 v (List.mem_singleton.2 rfl))

/-- A tree has one value only. -/
theorem forall_value {env : Env} {n : Expr} {w : Int} {p : Int → Prop} (h : n.eval env = .ok w)
    (hw : p w) : ∀ v, n.eval env = .ok v → p v := by
  intro v hv
  rw [h, Except.ok.injEq] at hv
  exact hv ▸ hw

/-- Where all values of a tree are between the bounds of the wide width, C computes the value of the
tree from its text, unless a part that is computed in the narrow width does not fit in it; then the
text is undefined. Simplified trees have no such parts. -/
theorem c_text_computes (e : Expr) (t : Layout) (env : Env) (text : String) (values : List Int)
    (ht : e.hostText t (.named "c") = .ok text) (hv : t.values env = .ok values)
    (hbounds : ∀ n ∈ e.nodes, ∀ v, n.eval env = .ok v →
      -Width.longLong.greatest ≤ v ∧ v ≤ Width.longLong.greatest) :
    ∃ (d : Derivation) (v : Int), d.text = text ∧ (∀ d' : Derivation, d'.text = text → d' = d) ∧
      e.eval env = .ok v ∧ (∀ c, d.inC values = some c → c.value = v) ∧
      ((∃ c, d.inC values = some c) ↔ e.NarrowFits env) ∧
      ∀ e₀ : Expr, e₀.simplify = .ok e → ∃ c, d.inC values = some c := by
  obtain ⟨s, hs, htext⟩ := bind_eq_ok.1 ht
  obtain ⟨d, hd, rfl⟩ := (within_slotted hs).exists_derivation (h := Host.c) rfl htext
  obtain ⟨v, hev⟩ := exists_eval_of_values hs hv
  have computes : e.NarrowFits env → ∃ c, d.inC values = some c :=
    exists_inC hv hs rfl hbounds
  refine ⟨d, v, hd, fun d' hd' => Derivation.text_injective (hd'.trans hd.symm), hev, ?_, ?_, ?_⟩
  · intro c hc
    have hvalue := (eval_of_inC hv hs rfl hc).1
    rw [hev, Except.ok.injEq] at hvalue
    exact hvalue.symm
  · exact ⟨fun ⟨_, hc⟩ => narrowFits_of_inC hv hs hc, computes⟩
  · exact fun e₀ h => computes (narrowFits_of_simplify h env)

/-- In `x * 100000 - 2147483648` the array makes the product wide, so that it may leave the narrow
width. -/
theorem c_text_computes_wide :
    (add (.mul (.var "x") (.literal 100000)) (.literal (-2147483648))).hostText
      ⟨["y", "x"], by decide⟩ (.named "c") = .ok "((arr[1]*100000)+(-2147483648))" ∧
    ∃ (d : Derivation) (c : Computed), d.text = "((arr[1]*100000)+(-2147483648))" ∧
      d.inC [1, 50000] = some c ∧ c.value = 2852516352 := by
  have ht : (add (.mul (.var "x") (.literal 100000)) (.literal (-2147483648))).hostText
      ⟨["y", "x"], by decide⟩ (.named "c") = .ok "((arr[1]*100000)+(-2147483648))" := rfl
  have hproduct : ∀ n ∈ (mul (.var "x") (.literal 100000)).nodes, ∀ v,
      n.eval ⟨[("x", 50000), ("y", 1)]⟩ = .ok v →
        -Width.longLong.greatest ≤ v ∧ v ≤ Width.longLong.greatest :=
    forall_mem_nodes_binary.2 ⟨forall_value rfl (by decide),
      List.forall_mem_singleton.2 (forall_value rfl (by decide)),
      List.forall_mem_singleton.2 (forall_value rfl (by decide))⟩
  obtain ⟨d, v, hd, -, hev, value, -, simplified⟩ := c_text_computes
    (add (.mul (.var "x") (.literal 100000)) (.literal (-2147483648))) ⟨["y", "x"], by decide⟩
    ⟨[("x", 50000), ("y", 1)]⟩ _ [1, 50000] ht rfl (forall_mem_nodes_binary.2
      ⟨forall_value rfl (by decide), hproduct,
        List.forall_mem_singleton.2 (forall_value rfl (by decide))⟩)
  obtain ⟨c, hc⟩ := simplified
    (add (.mul (.var "x") (.literal 100000)) (.literal (-2147483648))) rfl
  cases hev
  exact ⟨ht, d, c, hd, hc, value c hc⟩

/-- Both factors of `65536 * 65536` are narrow, so that the product is undefined in C, although it
fits in the wide width. -/
theorem c_text_overflows :
    (mul (.literal 65536) (.literal 65536)).WellFormed ∧
    (mul (.literal 65536) (.literal 65536)).hostText .empty (.named "c") = .ok "(65536*65536)" ∧
    Layout.empty.values ⟨[]⟩ = .ok [] ∧
    (∀ n ∈ (mul (.literal 65536) (.literal 65536)).nodes, ∀ v, n.eval ⟨[]⟩ = .ok v →
      -Width.longLong.greatest ≤ v ∧ v ≤ Width.longLong.greatest) ∧
    (∀ x v, Env.get? ⟨[]⟩ x = some v →
      -Width.longLong.greatest ≤ v ∧ v ≤ Width.longLong.greatest) ∧
    (mul (.literal 65536) (.literal 65536)).eval ⟨[]⟩ = .ok 4294967296 ∧
    (∃ d : Derivation, d.text = "(65536*65536)") ∧
    ∀ d : Derivation, d.text = "(65536*65536)" → d.inC [] = none := by
  have hbounds : ∀ n ∈ (mul (.literal 65536) (.literal 65536)).nodes, ∀ v, n.eval ⟨[]⟩ = .ok v →
      -Width.longLong.greatest ≤ v ∧ v ≤ Width.longLong.greatest := by
    have hfactor : ∀ v, (literal 65536).eval ⟨[]⟩ = .ok v →
        -Width.longLong.greatest ≤ v ∧ v ≤ Width.longLong.greatest :=
      forall_value rfl (by decide)
    exact forall_mem_nodes_binary.2 ⟨forall_value rfl (by decide),
      List.forall_mem_singleton.2 hfactor, List.forall_mem_singleton.2 hfactor⟩
  have htext : (Derivation.operation .times (.number (.ofNat 65536))
      (.number (.ofNat 65536))).text = "(65536*65536)" := rfl
  refine ⟨by decide, rfl, rfl, hbounds, fun x v hx => (nomatch hx), rfl, ⟨_, htext⟩, fun d hd => ?_⟩
  rw [Derivation.text_injective (hd.trans htext.symm)]
  rfl

end Expr

end Abacus
