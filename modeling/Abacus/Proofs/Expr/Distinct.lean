import Abacus.Proofs.Expr.Value
import Abacus.Proofs.Infix.Spelling

/-!
# Different trees are printed differently

Printed text can be taken apart in one way only, whether or not it could be read: an opening
parenthesis begins an operation, anything else a leaf, and a leaf ends at the next operator or
closing parenthesis. All that is asked of a name is that it has none of these marks in it and does
not look like a number.
-/

namespace Abacus.Expr

/-- The characters that printing puts around the leaves. -/
def marks : List Char := ['(', ')', '+', '*']

/-- A name that is no part of the printed structure and no literal. -/
structure PlainName (x : String) : Prop where
  unmarked : ∀ c ∈ x.toList, c ∉ marks
  notNumber : ¬Infix.IsNumber x.toList

/-- A tree of the language with such names only. -/
structure PlainlyNamed (e : Expr) : Prop where
  wellFormed : e.WellFormed
  names : ∀ x ∈ e.vars, PlainName x

/-! ## Leaves -/

/-- The tree is a leaf with that text. -/
inductive LeafText : Expr → String → Prop where
  | literal (v : Int) : LeafText (.literal v) (toString v)
  | var {x : String} (hx : PlainName x) : LeafText (.var x) x

theorem isNumber_toString (v : Int) : Infix.IsNumber (toString v).toList :=
  Infix.Token.valid_ofInt v

theorem toString_injective {v w : Int} (h : toString v = toString w) : v = w := by
  have htoken : Infix.Token.ofInt v = Infix.Token.ofInt w := by
    rw [Infix.Token.ofInt, h, Infix.Token.ofInt]
  rw [← Infix.Token.toInt_ofInt v, htoken, Infix.Token.toInt_ofInt]

theorem not_mem_marks_of_isDigit {d : Char} (hd : d.isDigit) : d ∉ marks := by
  intro hmark
  simp only [marks, List.mem_cons, List.not_mem_nil, or_false] at hmark
  rcases hmark with rfl | rfl | rfl | rfl <;> exact absurd hd (by decide)

theorem unmarked_of_isNumber {cs : List Char} (h : Infix.IsNumber cs) : ∀ c ∈ cs, c ∉ marks := by
  obtain ⟨ds, -, hds, rfl | rfl⟩ := h
  · exact fun d hd => not_mem_marks_of_isDigit (hds d hd)
  · exact List.forall_mem_cons.2 ⟨by decide, fun d hd => not_mem_marks_of_isDigit (hds d hd)⟩

namespace LeafText

variable {e e' : Expr} {text : String}

theorem unmarked (h : LeafText e text) : ∀ c ∈ text.toList, c ∉ marks := by
  cases h with
  | literal v => exact unmarked_of_isNumber (isNumber_toString v)
  | var hx => exact hx.unmarked

/-- A leaf is told by its text, for no name is a number. -/
theorem eq_of_text (h : LeafText e text) (h' : LeafText e' text) : e = e' := by
  generalize htext : text = text' at h'
  cases h with
  | literal v =>
    cases h' with
    | literal w => rw [toString_injective htext]
    | var hx => exact absurd (htext ▸ isNumber_toString v) hx.notNumber
  | var hx =>
    cases h' with
    | literal w => exact absurd (htext ▸ isNumber_toString w) hx.notNumber
    | var hy => rw [htext]

end LeafText

/-! ## Taking printed text apart -/

/-- What follows an operand in printed text, if anything does. -/
def EndsOperand (rest : List Char) : Prop := ∀ c ∈ rest.head?, c ∈ [')', '+', '*']

theorem endsOperand_nil : EndsOperand [] := fun _ hc => (nomatch hc)

theorem endsOperand_closing (rest : List Char) : EndsOperand (')' :: rest) := by
  intro c hc
  cases hc
  decide

theorem endsOperand_symbol (o : Operator) (rest : List Char) :
    EndsOperand (o.symbol.toList ++ rest) := by
  intro c hc
  cases o <;> cases hc <;> decide

/-- Characters without marks end where a mark follows. -/
theorem eq_of_unmarked_append {cs ds xs ys : List Char} (hcs : ∀ c ∈ cs, c ∉ marks)
    (hds : ∀ c ∈ ds, c ∉ marks) (hx : EndsOperand xs) (hy : EndsOperand ys)
    (h : cs ++ xs = ds ++ ys) : cs = ds ∧ xs = ys := by
  have hends : ∀ {rest : List Char}, EndsOperand rest → ∀ c ∈ rest.head?, ¬decide (c ∉ marks) := by
    intro rest hrest c hc
    have hmark : c ∈ marks := List.mem_cons_of_mem '(' (hrest c hc)
    simpa using hmark
  exact Text.eq_of_span_append (fun c hc => decide_eq_true (hcs c hc))
    (fun c hc => decide_eq_true (hds c hc)) (hends hx) (hends hy) h

/-- A leaf does not begin like an operation, not even if its name is empty. -/
theorem unmarked_append_ne {cs xs : List Char} (hcs : ∀ c ∈ cs, c ∉ marks) (hx : EndsOperand xs)
    (ys : List Char) : cs ++ xs ≠ '(' :: ys := by
  intro h
  cases cs with
  | nil =>
    have hmem : '(' ∈ [')', '+', '*'] := hx '(' (by rw [← List.nil_append xs, h]; rfl)
    exact absurd hmem (by decide)
  | cons c cs =>
    obtain ⟨rfl, -⟩ := List.cons.inj h
    exact hcs '(' List.mem_cons_self (by decide)

/-- The tree has these characters as its printed text. -/
inductive Printed : Expr → List Char → Prop where
  | leaf {e : Expr} {text : String} (h : LeafText e text) : Printed e text.toList
  | operation {l r : Expr} {ts us : List Char} (o : Operator) (hl : Printed l ts)
    (hr : Printed r us) :
    Printed (.binary o.symbol l r) ('(' :: (ts ++ (o.symbol.toList ++ (us ++ [')']))))

theorem printed_of_print {e : Expr} {text : String} (he : e.PlainlyNamed)
    (h : e.print = .ok text) : Printed e text.toList := by
  obtain ⟨hwf, hnames⟩ := he
  induction e, hwf using wellFormed_induction generalizing text with
  | literal v =>
    cases h
    exact .leaf (.literal v)
  | var x =>
    cases h
    exact .leaf (.var (hnames x (List.mem_singleton_self x)))
  | binary o l r hl hr ihl ihr =>
    obtain ⟨hnamesl, hnamesr⟩ := List.forall_mem_append.1 hnames
    obtain ⟨o', ho, left, right, hleft, hright, rfl⟩ := print_binary_eq_ok.1 h
    have hoperation := Printed.operation o (ihl hleft hnamesl) (ihr hright hnamesr)
    rw [ho] at hoperation ⊢
    simp only [String.toList_append, List.append_assoc]
    exact hoperation

/-- A text that goes on behind an operand tells where the operand ends and which tree it is. -/
theorem Printed.eq_of_append {e e' : Expr} {ts ts' xs ys : List Char} (h : Printed e ts)
    (h' : Printed e' ts') (hx : EndsOperand xs) (hy : EndsOperand ys)
    (happend : ts ++ xs = ts' ++ ys) : e = e' ∧ xs = ys := by
  induction h generalizing e' ts' xs ys with
  | leaf h =>
    cases h' with
    | leaf h' =>
      obtain ⟨htext, hrest⟩ := eq_of_unmarked_append h.unmarked h'.unmarked hx hy happend
      rw [← String.toList_injective htext] at h'
      exact ⟨h.eq_of_text h', hrest⟩
    | operation o' hl' hr' => exact absurd happend (unmarked_append_ne h.unmarked hx _)
  | operation o hl hr ihl ihr =>
    cases h' with
    | leaf h' => exact absurd happend.symm (unmarked_append_ne h'.unmarked hy _)
    | operation o' hl' hr' =>
      simp only [List.cons_append, List.append_assoc, List.cons.injEq, true_and,
        List.nil_append] at happend
      obtain ⟨rfl, hrest⟩ :=
        ihl hl' (endsOperand_symbol o _) (endsOperand_symbol o' _) happend
      obtain ⟨rfl, htail⟩ := Operator.symbol_append_inj hrest
      obtain ⟨rfl, hend⟩ := ihr hr' (endsOperand_closing xs) (endsOperand_closing ys) htail
      exact ⟨rfl, (List.cons.inj hend).2⟩

/-- Two trees have the same printed text only if they are the same tree. -/
theorem print_tells_apart {e e' : Expr} (he : e.PlainlyNamed) (he' : e'.PlainlyNamed) :
    (∃ text, e.print = .ok text ∧ e'.print = .ok text) ↔ e = e' := by
  constructor
  · rintro ⟨text, h, h'⟩
    exact ((printed_of_print he h).eq_of_append (printed_of_print he' h') endsOperand_nil
      endsOperand_nil rfl).1
  · rintro rfl
    obtain ⟨text, h⟩ := exists_print he.wellFormed
    exact ⟨text, h, h⟩

/-- Names may begin like a number, and a negative number may stand behind an operator. -/
theorem print_tells_apart_numerals :
    PlainlyNamed (.add (.var "3.x") (.literal (-2))) ∧
      PlainlyNamed (.add (.var "3.x") (.var "-2.0")) ∧
      ¬∃ text, (add (.var "3.x") (.literal (-2))).print = .ok text ∧
        (add (.var "3.x") (.var "-2.0")).print = .ok text := by
  have hpoint : ∀ cs : List Char, '.' ∈ cs → ¬Infix.IsNumber cs := by
    rintro cs hmem ⟨ds, -, hds, rfl | rfl⟩
    · exact absurd (hds '.' hmem) (by decide)
    · exact absurd (hds '.' ((List.mem_cons.1 hmem).resolve_left (by decide))) (by decide)
  have hclear : ∀ cs : List Char, cs.all (fun c => decide (c ∉ marks)) = true →
      ∀ c ∈ cs, c ∉ marks :=
    fun cs h c hc => of_decide_eq_true (List.all_eq_true.1 h c hc)
  have hx : PlainName "3.x" := ⟨hclear _ (by decide), hpoint _ (by decide)⟩
  have hy : PlainName "-2.0" := ⟨hclear _ (by decide), hpoint _ (by decide)⟩
  have he : PlainlyNamed (.add (.var "3.x") (.literal (-2))) :=
    ⟨by decide, List.forall_mem_singleton.2 hx⟩
  have he' : PlainlyNamed (.add (.var "3.x") (.var "-2.0")) :=
    ⟨by decide, List.forall_mem_cons.2 ⟨hx, List.forall_mem_singleton.2 hy⟩⟩
  refine ⟨he, he', fun hsame => ?_⟩
  have heq := (print_tells_apart he he').1 hsame
  exact absurd (binary.inj heq).2.2 Expr.noConfusion

end Abacus.Expr
