import Abacus.Expr.Record
import Abacus.Proofs.Expr.Shape
import Abacus.Proofs.Json.RoundTrip

/-!
# Records of trees

A well-formed tree has a record, and the record is read as the tree, unless a variable has an empty
name. Records are made of whole numbers, texts and mappings, so that they can be written as JSON and
read back.
-/

namespace Abacus

open Answer

theorem Operator.ofRecordType?_recordType (o : Operator) :
    ofRecordType? o.recordType = some o := by
  cases o <;> rfl

namespace Expr

theorem writableOperator_eq_ok {op : String} {o : Operator} :
    writableOperator op = .ok o ↔ op = o.symbol := by
  rw [← Operator.ofSymbol?_eq_some_iff]
  unfold writableOperator
  cases Operator.ofSymbol? op <;> simp

/-- The record of a binary node. -/
def binaryRecord (o : Operator) (left right : Datum) : Datum :=
  .mapping [(.text "type", .text o.recordType), (.text "left", left), (.text "right", right)]

theorem toRecord_binary_eq_ok {op : String} {l r : Expr} {d : Datum} :
    (binary op l r).toRecord = .ok d ↔ ∃ o : Operator, op = o.symbol ∧
      ∃ left right, l.toRecord = .ok left ∧ r.toRecord = .ok right ∧
        d = binaryRecord o left right := by
  simp only [toRecord, bind_eq_ok, writableOperator_eq_ok, pure_eq_ok, Except.ok.injEq,
    exists_and_left, binaryRecord, eq_comm (a := d)]

theorem exists_toRecord {e : Expr} (he : e.WellFormed) : ∃ d, e.toRecord = .ok d := by
  induction e, he using wellFormed_induction with
  | literal v => exact ⟨_, rfl⟩
  | var x => exact ⟨_, rfl⟩
  | binary o l r hl hr ihl ihr =>
    obtain ⟨left, hleft⟩ := ihl
    obtain ⟨right, hright⟩ := ihr
    exact ⟨_, toRecord_binary_eq_ok.2 ⟨o, rfl, left, right, hleft, hright, rfl⟩⟩

/-- A record is plain within every limit that allows the literals of its tree. -/
theorem plain_of_toRecord {limit : Option Nat} {e : Expr} (hv : ∀ v ∈ e.literals, Json.Fits limit v)
    {d : Datum} (h : e.toRecord = .ok d) : d.Plain limit := by
  induction e generalizing d with
  | literal v =>
    cases h
    have hkeys : ["type", "value"].Nodup := by decide
    have hfits : Json.Fits limit v := hv v (List.mem_singleton_self v)
    exact @Datum.Plain.mapping limit [("type", .text "Literal"), ("value", .int v)] hkeys
      (List.forall_mem_cons.2 ⟨.text _, List.forall_mem_singleton.2 (.int hfits)⟩)
  | var x =>
    cases h
    have hkeys : ["type", "name"].Nodup := by decide
    exact @Datum.Plain.mapping limit [("type", .text "Variable"), ("name", .text x)] hkeys
      (List.forall_mem_cons.2 ⟨.text _, List.forall_mem_singleton.2 (.text x)⟩)
  | binary op l r ihl ihr =>
    obtain ⟨o, -, left, right, hleft, hright, rfl⟩ := toRecord_binary_eq_ok.1 h
    obtain ⟨hvl, hvr⟩ := List.forall_mem_append.1 hv
    have hkeys : ["type", "left", "right"].Nodup := by decide
    exact @Datum.Plain.mapping limit [("type", .text o.recordType), ("left", left), ("right", right)]
      hkeys (List.forall_mem_cons.2 ⟨.text _, List.forall_mem_cons.2 ⟨ihl hvl hleft,
        List.forall_mem_singleton.2 (ihr hvr hright)⟩⟩)
  | foreign it => cases h

/-! ## Reading a record -/

theorem ofRecord_literal (v : Int) :
    ofRecord (.mapping [(.text "type", .text "Literal"), (.text "value", .int v)]) =
      .ok (.literal v) := rfl

theorem ofRecord_var {x : String} (hx : x ≠ "") :
    ofRecord (.mapping [(.text "type", .text "Variable"), (.text "name", .text x)]) =
      .ok (.var x) := by
  have hname : ofName (.text x) = .ok (.var x) := by
    rw [ofName, if_neg (by simpa using hx)]
  exact hname

theorem checkOperand_of_wellFormed {e : Expr} (he : e.WellFormed) (op : String) :
    checkOperand op e = .ok () := by
  cases e with
  | foreign it => exact he.elim
  | literal v | var x | binary op l r => rfl

theorem ofOperands_of_wellFormed (o : Operator) {l r : Expr} (hl : l.WellFormed)
    (hr : r.WellFormed) : ofOperands o.symbol l r = .ok (.binary o.symbol l r) := by
  rw [ofOperands, Operator.ofSymbol?_symbol]
  simp only [checkOperand_of_wellFormed hl, checkOperand_of_wellFormed hr, ok_bind, pure_eq_ok]

theorem ofRecord_binaryRecord (o : Operator) {left right : Datum} {l r : Expr}
    (hl : ofRecord left = .ok l) (hr : ofRecord right = .ok r) :
    ofRecord (binaryRecord o left right) = ofOperands o.symbol l r := by
  have hliteral : o.recordType ≠ "Literal" := by cases o <;> decide
  have hvariable : o.recordType ≠ "Variable" := by cases o <;> decide
  have htype : recordType [(.text "type", .text o.recordType), (.text "left", left),
      (.text "right", right)] = .ok o.recordType := rfl
  rw [binaryRecord, ofRecord, htype, ok_bind, if_neg hliteral, if_neg hvariable,
    Operator.ofRecordType?_recordType]
  simp [ofOperand, hl, hr]

theorem ofRecord_of_toRecord {e : Expr} (he : e.WellFormed) (hn : ∀ x ∈ e.vars, x ≠ "")
    {d : Datum} (h : e.toRecord = .ok d) : ofRecord d = .ok e := by
  induction e generalizing d with
  | literal v =>
    cases h
    exact ofRecord_literal v
  | var x =>
    cases h
    exact ofRecord_var (hn x (List.mem_singleton_self x))
  | binary op l r ihl ihr =>
    obtain ⟨o, rfl, left, right, hleft, hright, rfl⟩ := toRecord_binary_eq_ok.1 h
    obtain ⟨hl, hr⟩ := wellFormed_symbol_iff.1 he
    obtain ⟨hnl, hnr⟩ := List.forall_mem_append.1 hn
    rw [ofRecord_binaryRecord o (ihl hl hnl hleft) (ihr hr hnr hright)]
    exact ofOperands_of_wellFormed o hl hr
  | foreign it => cases h

/-- Data within the limit are read as the record that they are. -/
theorem ofJson_text {limit : Option Nat} {d : Datum} (h : d.Plain limit) :
    ofJson limit (Json.text d) = ofRecord d := by
  rw [ofJson, Json.read_text h]

/-- A tree is read back from the JSON text of its record, which is printable. A limit on the digits
of whole numbers does no harm as long as it allows the literals of the tree. -/
theorem ofJson_toJson (e : Expr) (he : e.WellFormed) (hn : ∀ x ∈ e.vars, x ≠ "") :
    ∃ text, e.toJson = .ok text ∧ ofJson none text = .ok e ∧
      (∀ limit, (∀ v ∈ e.literals, Json.Fits limit v) → ofJson limit text = .ok e) ∧
      ∀ c ∈ text.toList, Json.Printable c := by
  obtain ⟨d, hd⟩ := exists_toRecord he
  have hread : ∀ limit, (∀ v ∈ e.literals, Json.Fits limit v) →
      ofJson limit (Json.text d) = .ok e := fun limit hv => by
    rw [ofJson_text (plain_of_toRecord hv hd)]
    exact ofRecord_of_toRecord he hn hd
  have hnone : ∀ v ∈ e.literals, Json.Fits none v := fun v _ => Json.fits_none v
  refine ⟨Json.text d, ?_, hread none hnone, hread, ?_⟩
  · rw [toJson, hd, ok_bind, pure_eq_ok]
  · exact Json.printable_text (plain_of_toRecord hnone hd)

/-- A name may hold a quote, a backslash, a newline, a character without a glyph and one that takes
two units. -/
theorem ofJson_toJson_escaped :
    ∃ e, e = add (.var "\"\\\n\x7f𝒳") (.literal (-12345678901234567890)) ∧
      e.WellFormed ∧ (∀ x ∈ e.vars, x ≠ "") ∧
      (∀ v ∈ e.literals, Json.Fits Json.defaultLimit v) ∧
      ∃ text, e.toJson = .ok text ∧ ofJson none text = .ok e ∧
        ofJson Json.defaultLimit text = .ok e ∧ ∀ c ∈ text.toList, Json.Printable c := by
  refine ⟨_, rfl, ?_⟩
  have he : (add (.var "\"\\\n\x7f𝒳") (.literal (-12345678901234567890))).WellFormed := by decide
  have hn : ∀ x ∈ (add (.var "\"\\\n\x7f𝒳") (.literal (-12345678901234567890))).vars, x ≠ "" := by
    decide
  have hv : ∀ v ∈ (add (.var "\"\\\n\x7f𝒳") (.literal (-12345678901234567890))).literals,
      Json.Fits Json.defaultLimit v := by
    rintro v hv most ⟨⟩
    rw [List.mem_singleton.1 hv]
    decide
  obtain ⟨text, hwrite, hnone, hlimit, hprint⟩ := ofJson_toJson _ he hn
  exact ⟨he, hn, hv, text, hwrite, hnone, hlimit _ hv, hprint⟩

end Expr

end Abacus
