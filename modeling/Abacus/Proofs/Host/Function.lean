import Abacus.Proofs.Host.Template
import Abacus.Proofs.Trace.Remarks

/-!
# Functions of a host language

The template of a host language is put together from pieces, which are texts and fields for the
name, the array and the body of a function. Where the body can be written, the function consists of
the same pieces with the texts as they were meant and with these three as they are. A field for
anything else is at fault.
-/

namespace Abacus

open Answer

namespace Host

open Template (Becomes PlainField leadingNumber widestPosition)

/-- What a template has fields for. -/
inductive Part where
  | name
  | array
  | body

/-- What the field of a part is called. -/
def Part.key : Part → String
  | .name => "name"
  | .array => "array"
  | .body => "body"

/-- What the part is in a function of that name and with that body. -/
def Part.text (h : Host) (name body : String) : Part → String
  | .name => name
  | .array => h.array
  | .body => body

/-- A template is put together from texts that are meant as they stand and from fields. -/
inductive Piece where
  | chunk (text : String)
  | part (p : Part)

def Piece.source : Piece → String
  | .chunk text => Template.doubled text
  | .part p => Template.field p.key

def Piece.filled (h : Host) (name body : String) : Piece → String
  | .chunk text => text
  | .part p => p.text h name body

/-- The template that is put together from the pieces. -/
def templateOf (pieces : List Piece) : String := String.join (pieces.map Piece.source)

/-- The pieces with the parts of a function in place of their fields. -/
def functionOf (h : Host) (name body : String) (pieces : List Piece) : String :=
  String.join (pieces.map (Piece.filled h name body))

/-- The values of the fields. -/
def fields (h : Host) (name body : String) : List (String × String) :=
  [("name", name), ("array", h.array), ("body", body)]

theorem Part.plain (p : Part) : PlainField p.key ∧ leadingNumber p.key ≤ widestPosition := by
  cases p <;> decide

theorem Part.lookup (h : Host) (name body : String) (p : Part) :
    (h.fields name body).lookup p.key = some (p.text h name body) := by
  cases p <;> rfl

theorem lookup_fields {x : String} (hx : ∀ p : Part, x ≠ p.key) (h : Host) (name body : String) :
    (h.fields name body).lookup x = none := by
  rw [List.lookup_eq_none_iff]
  intro entry hentry
  rw [bne_iff_ne]
  simp only [fields, List.mem_cons, List.not_mem_nil, or_false] at hentry
  rcases hentry with rfl | rfl | rfl
  · exact hx .name
  · exact hx .array
  · exact hx .body

theorem becomes_piece (h : Host) (name body : String) (piece : Piece) :
    Becomes (h.fields name body) piece.source (piece.filled h name body) := by
  cases piece with
  | chunk text => exact Template.becomes_doubled text
  | part p =>
    obtain ⟨plain, narrow⟩ := p.plain
    have hv := Template.value_of_lookup plain narrow (p.lookup h name body)
    exact Template.becomes_field plain hv

theorem becomes_template (h : Host) (name body : String) (pieces : List Piece) :
    Becomes (h.fields name body) (templateOf pieces) (h.functionOf name body pieces) :=
  Template.becomes_join (h.becomes_piece name body) pieces

theorem function_of_pieces {h : Host} {pieces : List Piece} (ht : h.template = templateOf pieces)
    (name body : String) : h.function name body = .ok (h.functionOf name body pieces) := by
  rw [function, ht]
  exact (h.becomes_template name body pieces).fill_eq

/-- A field without a value ends the filling, whatever stands behind it. -/
theorem function_of_stray {h : Host} {before : List Piece} {x rest : String}
    (ht : h.template = templateOf before ++ Template.field x ++ rest) (plain : PlainField x)
    {name body : String} {fault : TemplateFault}
    (hx : Template.value (h.fields name body) x.toList = .error fault) :
    h.function name body = .error (.template fault) := by
  rw [function, ht]
  exact Template.fill_field_error (h.becomes_template name body before) plain hx rest

end Host

namespace Expr

open Host (Part Piece templateOf functionOf)
open Template (PlainField leadingNumber widestPosition)

/-- A template is filled as its pieces say: texts have their single braces again, and the name, the
array and the text of the tree are put in unchanged. The first field of another name is at fault;
where its leading digits spell a number too large for a position, that is the fault. A tree without
a text fails before the template is looked at. All of this holds with any writer. -/
theorem hostFunction_fills_template (e : Expr) (t : Layout) (h : Host) (name : String) :
    (∀ pieces body, h.template = templateOf pieces → e.hostText t (.described h) = .ok body →
      e.hostFunction t (.described h) name = .ok (functionOf h name body pieces)) ∧
    (∀ before x rest body, h.template = templateOf before ++ Template.field x ++ rest →
      PlainField x → (∀ p : Part, x ≠ p.key) → e.hostText t (.described h) = .ok body →
      (leadingNumber x ≤ widestPosition →
        e.hostFunction t (.described h) name = .error (.template (.unknownField x))) ∧
      (widestPosition < leadingNumber x →
        e.hostFunction t (.described h) name = .error (.template .positionTooWide))) ∧
    (∀ fault, e.hostText t (.described h) = .error fault →
      e.hostFunction t (.described h) name = .error fault) ∧
    ∀ w : Writer, (e.hostFunctionTraced t (.described h) name w).answer =
      e.hostFunction t (.described h) name := by
  have described : e.hostFunction t (.described h) name =
    e.hostText t (.described h) >>= h.function name := rfl
  refine ⟨?_, ?_, ?_, (onlyRemarks_hostFunctionTraced t (.described h) name e).answer_eq⟩
  · intro pieces body ht hbody
    rw [described, hbody, ok_bind, Host.function_of_pieces ht]
  · intro before x rest body ht plain hx hbody
    rw [described, hbody, ok_bind]
    refine ⟨fun narrow => Host.function_of_stray ht plain ?_,
      fun wide => Host.function_of_stray ht plain ?_⟩
    · exact Template.value_of_unknown plain narrow (Host.lookup_fields hx h name body)
    · exact Template.value_of_wide plain wide
  · intro fault hfault
    rw [described, hfault, error_bind]

/-- The fields of `{{{body}}}{name}:{array}` have braces on all sides, and so does what is put in
for them. In `{name}{9223372036854775807x}{y}}` the first field without a value is at fault, and in
`{9223372036854775808x}` its number is. The variable `z` has no slot. -/
theorem hostFunction_fills_template_braces :
    "\x7b\x7b\x7bbody\x7d\x7d\x7d\x7bname\x7d:\x7barray\x7d" = templateOf
      [.chunk "\x7b", .part .body, .chunk "\x7d", .part .name, .chunk ":", .part .array] ∧
    (mul (.var "x") (.literal (-2))).hostFunction ⟨["x"], by decide⟩
      (.described ⟨"js", "\x7b0\x7d",
        "\x7b\x7b\x7bbody\x7d\x7d\x7d\x7bname\x7d:\x7barray\x7d", none⟩) "\x7bbody\x7d" =
        .ok "\x7b(\x7b0\x7d[0]*(-2))\x7d\x7bbody\x7d:\x7b0\x7d" ∧
    (literal 1).hostFunction .empty
      (.described ⟨"js", "env", "\x7bname\x7d\x7b9223372036854775807x\x7d\x7by\x7d\x7d", none⟩)
      "f" = .error (.template (.unknownField "9223372036854775807x")) ∧
    (literal 1).hostFunction .empty (.described ⟨"js", "env", "\x7b9223372036854775808x\x7d", none⟩)
      "f" = .error (.template .positionTooWide) ∧
    (var "z").hostFunction .empty (.described ⟨"js", "env", "\x7d", none⟩) "f" =
      .error (.unboundVariable "z") := by
  have ht : "\x7b\x7b\x7bbody\x7d\x7d\x7d\x7bname\x7d:\x7barray\x7d" = templateOf
      [.chunk "\x7b", .part .body, .chunk "\x7d", .part .name, .chunk ":", .part .array] := rfl
  have hx : PlainField "9223372036854775807x" ∧ ∀ p : Part, "9223372036854775807x" ≠ p.key :=
    ⟨by decide, fun p => by cases p <;> decide⟩
  have hwide : PlainField "9223372036854775808x" ∧ ∀ p : Part, "9223372036854775808x" ≠ p.key :=
    ⟨by decide, fun p => by cases p <;> decide⟩
  obtain ⟨filled, -⟩ := hostFunction_fills_template (mul (.var "x") (.literal (-2)))
    ⟨["x"], by decide⟩ ⟨"js", "\x7b0\x7d",
      "\x7b\x7b\x7bbody\x7d\x7d\x7d\x7bname\x7d:\x7barray\x7d", none⟩ "\x7bbody\x7d"
  obtain ⟨-, stray, -⟩ := hostFunction_fills_template (literal 1) .empty
    ⟨"js", "env", "\x7bname\x7d\x7b9223372036854775807x\x7d\x7by\x7d\x7d", none⟩ "f"
  obtain ⟨-, wide, -⟩ := hostFunction_fills_template (literal 1) .empty
    ⟨"js", "env", "\x7b9223372036854775808x\x7d", none⟩ "f"
  obtain ⟨-, -, unwritten, -⟩ := hostFunction_fills_template (var "z") .empty
    ⟨"js", "env", "\x7d", none⟩ "f"
  refine ⟨ht, ?_, ?_, ?_, unwritten _ rfl⟩
  · exact filled _ "(\x7b0\x7d[0]*(-2))" ht rfl
  · exact (stray [.part .name] _ "\x7by\x7d\x7d" "1" rfl hx.1 hx.2 rfl).1 (by decide)
  · exact (wide [] _ "" "1" rfl hwide.1 hwide.2 rfl).2 (by decide)

/-- The name `9223372036854775808x` has a character that is no digit and stands for no part, but a
field of that name is not reported as an unknown one. -/
theorem hostFunction_takes_name_for_position :
    (Host.mk "js" "env" "\x7b9223372036854775808x\x7d" none).template =
      templateOf [] ++ Template.field "9223372036854775808x" ++ "" ∧
    PlainField "9223372036854775808x" ∧ (∀ p : Part, "9223372036854775808x" ≠ p.key) ∧
    (literal 1).hostText .empty
      (.described ⟨"js", "env", "\x7b9223372036854775808x\x7d", none⟩) = .ok "1" ∧
    (literal 1).hostFunction .empty
      (.described ⟨"js", "env", "\x7b9223372036854775808x\x7d", none⟩) "f" =
        .error (.template .positionTooWide) ∧
    (literal 1).hostFunction .empty
      (.described ⟨"js", "env", "\x7b9223372036854775808x\x7d", none⟩) "f" ≠
        .error (.template (.unknownField "9223372036854775808x")) := by
  have hfault : (literal 1).hostFunction .empty
      (.described ⟨"js", "env", "\x7b9223372036854775808x\x7d", none⟩) "f" =
        .error (.template .positionTooWide) := rfl
  refine ⟨rfl, by decide, fun p => by cases p <;> decide, rfl, hfault, fun h => ?_⟩
  cases hfault.symm.trans h

end Expr

end Abacus
