import Abacus.Compile
import Abacus.Proofs.Expr.Rules
import Abacus.Proofs.Expr.Value
import Abacus.Proofs.Trace.Traced
import Mathlib.Data.List.Forall2

/-!
# Remarks

Work on a tree tells a debugging writer what it does, line by line, and does nothing else to the
writer: its answer is the one that it would have without any writer, and it leaves the level as it
was. Computations of this kind have one form, an answer with a list of remarks, and they keep that
form when they are done one after another and when they go a level deeper.
-/

namespace Abacus

open Answer

/-- A line for debugging writers, some levels deeper than the work that it belongs to. -/
structure Remark where
  depth : Nat
  message : String

namespace Remark

def deeper (r : Remark) : Remark := ⟨r.depth + 1, r.message⟩

/-- What a debugging writer puts down for a remark. -/
def line (w : Writer) (r : Remark) : Write :=
  ⟨w.stream, (w.atLevel (w.level + r.depth)).margin ++ r.message ++ "\n"⟩

/-- The text of that line where a margin has this width and the work stands at this level. -/
def text (size level : Nat) (r : Remark) : String :=
  Writer.repeated ' ' (size * (level + r.depth)) ++ r.message ++ "\n"

theorem line_eq (size level : Nat) (stream : Stream) (r : Remark) :
    r.line ⟨size, level, true, stream⟩ = ⟨stream, r.text size level⟩ := by
  have hlevel : ((level : Int) + r.depth).toNat = level + r.depth := by omega
  show (⟨stream, Writer.repeated ' ' ((size : Int).toNat * ((level : Int) + r.depth).toNat) ++
    r.message ++ "\n"⟩ : Write) = _
  rw [hlevel, Int.toNat_natCast]
  rfl

theorem text_ne_empty (size level : Nat) (r : Remark) : r.text size level ≠ "" := by
  rw [text, ne_eq, String.append_eq_empty_iff]
  exact fun h => absurd h.2 (by decide)

theorem join_text_eq_empty_iff {size level : Nat} {remarks : List Remark} :
    String.join (remarks.map (text size level)) = "" ↔ remarks = [] := by
  cases remarks with
  | nil => exact iff_of_true String.join_nil rfl
  | cons r remarks =>
    rw [List.map_cons, String.join_cons, String.append_eq_empty_iff]
    exact iff_of_false (fun h => r.text_ne_empty size level h.1) (List.cons_ne_nil _ _)

theorem line_deeper (w : Writer) (r : Remark) :
    r.deeper.line w = r.line (w.atLevel (w.level + 1)) := by
  have hlevel : w.level + ((r.depth + 1 : Nat) : Int) = w.level + 1 + r.depth := by omega
  rw [line, line, deeper, hlevel]
  rfl

end Remark

namespace Traced

variable {α β : Type}

/-- The computation that has this answer with every writer, that makes these remarks to a debugging
one, and that leaves the level alone. -/
def remarking (x : Except Fault α) (remarks : List Remark) : Traced α := fun w =>
  ⟨x, w.level, if w.debugging then remarks.map (Remark.line w) else []⟩

/-- A debugging writer's stream receives the texts of the remarks, and no other stream anything. -/
theorem written_remarking (x : Except Fault α) (remarks : List Remark) (size level : Nat)
    (stream : Stream) :
    (remarking x remarks ⟨size, level, true, stream⟩).written =
      (remarks.map (Remark.text size level)).map (Write.mk stream) := by
  rw [List.map_map]
  exact List.map_congr_left fun r _ => r.line_eq size level stream

theorem on_remarking (x : Except Fault α) (remarks : List Remark) (size level : Nat)
    (stream : Stream) :
    (remarking x remarks ⟨size, level, true, stream⟩).written.on stream =
      String.join (remarks.map (Remark.text size level)) := by
  rw [written_remarking, Transcript.on_mk]

/-- Where it is known what each remark shows, it is known what the stream receives. -/
theorem exists_lines {γ : Type} {shows : γ → Remark → Prop} {shown : γ → String → Prop}
    {things : List γ} {remarks : List Remark} {size level : Nat}
    (h : List.Forall₂ shows things remarks)
    (hline : ∀ thing remark, shows thing remark → shown thing (remark.text size level))
    (x : Except Fault α) (stream : Stream) :
    ∃ lines, List.Forall₂ shown things lines ∧
      (remarking x remarks ⟨size, level, true, stream⟩).written.on stream = String.join lines := by
  refine ⟨remarks.map (Remark.text size level), ?_, on_remarking x remarks size level stream⟩
  rw [List.forall₂_map_right_iff]
  exact h.imp hline

theorem pure_eq_remarking (a : α) : (pure a : Traced α) = remarking (.ok a) [] := by
  funext w
  rw [remarking, List.map_nil, ite_self]
  rfl

theorem lift_eq_remarking (x : Except Fault α) :
    (MonadLift.monadLift x : Traced α) = remarking x [] := by
  funext w
  rw [remarking, List.map_nil, ite_self]
  rfl

theorem debugLine_eq_remarking (message : String) :
    debugLine message = remarking (.ok ()) [⟨0, message⟩] := by
  funext w
  have hline : Remark.line w ⟨0, message⟩ = ⟨w.stream, w.margin ++ message ++ "\n"⟩ := by
    show (⟨w.stream, (w.atLevel (w.level + 0)).margin ++ message ++ "\n"⟩ : Write) = _
    rw [Int.add_zero]
    rfl
  rw [debugLine, whenDebugging, remarking, List.map_singleton, hline]
  cases w.debugging <;> rfl

theorem remarking_error_bind (fault : Fault) (remarks : List Remark) (f : α → Traced β) :
    remarking (.error fault) remarks >>= f = remarking (.error fault) remarks := rfl

theorem remarking_ok_bind {a : α} {y : Except Fault β} {f : α → Traced β}
    {remarks further : List Remark} (h : f a = remarking y further) :
    remarking (.ok a) remarks >>= f = remarking y (remarks ++ further) := by
  funext w
  -- the second computation finds the writer as it was
  show (⟨(f a w).answer, (f a w).level, (remarking (.ok a) remarks w).written ++ (f a w).written⟩ :
    Outcome β) = _
  rw [h, remarking, remarking, remarking, List.map_append]
  cases w.debugging <;> rfl

theorem remarking_ok_bind_pure (a : α) (remarks : List Remark) (f : α → β) :
    (remarking (.ok a) remarks >>= fun a => pure (f a)) = remarking (.ok (f a)) remarks := by
  have h : (remarking (.ok a) remarks >>= fun a => pure (f a)) =
      remarking (.ok (f a)) (remarks ++ []) := remarking_ok_bind (pure_eq_remarking (f a))
  rwa [List.append_nil] at h

theorem debugLine_bind_pure (message : String) (a : α) :
    (debugLine message >>= fun _ => pure a) = remarking (.ok a) [⟨0, message⟩] := by
  rw [debugLine_eq_remarking]
  exact remarking_ok_bind_pure () [⟨0, message⟩] fun _ => a

theorem lift_ok_bind {a : α} {y : Except Fault β} {f : α → Traced β} {remarks : List Remark}
    (h : f a = remarking y remarks) :
    (MonadLift.monadLift (Except.ok a : Except Fault α) : Traced α) >>= f = remarking y remarks := by
  rw [lift_eq_remarking]
  exact remarking_ok_bind h

theorem lift_error_bind (fault : Fault) (f : α → Traced β) :
    (MonadLift.monadLift (Except.error fault : Except Fault α) : Traced α) >>= f =
      remarking (.error fault) [] := by
  rw [lift_eq_remarking]
  exact remarking_error_bind fault [] f

/-- No writer but a debugging one is told a remark anyway. -/
theorem whenDebugging_remarking (remarks : List Remark) :
    whenDebugging (remarking (.ok ()) remarks) = remarking (.ok ()) remarks := by
  funext w
  rw [whenDebugging, remarking]
  cases w.debugging <;> rfl

theorem around_remarking (x : Except Fault α) (remarks : List Remark) :
    Block.indented.around (remarking x remarks) = remarking x (remarks.map Remark.deeper) := by
  funext w
  have hlines : (remarks.map Remark.deeper).map (Remark.line w) =
      remarks.map (Remark.line (w.atLevel (w.level + 1))) := by
    rw [List.map_map]
    exact List.map_congr_left fun r _ => r.line_deeper w
  rw [remarking, hlines]
  obtain ⟨size, level, debugging, stream⟩ := w
  cases debugging with
  | false => rfl
  | true =>
    show (⟨x, level + 1 + -1, [] ++ (remarks.map (Remark.line ⟨size, level + 1, true, stream⟩) ++
      [])⟩ : Outcome α) = _
    rw [List.nil_append, List.append_nil, Int.add_assoc]
    exact congrArg (Outcome.mk x · _) (Int.add_zero level)

/-! ## Computations that only remark -/

/-- The computation has this answer whatever writer it is given, and does nothing but remark. -/
def OnlyRemarks (m : Traced α) (x : Except Fault α) : Prop := ∃ remarks, m = remarking x remarks

theorem onlyRemarks_pure (a : α) : OnlyRemarks (pure a) (.ok a) := ⟨[], pure_eq_remarking a⟩

theorem onlyRemarks_lift (x : Except Fault α) : OnlyRemarks (MonadLift.monadLift x) x :=
  ⟨[], lift_eq_remarking x⟩

theorem onlyRemarks_debugLine (message : String) : OnlyRemarks (debugLine message) (.ok ()) :=
  ⟨[⟨0, message⟩], debugLine_eq_remarking message⟩

theorem OnlyRemarks.bind {m : Traced α} {f : α → Traced β} {x : Except Fault α}
    {g : α → Except Fault β} (hm : OnlyRemarks m x)
    (hf : ∀ a, x = .ok a → OnlyRemarks (f a) (g a)) : OnlyRemarks (m >>= f) (x >>= g) := by
  obtain ⟨remarks, rfl⟩ := hm
  cases x with
  | error fault => exact ⟨remarks, rfl⟩
  | ok a =>
    obtain ⟨further, hfurther⟩ := hf a rfl
    exact ⟨remarks ++ further, remarking_ok_bind hfurther⟩

theorem OnlyRemarks.whenDebugging {m : Traced Unit} (h : OnlyRemarks m (.ok ())) :
    OnlyRemarks (Traced.whenDebugging m) (.ok ()) := by
  obtain ⟨remarks, rfl⟩ := h
  exact ⟨remarks, whenDebugging_remarking remarks⟩

theorem OnlyRemarks.around {m : Traced α} {x : Except Fault α} (h : OnlyRemarks m x) :
    OnlyRemarks (Block.indented.around m) x := by
  obtain ⟨remarks, rfl⟩ := h
  exact ⟨remarks.map Remark.deeper, around_remarking x remarks⟩

theorem OnlyRemarks.answer_eq {m : Traced α} {x : Except Fault α} (h : OnlyRemarks m x)
    (w : Writer) : (m w).answer = x := by
  obtain ⟨remarks, rfl⟩ := h
  rfl

theorem OnlyRemarks.level_eq {m : Traced α} {x : Except Fault α} (h : OnlyRemarks m x)
    (w : Writer) : (m w).level = w.level := by
  obtain ⟨remarks, rfl⟩ := h
  rfl

/-- With the given writer the computation has the given answer, which it also has with every writer
that is not debugging; it writes to no other stream, and nothing at all unless the writer is a
debugging one. -/
structure Tells (m : Traced α) (x : Except Fault α) (w : Writer) : Prop where
  answer : (m w).answer = x
  answer_quiet : ∀ quiet : Writer, quiet.debugging = false → (m quiet).answer = (m w).answer
  silent : w.debugging = false → (m w).written = []
  stream : ∀ entry ∈ (m w).written, entry.stream = w.stream

theorem OnlyRemarks.tells {m : Traced α} {x : Except Fault α} (h : OnlyRemarks m x)
    (w : Writer) : Tells m x w := by
  refine ⟨h.answer_eq w, fun quiet _ => (h.answer_eq quiet).trans (h.answer_eq w).symm, ?_, ?_⟩
  · intro hw
    obtain ⟨remarks, rfl⟩ := h
    rw [remarking, hw]
    rfl
  · intro entry hentry
    obtain ⟨remarks, rfl⟩ := h
    cases hw : w.debugging with
    | false =>
      rw [remarking, hw] at hentry
      cases hentry
    | true =>
      rw [remarking, hw, if_pos rfl] at hentry
      obtain ⟨r, -, rfl⟩ := List.mem_map.1 hentry
      rfl

end Traced

namespace Expr

open Traced (OnlyRemarks Tells onlyRemarks_pure onlyRemarks_lift onlyRemarks_debugLine)

theorem onlyRemarks_evalTraced (env : Env) (e : Expr) :
    OnlyRemarks (e.evalTraced env) (e.eval env) := by
  induction e with
  | literal v => exact onlyRemarks_pure v
  | var x => exact onlyRemarks_lift (env.value x)
  | binary op l r ihl ihr =>
    refine (onlyRemarks_lift (operator op)).bind fun o _ => ihl.bind fun a _ => ?_
    refine ihr.bind fun b _ => ?_
    exact (onlyRemarks_debugLine _).bind fun _ _ => onlyRemarks_pure (o.apply a b)
  | foreign it => exact onlyRemarks_lift (reject it)

/-- The change of a node is told in full once both trees can be printed. -/
theorem onlyRemarks_traceChange {before after : Expr} (hb : before.WellFormed)
    (ha : after.WellFormed) : OnlyRemarks (traceChange before after) (.ok ()) := by
  obtain ⟨old, hold⟩ := exists_print hb
  obtain ⟨new, hnew⟩ := exists_print ha
  refine OnlyRemarks.whenDebugging ?_
  by_cases hsame : after.same before
  · rw [if_pos hsame]
    exact onlyRemarks_pure ()
  · rw [if_neg hsame]
    have hanswer : (before.print >>= fun _ => after.print >>= fun _ => .ok ()) =
        (Except.ok () : Except Fault Unit) := by
      rw [hold, hnew, ok_bind, ok_bind]
    rw [← hanswer]
    refine (onlyRemarks_lift before.print).bind fun old _ => ?_
    refine (onlyRemarks_lift after.print).bind fun new _ => ?_
    exact onlyRemarks_debugLine s!"[{old} => {new}]"

theorem onlyRemarks_simplifyTraced (e : Expr) : OnlyRemarks e.simplifyTraced e.simplify := by
  induction e with
  | literal v => exact onlyRemarks_pure (Expr.literal v)
  | var x => exact onlyRemarks_pure (Expr.var x)
  | binary op l r ihl ihr =>
    have hoperands : OnlyRemarks (Block.indented.around (do
        let l' ← l.simplifyTraced
        let r' ← r.simplifyTraced
        return (l', r'))) (do
          let l' ← l.simplify
          let r' ← r.simplify
          return (l', r')) :=
      (ihl.bind fun l' _ => ihr.bind fun r' _ => onlyRemarks_pure (l', r')).around
    have hsplit : (binary op l r).simplify = ((do
        let l' ← l.simplify
        let r' ← r.simplify
        return (l', r')) >>= fun p => operator op >>= fun o =>
          Except.ok () >>= fun _ => .ok (simplifyRoot o p.1 p.2)) := by
      rw [simplify]
      cases l.simplify <;> cases r.simplify <;> rfl
    rw [hsplit]
    refine hoperands.bind fun p hp => (onlyRemarks_lift (operator op)).bind fun o ho => ?_
    obtain ⟨l', hl, r', hr, rfl⟩ : ∃ l', l.simplify = .ok l' ∧ ∃ r', r.simplify = .ok r' ∧
        (l', r') = p := by
      simpa only [bind_eq_ok, pure_eq_ok, Except.ok.injEq] using hp
    have hs : (binary op l r).simplify = .ok (simplifyRoot o l' r') :=
      simplify_binary_eq_ok.2 ⟨o, operator_eq_ok.1 ho, l', r', hl, hr, rfl⟩
    -- what is told of the node can be printed, because all of it has been simplified
    have htold := onlyRemarks_traceChange (wellFormed_of_simplify hs) (wellFormed_simplified hs)
    exact htold.bind fun _ _ => onlyRemarks_pure (simplifyRoot o l' r')
  | foreign it => exact onlyRemarks_lift (reject it)

theorem onlyRemarks_slottedTraced (t : Layout) (e : Expr) :
    OnlyRemarks (e.slottedTraced t) (e.slotted t) := by
  induction e with
  | literal v => exact onlyRemarks_pure (Slotted.literal v)
  | var x =>
    refine (onlyRemarks_lift (t.slot x)).bind fun i _ => ?_
    exact (onlyRemarks_debugLine _).bind fun _ _ => onlyRemarks_pure (Slotted.slot i)
  | binary op l r ihl ihr =>
    refine (onlyRemarks_lift (operator op)).bind fun o _ => ihl.bind fun left _ => ?_
    exact ihr.bind fun right _ => onlyRemarks_pure (Slotted.binary op o left right)
  | foreign it => exact onlyRemarks_lift (reject it)

theorem onlyRemarks_hostTextTraced (t : Layout) (target : Target) (e : Expr) :
    OnlyRemarks (e.hostTextTraced t target) (e.hostText t target) :=
  (onlyRemarks_slottedTraced t e).bind fun s _ => onlyRemarks_lift (s.hostText target)

theorem onlyRemarks_hostFunctionTraced (t : Layout) (target : Target) (name : String) (e : Expr) :
    OnlyRemarks (e.hostFunctionTraced t target name) (e.hostFunction t target name) :=
  (onlyRemarks_lift target.host).bind fun h _ =>
    (onlyRemarks_hostTextTraced t (.described h) e).bind fun body _ =>
      onlyRemarks_lift (h.function name body)

theorem onlyRemarks_compileTraced (simplified : Bool) (e : Expr) :
    OnlyRemarks (e.compileTraced simplified) (e.compile simplified) := by
  have hplain : ∀ s : Expr, OnlyRemarks (s.compileTraced false) (s.compile false) := by
    intro s
    refine (onlyRemarks_pure s).bind fun s _ => (onlyRemarks_lift s.layout).bind fun t _ => ?_
    exact (onlyRemarks_slottedTraced t s).bind fun code _ => onlyRemarks_pure (Compiled.mk s t code)
  cases simplified with
  | false => exact hplain e
  | true => exact (onlyRemarks_simplifyTraced e).bind fun s _ => hplain s

/-- Whatever writer the work on a tree is given, and when it is given none and makes one, it does
what it does without debugging; a writer is only told about it, on its own stream. Where
simplification goes to tell a change, both trees can be printed. -/
theorem work_only_tells (e : Expr) (env : Env) (t : Layout) (target : Target)
    (simplified debugging : Bool) (given : Option Writer) :
    let w := given.getD (.byDefault debugging)
    Tells (e.evalTraced env) (e.eval env) w ∧
    Tells e.simplifyTraced e.simplify w ∧
    Tells (e.slottedTraced t) (e.slotted t) w ∧
    Tells (e.hostTextTraced t target) (e.hostText t target) w ∧
    Tells (e.compileTraced simplified) (e.compile simplified) w ∧
    ∀ (op : String) (o : Operator) (l r l' r' : Expr), (l.simplifyTraced w).answer = .ok l' →
      (r.simplifyTraced w).answer = .ok r' → operator op = .ok o →
      (∃ old, (binary op l r).print = .ok old) ∧ ∃ new, (simplifyRoot o l' r').print = .ok new := by
  intro w
  refine ⟨(onlyRemarks_evalTraced env e).tells w, (onlyRemarks_simplifyTraced e).tells w,
    (onlyRemarks_slottedTraced t e).tells w, (onlyRemarks_hostTextTraced t target e).tells w,
    (onlyRemarks_compileTraced simplified e).tells w, ?_⟩
  intro op o l r l' r' hl hr ho
  rw [(onlyRemarks_simplifyTraced l).answer_eq] at hl
  rw [(onlyRemarks_simplifyTraced r).answer_eq] at hr
  have hs : (binary op l r).simplify = .ok (simplifyRoot o l' r') :=
    simplify_binary_eq_ok.2 ⟨o, operator_eq_ok.1 ho, l', r', hl, hr, rfl⟩
  exact ⟨exists_print (wellFormed_of_simplify hs), exists_print (wellFormed_simplified hs)⟩

/-- In `(x + 0) - y` the sum is simplified, and told, before the unknown operator is found. A writer
that is not debugging is told nothing, and the fault is the same. -/
theorem work_only_tells_fault :
    ((binary "-" (.add (.var "x") (.literal 0)) (.var "y")).simplifyTraced
      ⟨2, 1, true, .named "log"⟩).answer = .error (.unrecognizedOperator "-") ∧
    ((binary "-" (.add (.var "x") (.literal 0)) (.var "y")).simplifyTraced
      ⟨2, 1, true, .named "log"⟩).written = [⟨.named "log", "    [(x+0) => x]\n"⟩] ∧
    ((binary "-" (.add (.var "x") (.literal 0)) (.var "y")).simplifyTraced
      (.byDefault false)).answer = .error (.unrecognizedOperator "-") ∧
    ((binary "-" (.add (.var "x") (.literal 0)) (.var "y")).simplifyTraced
      (.byDefault false)).written = [] ∧
    ∃ old, (Expr.add (.var "x") (.literal 0)).print = .ok old := by
  obtain ⟨-, loud, -, -, -, printed⟩ := work_only_tells
    (binary "-" (.add (.var "x") (.literal 0)) (.var "y")) ⟨[]⟩ .empty .byDefault true false
    (some ⟨2, 1, true, .named "log"⟩)
  obtain ⟨-, quiet, -⟩ := work_only_tells
    (binary "-" (.add (.var "x") (.literal 0)) (.var "y")) ⟨[]⟩ .empty .byDefault true false none
  obtain ⟨old, -⟩ := printed "+" .plus (.var "x") (.literal 0) _ _ rfl rfl rfl
  exact ⟨loud.answer, rfl, quiet.answer, quiet.silent rfl, old⟩

end Expr

end Abacus
