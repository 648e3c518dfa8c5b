import Abacus.Proofs.Expr.Place
import Abacus.Proofs.Trace.Remarks

/-!
# The trace of a simplification

A debugging writer is told of every operation that simplification changes, in the order in which the
work is done with them and as deep as they are in the tree. Each line shows the operation as it was
and what it simplifies to on its own. Where the tree has a flaw, the lines from before the flaw was
met stay.
-/

namespace Abacus.Expr

open Answer
open Traced (around_remarking debugLine_eq_remarking exists_lines lift_eq_remarking lift_ok_bind
  on_remarking pure_eq_remarking remarking remarking_error_bind remarking_ok_bind
  remarking_ok_bind_pure whenDebugging_remarking written_remarking)

/-- Does simplification make another tree of it? -/
def changes (e : Expr) : Bool := !e.simplify.toOption.any (·.same e)

/-- The places in front of the first flaw from the leaves upwards. -/
def soundPlaces (e : Expr) : List Place := soundPart (flaw? ∘ Place.node) e.places

/-- Those of them where simplification changes an operation. -/
def changedPlaces (e : Expr) : List Place :=
  e.soundPlaces.filter fun p => p.node.isOperation && p.node.changes

/-! ## Where the changed places are -/

theorem soundPlaces_of_wellFormed {e : Expr} (he : e.WellFormed) : e.soundPlaces = e.places :=
  soundPart_of_none ((findSome?_places flaw? e).trans (firstFlawUpwards?_eq_none_iff.2 he))

theorem findSome?_under (count : Nat) (e : Expr) :
    (e.places.map (Place.under count)).findSome? (flaw? ∘ Place.node) = e.firstFlawUpwards? := by
  rw [List.findSome?_map]
  exact findSome?_places flaw? e

theorem soundPart_under (count : Nat) (e : Expr) :
    soundPart (flaw? ∘ Place.node) (e.places.map (Place.under count)) =
      e.soundPlaces.map (Place.under count) :=
  soundPart_map _ _

theorem filter_under (count : Nat) (e : Expr) :
    (e.soundPlaces.map (Place.under count)).filter
        (fun p => p.node.isOperation && p.node.changes) =
      e.changedPlaces.map (Place.under count) :=
  List.filter_map

theorem changedPlaces_of_left {op : String} {l r : Expr} {fault : Fault}
    (hl : l.simplify = .error fault) :
    (binary op l r).changedPlaces = l.changedPlaces.map (Place.under 1) := by
  have hflaw : l.firstFlawUpwards? = some fault := by rw [← fault?_simplify, hl, fault?_error]
  rw [changedPlaces, soundPlaces, places, List.append_assoc,
    soundPart_append_of_some ((findSome?_under 1 l).trans hflaw), soundPart_under, filter_under]

theorem changedPlaces_of_right {op : String} {l r l' : Expr} {fault : Fault}
    (hl : l.simplify = .ok l') (hr : r.simplify = .error fault) :
    (binary op l r).changedPlaces = l.changedPlaces.map (Place.under 1) ++
      r.changedPlaces.map (Place.under (1 + l.nodes.length)) := by
  have hflaw : r.firstFlawUpwards? = some fault := by rw [← fault?_simplify, hr, fault?_error]
  have hsound : l.firstFlawUpwards? = none := by rw [← fault?_simplify, hl, fault?_ok]
  rw [changedPlaces, soundPlaces, places, List.append_assoc,
    soundPart_append_of_none ((findSome?_under 1 l).trans hsound),
    soundPart_append_of_some ((findSome?_under _ r).trans hflaw), soundPart_under,
    ← soundPlaces_of_wellFormed (wellFormed_of_simplify hl), List.filter_append, filter_under,
    filter_under]

theorem filter_soundPart_root (op : String) (l r : Expr) :
    (soundPart (flaw? ∘ Place.node) [⟨binary op l r, 0, 0⟩]).filter
        (fun p => p.node.isOperation && p.node.changes) =
      if (binary op l r).flaw? = none ∧ (binary op l r).changes
        then [⟨binary op l r, 0, 0⟩] else [] := by
  cases hflaw : (binary op l r).flaw? with
  | some fault =>
    have hfound : (flaw? ∘ Place.node) ⟨binary op l r, 0, 0⟩ = some fault := hflaw
    rw [soundPart_cons_of_some hfound, if_neg fun h => absurd h.1 (Option.some_ne_none fault)]
    rfl
  | none =>
    have hsound : [Place.mk (binary op l r) 0 0].findSome? (flaw? ∘ Place.node) = none :=
      List.findSome?_singleton.trans hflaw
    rw [soundPart_of_none hsound]
    cases hchanges : (binary op l r).changes <;> simp [isOperation, hchanges]

/-- Where both operands are sound it depends on the root alone whether there is one more place. -/
theorem changedPlaces_of_operands {op : String} {l r l' r' : Expr} (hl : l.simplify = .ok l')
    (hr : r.simplify = .ok r') :
    (binary op l r).changedPlaces = l.changedPlaces.map (Place.under 1) ++
      r.changedPlaces.map (Place.under (1 + l.nodes.length)) ++
        if (binary op l r).flaw? = none ∧ (binary op l r).changes
          then [⟨binary op l r, 0, 0⟩] else [] := by
  have hlsound : l.firstFlawUpwards? = none := by rw [← fault?_simplify, hl, fault?_ok]
  have hrsound : r.firstFlawUpwards? = none := by rw [← fault?_simplify, hr, fault?_ok]
  rw [changedPlaces, soundPlaces, places, List.append_assoc,
    soundPart_append_of_none ((findSome?_under 1 l).trans hlsound),
    soundPart_append_of_none ((findSome?_under _ r).trans hrsound),
    ← soundPlaces_of_wellFormed (wellFormed_of_simplify hl),
    ← soundPlaces_of_wellFormed (wellFormed_of_simplify hr), List.filter_append, List.filter_append,
    filter_under, filter_under, filter_soundPart_root, List.append_assoc]

/-! ## What is told -/

/-- The remark shows what becomes of the node at a place, and is as deep as the node is. -/
def ShowsChange (p : Place) (remark : Remark) : Prop :=
  ∃ s old new, p.node.simplify = .ok s ∧ p.node.print = .ok old ∧ s.print = .ok new ∧
    remark = ⟨p.distance, s!"[{old} => {new}]"⟩

theorem forall₂_under {ps : List Place} {remarks : List Remark}
    (h : List.Forall₂ ShowsChange ps remarks) (count : Nat) :
    List.Forall₂ ShowsChange (ps.map (Place.under count)) (remarks.map Remark.deeper) := by
  rw [List.forall₂_map_left_iff, List.forall₂_map_right_iff]
  refine h.imp fun p remark => ?_
  rintro ⟨s, old, new, hs, hold, hnew, rfl⟩
  exact ⟨s, old, new, hs, hold, hnew, rfl⟩

/-- The places of two operands, one behind the other, as places of the whole tree. -/
theorem forall₂_operands {ps qs : List Place} {remarks further : List Remark}
    (h : List.Forall₂ ShowsChange ps remarks) (h' : List.Forall₂ ShowsChange qs further)
    (count count' : Nat) :
    List.Forall₂ ShowsChange (ps.map (Place.under count) ++ qs.map (Place.under count'))
      ((remarks ++ further).map Remark.deeper) := by
  rw [List.map_append]
  exact List.rel_append (forall₂_under h count) (forall₂_under h' count')

theorem traceChange_of_same {before after : Expr} (h : after.same before = true) :
    traceChange before after = remarking (.ok ()) [] := by
  rw [traceChange, if_pos h, pure_eq_remarking, whenDebugging_remarking]

theorem traceChange_of_not_same {before after : Expr} {old new : String}
    (h : ¬after.same before = true) (hold : before.print = .ok old) (hnew : after.print = .ok new) :
    traceChange before after = remarking (.ok ()) [⟨0, s!"[{old} => {new}]"⟩] := by
  have htold : (do
      let old ← before.print
      let new ← after.print
      Traced.debugLine s!"[{old} => {new}]" : Traced Unit) =
      remarking (.ok ()) [⟨0, s!"[{old} => {new}]"⟩] := by
    rw [hold, hnew]
    exact lift_ok_bind (lift_ok_bind (debugLine_eq_remarking _))
  rw [traceChange, if_neg h, htold, whenDebugging_remarking]

/-- What is told of the root of a tree whose operands are simplified. -/
theorem exists_root_remarked {o : Operator} {l r l' r' : Expr}
    (hs : (binary o.symbol l r).simplify = .ok (simplifyRoot o l' r')) : ∃ remarks,
    (do
      traceChange (binary o.symbol l r) (simplifyRoot o l' r')
      return simplifyRoot o l' r') = remarking (.ok (simplifyRoot o l' r')) remarks ∧
      List.Forall₂ ShowsChange
        (if (binary o.symbol l r).flaw? = none ∧ (binary o.symbol l r).changes
          then [⟨binary o.symbol l r, 0, 0⟩] else []) remarks := by
  have hflaw : (binary o.symbol l r).flaw? = none := by
    rw [flaw?_binary, operator_symbol, fault?_ok]
  have hchanges : (binary o.symbol l r).changes =
      !(simplifyRoot o l' r').same (binary o.symbol l r) := by
    rw [changes, hs]
    rfl
  rw [hchanges]
  by_cases hsame : (simplifyRoot o l' r').same (binary o.symbol l r) = true
  · refine ⟨[], ?_, ?_⟩
    · rw [traceChange_of_same hsame]
      exact remarking_ok_bind_pure () [] _
    rw [hsame, if_neg fun h => absurd h.2 (by decide)]
    exact .nil
  · obtain ⟨old, hold⟩ := exists_print (wellFormed_of_simplify hs)
    obtain ⟨new, hnew⟩ := exists_print (wellFormed_simplified hs)
    refine ⟨[⟨0, s!"[{old} => {new}]"⟩], ?_, ?_⟩
    · rw [traceChange_of_not_same hsame hold hnew]
      exact remarking_ok_bind_pure () _ _
    rw [Bool.not_eq_true] at hsame
    rw [hsame, if_pos ⟨hflaw, rfl⟩]
    exact .cons ⟨_, old, new, hs, hold, hnew, rfl⟩ .nil

theorem exists_changes_remarked (e : Expr) : ∃ remarks,
    e.simplifyTraced = remarking e.simplify remarks ∧
      List.Forall₂ ShowsChange e.changedPlaces remarks := by
  induction e with
  | literal v => exact ⟨[], pure_eq_remarking _, .nil⟩
  | var x => exact ⟨[], pure_eq_remarking _, .nil⟩
  | binary op l r ihl ihr =>
    obtain ⟨remarksL, htracedL, hshownL⟩ := ihl
    obtain ⟨remarksR, htracedR, hshownR⟩ := ihr
    cases hl : l.simplify with
    | error fault =>
      refine ⟨remarksL.map Remark.deeper, ?_, ?_⟩
      · rw [simplifyTraced, htracedL, simplify, hl, error_bind, remarking_error_bind,
          around_remarking, remarking_error_bind]
      · rw [changedPlaces_of_left hl]
        exact forall₂_under hshownL 1
    | ok l' =>
      cases hr : r.simplify with
      | error fault =>
        refine ⟨(remarksL ++ remarksR).map Remark.deeper, ?_, ?_⟩
        · have hoperands : (do
              let l' ← remarking (.ok l') remarksL
              let r' ← remarking (.error fault) remarksR
              return (l', r') : Traced (Expr × Expr)) =
              remarking (.error fault) (remarksL ++ remarksR) := remarking_ok_bind rfl
          rw [simplifyTraced, htracedL, htracedR, simplify, hl, hr, hoperands, around_remarking,
            remarking_error_bind, ok_bind, error_bind]
        · rw [changedPlaces_of_right hl hr]
          exact forall₂_operands hshownL hshownR 1 _
      | ok r' =>
        have hoperands : (do
            let l' ← remarking (.ok l') remarksL
            let r' ← remarking (.ok r') remarksR
            return (l', r') : Traced (Expr × Expr)) =
            remarking (.ok (l', r')) (remarksL ++ remarksR) :=
          remarking_ok_bind (remarking_ok_bind_pure r' remarksR (Prod.mk l'))
        have hshown := forall₂_operands hshownL hshownR 1 (1 + l.nodes.length)
        rw [simplifyTraced, htracedL, htracedR, simplify, hl, hr, hoperands, around_remarking,
          changedPlaces_of_operands hl hr, ok_bind, ok_bind]
        cases ho : operator op with
        | error fault =>
          have hflaw : ¬((binary op l r).flaw? = none ∧ (binary op l r).changes) := by
            rw [flaw?_binary, ho]
            exact fun h => absurd h.1 (Option.some_ne_none fault)
          refine ⟨(remarksL ++ remarksR).map Remark.deeper ++ [], ?_, ?_⟩
          · exact remarking_ok_bind (lift_eq_remarking _)
          · rw [if_neg hflaw]
            exact List.rel_append hshown .nil
        | ok o =>
          obtain rfl := operator_eq_ok.1 ho
          have hs : (binary o.symbol l r).simplify = .ok (simplifyRoot o l' r') :=
            simplify_binary_eq_ok.2 ⟨o, rfl, l', r', hl, hr, rfl⟩
          obtain ⟨further, htold, hshownRoot⟩ := exists_root_remarked hs
          refine ⟨(remarksL ++ remarksR).map Remark.deeper ++ further, ?_, ?_⟩
          · exact remarking_ok_bind (lift_ok_bind htold)
          · exact List.rel_append hshown hshownRoot
  | foreign it => exact ⟨[], lift_eq_remarking _, .nil⟩

/-! ## Trees of which nothing is told -/

theorem changes_eq_false_iff {e : Expr} (he : e.WellFormed) :
    e.changes = false ↔ e.simplify = .ok e := by
  obtain ⟨s, hs⟩ := exists_simplify he
  have hchanges : e.changes = !s.same e := by
    rw [changes, hs]
    rfl
  rw [hchanges, hs, Bool.not_eq_false', same_iff_eq (wellFormed_simplified hs), Except.ok.injEq]

theorem changedPlaces_eq_nil_iff {e : Expr} (he : e.WellFormed) :
    e.changedPlaces = [] ↔ e.simplify = .ok e := by
  rw [changedPlaces, soundPlaces_of_wellFormed he, List.filter_eq_nil_iff]
  constructor
  · intro h
    have hroot := h _ e.root_mem_places
    cases e with
    | binary op l r =>
      rw [isOperation, Bool.true_and, Bool.not_eq_true] at hroot
      exact (changes_eq_false_iff he).1 hroot
    | literal v => rfl
    | var x => rfl
    | foreign it => exact he.elim
  · intro h p hp
    obtain ⟨-, hsame⟩ := simplify_nodes_of_simplify h _ (mem_nodes_of_mem_places hp)
    have hchanges := (changes_eq_false_iff (wellFormed_of_simplify hsame)).2 hsame
    rw [hchanges, Bool.and_false]
    exact Bool.false_ne_true

/-- A debugging writer receives one line for every operation that simplification changes, in front of
the first flaw from the leaves upwards. The line is indented one margin more for each level that the
operation is below the root, and shows the operation as it was and what it simplifies to. A
well-formed tree of which nothing is told is one that was simplified before. -/
theorem simplify_tells_changes (e : Expr) (size level : Nat) (stream : Stream) :
    (∃ lines,
      List.Forall₂ (fun (p : Place) line => ∃ s old new, p.node.simplify = .ok s ∧
        p.node.print = .ok old ∧ s.print = .ok new ∧
        line = Writer.repeated ' ' (size * (level + p.distance)) ++ s!"[{old} => {new}]" ++ "\n")
        e.changedPlaces lines ∧
      (e.simplifyTraced ⟨size, level, true, stream⟩).written.on stream = String.join lines) ∧
    (∀ other, stream ≠ other →
      (e.simplifyTraced ⟨size, level, true, stream⟩).written.on other = "") ∧
    (e.WellFormed →
      ((e.simplifyTraced ⟨size, level, true, stream⟩).written.on stream = "" ↔
        e.simplify = .ok e)) := by
  obtain ⟨remarks, htraced, hshown⟩ := exists_changes_remarked e
  refine ⟨?_, fun other hother => ?_, fun he => ?_⟩
  · rw [htraced]
    refine exists_lines hshown ?_ _ stream
    rintro p _ ⟨s, old, new, hs, hold, hnew, rfl⟩
    exact ⟨s, old, new, hs, hold, hnew, rfl⟩
  · rw [htraced, written_remarking, Transcript.on_mk_of_ne hother]
  · have hnil : remarks = [] ↔ e.changedPlaces = [] := by
      rw [← List.length_eq_zero_iff, ← hshown.length_eq, List.length_eq_zero_iff]
    rw [htraced, on_remarking, Remark.join_text_eq_empty_iff, hnil, changedPlaces_eq_nil_iff he]

/-- The factor of `((x + 0) * 1) - y` is simplified from the inside before the unknown operator is
found, one level below it and two. Of `x * x` nothing is told. -/
theorem simplify_tells_changes_below_flaw :
    ((binary "-" (.mul (.add (.var "x") (.literal 0)) (.literal 1)) (.var "y")).simplifyTraced
      ⟨2, 1, true, .named "log"⟩).written.on (.named "log") =
        "      [(x+0) => x]\n    [((x+0)*1) => x]\n" ∧
    ((binary "-" (.mul (.add (.var "x") (.literal 0)) (.literal 1)) (.var "y")).simplifyTraced
      ⟨2, 1, true, .named "log"⟩).written.on .standard = "" ∧
    (mul (.var "x") (.var "x")).WellFormed ∧
    ((mul (.var "x") (.var "x")).simplifyTraced ⟨3, 0, true, .standard⟩).written.on .standard =
      "" := by
  have he : (mul (.var "x") (.var "x")).WellFormed := by decide
  obtain ⟨⟨lines, shown, text⟩, elsewhere, -⟩ := simplify_tells_changes
    (binary "-" (.mul (.add (.var "x") (.literal 0)) (.literal 1)) (.var "y")) 2 1 (.named "log")
  obtain ⟨-, -, untold⟩ := simplify_tells_changes (mul (.var "x") (.var "x")) 3 0 .standard
  refine ⟨text.trans ?_, elsewhere .standard (by decide), he, (untold he).2 rfl⟩
  have hplaces : (binary "-" (.mul (.add (.var "x") (.literal 0)) (.literal 1))
      (.var "y")).changedPlaces = [⟨add (.var "x") (.literal 0), 2, 2⟩,
        ⟨mul (.add (.var "x") (.literal 0)) (.literal 1), 1, 1⟩] := rfl
  rw [hplaces] at shown
  obtain - | ⟨⟨_, _, _, hs, hold, hnew, rfl⟩, - | ⟨⟨_, _, _, hs', hold', hnew', rfl⟩, ⟨⟩⟩⟩ := shown
  cases hs
  cases hold
  cases hnew
  cases hs'
  cases hold'
  cases hnew'
  rfl

end Abacus.Expr
