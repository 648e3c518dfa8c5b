import Abacus.Proofs.Expr.Value
import Abacus.Proofs.Host.Text

/-!
# Host text as printed text

A host language writes a tree as printing does, once its own spelling of variables and of negative
literals has been put in. Only the literals can be refused, the leftmost one first, and the bounds
decide nothing but that.
-/

namespace Abacus

open Answer

namespace Host

/-- Between the bounds, both of them included, if there are any. -/
def InBounds (h : Host) (v : Int) : Prop :=
  ∀ low high, h.bounds = some (low, high) → low ≤ v ∧ v ≤ high

theorem admits_iff {h : Host} {v : Int} : h.admits v = true ↔ h.InBounds v := by
  unfold admits InBounds
  cases h.bounds with
  | none => simp
  | some bounds =>
    obtain ⟨low, high⟩ := bounds
    simp only [Bool.and_eq_true, decide_eq_true_iff, Option.some.injEq, Prod.mk.injEq]
    constructor
    · rintro hv low' high' ⟨rfl, rfl⟩
      exact hv
    · intro hv
      exact hv low high ⟨rfl, rfl⟩

theorem fault?_literal (h : Host) (v : Int) : fault? (h.literal v) =
    ([v].find? fun v => !h.admits v).map fun v => .literalOutOfRange v h.name := by
  rw [literal, List.find?_singleton]
  cases h.admits v <;> rfl

end Host

namespace Expr

/-- The tree with an array read in place of each variable and parentheses around each negative
literal. -/
def spelled (t : Layout) (array : String) : Expr → Expr
  | .literal v => if v < 0 then .var ("(" ++ toString v ++ ")") else .literal v
  | .var x =>
    match t.slot x with
    | .ok i => .var (array ++ "[" ++ toString i ++ "]")
    | .error _ => .var x
  | .binary op l r => .binary op (l.spelled t array) (r.spelled t array)
  | .foreign it => .foreign it

theorem print_spelled_literal (t : Layout) (array : String) (v : Int) :
    ((literal v).spelled t array).print = .ok (Host.literalText v) := by
  rw [spelled, Host.literalText]
  split <;> rfl

theorem print_spelled_var {t : Layout} {x : String} {i : Nat} (hi : t.slot x = .ok i) (h : Host) :
    ((var x).spelled t h.array).print = .ok (h.read i) := by
  rw [spelled, hi]
  rfl

/-- The text of a tree in a host language is the printed text of the spelled tree. -/
theorem print_spelled {t : Layout} {h : Host} {e : Expr} {s : Slotted} {text : String}
    (hs : e.slotted t = .ok s) (ht : s.textIn h = .ok text) :
    (e.spelled t h.array).print = .ok text := by
  induction e generalizing s text with
  | literal v =>
    cases hs
    rw [print_spelled_literal, Slotted.literalText_of_literal ht]
  | var x =>
    obtain ⟨i, hi, hs⟩ := bind_eq_ok.1 hs
    cases hs
    cases ht
    exact print_spelled_var hi h
  | binary op l r ihl ihr =>
    obtain ⟨o, rfl, l', r', hl, hr, rfl⟩ := slotted_binary_eq_ok.1 hs
    obtain ⟨left, right, hleft, hright, rfl⟩ := Slotted.textIn_binary_eq_ok.1 ht
    exact print_binary_eq_ok.2 ⟨o, rfl, left, right, ihl hl hleft, ihr hr hright, rfl⟩
  | foreign it => cases hs

/-- The leftmost literal out of bounds is the fault. -/
theorem fault?_textIn {t : Layout} {h : Host} {e : Expr} {s : Slotted}
    (hs : e.slotted t = .ok s) : fault? (s.textIn h) =
      (e.literals.find? fun v => !h.admits v).map fun v => .literalOutOfRange v h.name := by
  induction e generalizing s with
  | literal v =>
    cases hs
    exact h.fault?_literal v
  | var x =>
    obtain ⟨i, -, hs⟩ := bind_eq_ok.1 hs
    cases hs
    rfl
  | binary op l r ihl ihr =>
    obtain ⟨o, rfl, l', r', hl, hr, rfl⟩ := slotted_binary_eq_ok.1 hs
    rw [Slotted.textIn, fault?_both, ihl hl, ihr hr, literals, List.find?_append, Option.map_or]
  | foreign it => cases hs

theorem exists_textIn_iff {t : Layout} {h : Host} {e : Expr} {s : Slotted}
    (hs : e.slotted t = .ok s) :
    (∃ text, s.textIn h = .ok text) ↔ ∀ v ∈ e.literals, h.InBounds v := by
  refine (decides_of_fault? (fault?_textIn hs) ?_).succeeds
  rw [Option.map_eq_none_iff, List.find?_eq_none]
  refine forall₂_congr fun v _ => ?_
  rw [Bool.not_eq_true', Bool.not_eq_false, Host.admits_iff]

theorem textIn_of_not_inBounds {t : Layout} {h : Host} {e : Expr} {s : Slotted}
    (hs : e.slotted t = .ok s) {before after : List Int} {v : Int}
    (hl : e.literals = before ++ v :: after) (hbefore : ∀ w ∈ before, h.InBounds w)
    (hv : ¬h.InBounds v) : s.textIn h = .error (.literalOutOfRange v h.name) := by
  have hfirst : e.literals.find? (fun v => !h.admits v) = some v := by
    refine List.find?_eq_some_iff_append.2 ⟨?_, before, after, hl, fun w hw => ?_⟩
    · rwa [Bool.not_eq_true', ← Bool.not_eq_true, Host.admits_iff]
    · rw [Bool.not_not, Host.admits_iff]
      exact hbefore w hw
  rw [← fault?_eq_some, fault?_textIn hs, hfirst, Option.map_some]

/-- The bounds of a language have no part in the text. -/
theorem hostText_eq_of_array {t : Layout} {h h' : Host} {e : Expr} {text text' : String}
    (ha : h'.array = h.array) (ht : e.hostText t (.described h) = .ok text)
    (ht' : e.hostText t (.described h') = .ok text') : text' = text := by
  obtain ⟨s, hs, ht⟩ := bind_eq_ok.1 ht
  obtain ⟨s', hs', ht'⟩ := bind_eq_ok.1 ht'
  have hprint := print_spelled hs ht
  have hprint' := print_spelled hs' ht'
  rw [ha, hprint] at hprint'
  exact (Except.ok.inj hprint').symm

/-- Text can be made of what can be slotted, if the host language admits all of its literals; faults
of slotting come first, and then the leftmost literal that is not admitted. The text is the printed
text of the spelled tree, so that languages with the same array differ in what they refuse only. -/
theorem hostText_is_print (e : Expr) (t : Layout) (h : Host) :
    ((∃ text, e.hostText t (.described h) = .ok text) ↔
      (∃ s, e.slotted t = .ok s) ∧ ∀ v ∈ e.literals, h.InBounds v) ∧
    (∀ fault, e.slotted t = .error fault → e.hostText t (.described h) = .error fault) ∧
    (∀ s before v after, e.slotted t = .ok s → e.literals = before ++ v :: after →
      (∀ w ∈ before, h.InBounds w) → ¬h.InBounds v →
      e.hostText t (.described h) = .error (.literalOutOfRange v h.name)) ∧
    (∀ text, e.hostText t (.described h) = .ok text →
      (e.spelled t h.array).print = .ok text ∧
      ∀ (h' : Host) (text' : String), h'.array = h.array →
        e.hostText t (.described h') = .ok text' → text' = text) ∧
    ∀ python c, e.hostText t (.named "python") = .ok python →
      e.hostText t (.named "c") = .ok c → python = c := by
  have described : e.hostText t (.described h) = (do
      let s ← e.slotted t
      s.textIn h) := rfl
  refine ⟨?_, ?_, ?_, ?_, ?_⟩
  · rw [described]
    cases hs : e.slotted t with
    | error fault => simp
    | ok s => simpa using exists_textIn_iff hs
  · intro fault hs
    rw [described, hs, error_bind]
  · intro s before v after hs hl hbefore hv
    rw [described, hs, ok_bind, textIn_of_not_inBounds hs hl hbefore hv]
  · intro text ht
    obtain ⟨s, hs, htext⟩ := bind_eq_ok.1 ht
    exact ⟨print_spelled hs htext, fun h' text' ha ht' => hostText_eq_of_array ha ht ht'⟩
  · intro python c hpython hc
    have harray : Host.python.array = Host.c.array := rfl
    exact hostText_eq_of_array harray hc hpython

/-- With literals from -5 to 5, `x * -5 + y` has a text, `5 + 6 * -7` is refused for its 6, and
`9 + z` is refused for its variable. -/
theorem hostText_is_print_bounded :
    (∃ text, (add (.mul (.var "x") (.literal (-5))) (.var "y")).hostText ⟨["y", "x"], by decide⟩
        (.described ⟨"js", "env", "", some (-5, 5)⟩) = .ok text ∧
      ((add (.mul (.var "x") (.literal (-5))) (.var "y")).spelled ⟨["y", "x"], by decide⟩
        "env").print = .ok text ∧ text = "((env[1]*(-5))+env[0])") ∧
    (add (.literal 5) (.mul (.literal 6) (.literal (-7)))).hostText .empty
      (.described ⟨"js", "env", "", some (-5, 5)⟩) = .error (.literalOutOfRange 6 "js") ∧
    (add (.literal 9) (.var "z")).hostText .empty
      (.described ⟨"js", "env", "", some (-5, 5)⟩) = .error (.unboundVariable "z") := by
  obtain ⟨succeeds, -, -, printed, -⟩ := hostText_is_print
    (add (.mul (.var "x") (.literal (-5))) (.var "y")) ⟨["y", "x"], by decide⟩
    ⟨"js", "env", "", some (-5, 5)⟩
  obtain ⟨-, -, refused, -⟩ := hostText_is_print
    (add (.literal 5) (.mul (.literal 6) (.literal (-7)))) .empty ⟨"js", "env", "", some (-5, 5)⟩
  obtain ⟨-, unslotted, -⟩ := hostText_is_print (add (.literal 9) (.var "z")) .empty
    ⟨"js", "env", "", some (-5, 5)⟩
  have bounded : ∀ v : Int, Host.InBounds ⟨"js", "env", "", some (-5, 5)⟩ v ↔ -5 ≤ v ∧ v ≤ 5 := by
    intro v
    rw [← Host.admits_iff]
    simp [Host.admits]
  refine ⟨?_, ?_, unslotted _ rfl⟩
  · obtain ⟨text, ht⟩ := succeeds.2
      ⟨⟨_, rfl⟩, List.forall_mem_singleton.2 ((bounded (-5)).2 (by decide))⟩
    have hprint := (printed text ht).1
    exact ⟨text, ht, hprint, Except.ok.inj (hprint.symm.trans rfl)⟩
  · refine refused _ [5] 6 [-7] rfl rfl (List.forall_mem_singleton.2 ((bounded 5).2 (by decide))) ?_
    rw [bounded]
    decide

end Expr

end Abacus
