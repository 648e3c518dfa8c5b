import Abacus.Infix.Reader
import Abacus.Proofs.Answer
import Abacus.Proofs.Infix.Token

/-!
# The grammar of infix text

A sum consists of products, a product of atoms, and an atom is a number, a name or a sum in
parentheses; both operators group to the left. The reader is a machine that keeps, for every open
level, what stands to the left. It reads exactly the phrases of the grammar: what it keeps is always
a reading of the tokens so far, and a phrase takes it from any place where one is awaited to the
place behind it.
-/

namespace Abacus.Infix

open Answer

inductive Level where
  | atom
  | product
  | sum
deriving DecidableEq, Repr

/-- The tokens are a phrase of the level and write the expression. -/
inductive Phrase : Level → List Token → Expr → Prop where
  | number {t : Token} (h : t.kind = .int) : Phrase .atom [t] (.literal t.toInt)
  | name {t : Token} (h : t.kind = .name) : Phrase .atom [t] (.var t.text)
  | group {o c : Token} {ts : List Token} {e : Expr} (ho : o.kind = .leftParen)
    (h : Phrase .sum ts e) (hc : c.kind = .rightParen) : Phrase .atom (o :: (ts ++ [c])) e
  | single {ts : List Token} {e : Expr} (h : Phrase .atom ts e) : Phrase .product ts e
  | times {o : Token} {ts us : List Token} {l r : Expr} (hl : Phrase .product ts l)
    (ho : o.kind = .star) (hr : Phrase .atom us r) : Phrase .product (ts ++ o :: us) (.mul l r)
  | only {ts : List Token} {e : Expr} (h : Phrase .product ts e) : Phrase .sum ts e
  | plus {o : Token} {ts us : List Token} {l r : Expr} (hl : Phrase .sum ts l)
    (ho : o.kind = .plus) (hr : Phrase .product us r) : Phrase .sum (ts ++ o :: us) (.add l r)

/-- Between two operands of a phrase there is always something else. -/
theorem Phrase.apart {level : Level} {ts : List Token} {e : Expr} (h : Phrase level ts e) :
    Apart ts := by
  induction h with
  | number h => exact List.isChain_singleton _
  | name h => exact List.isChain_singleton _
  | group ho h hc ih =>
    have hopen : ¬Kind.leftParen.IsOperand := by decide
    have hclose : ¬Kind.rightParen.IsOperand := by decide
    rw [← ho] at hopen
    rw [← hc] at hclose
    exact Apart.append_cons List.isChain_nil hopen (ih.append_cons hclose List.isChain_nil)
  | single h ih => exact ih
  | times hl ho hr ihl ihr =>
    have hstar : ¬Kind.star.IsOperand := by decide
    rw [← ho] at hstar
    exact ihl.append_cons hstar ihr
  | only h ih => exact ih
  | plus hl ho hr ihl ihr =>
    have hplus : ¬Kind.plus.IsOperand := by decide
    rw [← ho] at hplus
    exact ihl.append_cons hplus ihr

/-! ## The machine without its faults -/

namespace State

/-- What a token does to a state that takes it. -/
inductive Move (p : Placed) : State → State → Prop where
  | number {pending : Pending} {outer : List Pending} (h : p.token.kind = .int) :
    Move p (.operand pending outer) (place pending outer (.number p))
  | name {pending : Pending} {outer : List Pending} (h : p.token.kind = .name) :
    Move p (.operand pending outer) (place pending outer (.name p))
  | descend {pending : Pending} {outer : List Pending} (h : p.token.kind = .leftParen) :
    Move p (.operand pending outer) (.operand .nothing (pending :: outer))
  | plus {sum : Option Tree} {product : Tree} {outer : List Pending} (h : p.token.kind = .plus) :
    Move p (.joint sum product outer) (.operand ⟨some (total sum product), none⟩ outer)
  | star {sum : Option Tree} {product : Tree} {outer : List Pending} (h : p.token.kind = .star) :
    Move p (.joint sum product outer) (.operand ⟨sum, some product⟩ outer)
  | ascend {sum : Option Tree} {product : Tree} {pending : Pending} {outer : List Pending}
    (h : p.token.kind = .rightParen) :
    Move p (.joint sum product (pending :: outer)) (place pending outer (total sum product))

theorem step_eq_ok {s s' : State} {p : Placed} : s.step p = .ok s' ↔ Move p s s' := by
  constructor
  · intro h
    cases s with
    | operand pending outer =>
      simp only [step] at h
      cases hk : p.token.kind <;> rw [hk] at h <;> cases h
      · exact .number hk
      · exact .name hk
      · exact .descend hk
    | joint sum product outer =>
      simp only [step] at h
      cases hk : p.token.kind <;> rw [hk] at h
      case rightParen =>
        cases outer <;> cases h
        exact .ascend hk
      all_goals cases h
      · exact .plus hk
      · exact .star hk
  · intro h
    cases h with
    | number h | name h | descend h | plus h | star h | ascend h => simp only [step, h]

/-- The tree is read exactly when all tokens can be taken and the text may end behind them. -/
theorem run_eq_ok {s : State} {last : Text.Place} {stray : Option (Char × Text.Place)}
    {ps : List Placed} {t : Tree} : s.run last stray ps = .ok t ↔
      stray = none ∧ ∃ s' : State, ps.foldlM step s = .ok s' ∧ s'.finish = .ok t := by
  induction ps generalizing s last with
  | nil =>
    unfold run
    cases stray with
    | some found => simp
    | none => cases hf : s.finish <;> simp [hf]
  | cons p ps ih =>
    unfold run
    rw [List.foldlM_cons]
    cases hs : s.step p with
    | ok s' => exact ih
    | error expected => simp

end State

/-! ## Phrases from tokens -/

/-- What stands before an operator of the kind, and the operator, if there is one. -/
inductive Before (level : Level) (operator : Kind) : Option Tree → List Token → Prop where
  | none : Before level operator none []
  | some {t : Tree} {ts : List Token} {o : Token} (h : Phrase level ts t.toExpr)
    (ho : o.kind = operator) : Before level operator (some t) (ts ++ [o])

inductive Pending.Reads : Pending → List Token → Prop where
  | mk {p : Pending} {ts us : List Token} (hs : Before .sum .plus p.sum ts)
    (hf : Before .product .star p.factor us) : Reads p (ts ++ us)

/-- What stands before an open level, the innermost first, each with its parenthesis. -/
inductive OuterReads : List Pending → List Token → Prop where
  | nil : OuterReads [] []
  | cons {p : Pending} {outer : List Pending} {ts us : List Token} {o : Token}
    (h : OuterReads outer ts) (hp : p.Reads us) (ho : o.kind = .leftParen) :
    OuterReads (p :: outer) (ts ++ (us ++ [o]))

/-- The state keeps a reading of the tokens. -/
inductive State.Reads : State → List Token → Prop where
  | operand {p : Pending} {outer : List Pending} {ts us : List Token} (h : OuterReads outer ts)
    (hp : p.Reads us) : Reads (.operand p outer) (ts ++ us)
  | joint {sum : Option Tree} {t : Tree} {outer : List Pending} {ts us vs : List Token}
    (h : OuterReads outer ts) (hs : Before .sum .plus sum us) (ht : Phrase .product vs t.toExpr) :
    Reads (.joint sum t outer) (ts ++ (us ++ vs))

theorem Pending.reads_nothing : Pending.nothing.Reads [] :=
  @Pending.Reads.mk .nothing [] [] .none .none

namespace State

theorem reads_start : start.Reads [] := .operand .nil Pending.reads_nothing

theorem phrase_total {sum : Option Tree} {t : Tree} {ts us : List Token}
    (hs : Before .sum .plus sum ts) (ht : Phrase .product us t.toExpr) :
    Phrase .sum (ts ++ us) (total sum t).toExpr := by
  cases hs with
  | none => exact .only ht
  | some h ho =>
    rw [List.append_assoc]
    exact .plus h ho ht

theorem reads_place {p : Pending} {outer : List Pending} {t : Tree} {ts us vs : List Token}
    (h : OuterReads outer ts) (hp : p.Reads us) (ht : Phrase .atom vs t.toExpr) :
    (place p outer t).Reads (ts ++ us ++ vs) := by
  obtain ⟨hs, hf⟩ := hp
  obtain ⟨sum, factor⟩ := p
  rw [List.append_assoc, List.append_assoc]
  refine .joint h hs ?_
  cases hf with
  | none => exact .single ht
  | some hl ho =>
    rw [List.append_assoc]
    exact .times hl ho ht

theorem Reads.step {s s' : State} {p : Placed} {ts : List Token} (h : s.Reads ts)
    (hstep : s.step p = .ok s') : s'.Reads (ts ++ [p.token]) := by
  cases step_eq_ok.1 hstep with
  | number hk =>
    cases h with
    | operand h hp => exact reads_place h hp (.number hk)
  | name hk =>
    cases h with
    | operand h hp => exact reads_place h hp (.name hk)
  | descend hk =>
    cases h with
    | operand h hp =>
      have hopen := Reads.operand (.cons h hp hk) Pending.reads_nothing
      rwa [List.append_nil, ← List.append_assoc] at hopen
  | @plus sum t outer hk =>
    cases h with
    | joint h hs ht =>
      have hp : Pending.Reads ⟨some (total sum t), none⟩ _ :=
        .mk (.some (phrase_total hs ht) hk) .none
      rw [List.append_assoc]
      rw [List.append_nil] at hp
      exact .operand h hp
  | @star sum t outer hk =>
    cases h with
    | joint h hs ht =>
      have hp : Pending.Reads ⟨sum, some t⟩ _ := .mk hs (.some ht hk)
      rw [List.append_assoc, List.append_assoc]
      exact .operand h hp
  | ascend hk =>
    cases h with
    | joint h hs ht =>
      cases h with
      | cons h hp ho =>
        have hgroup := reads_place h hp (.group ho (phrase_total hs ht) hk)
        simpa only [List.append_assoc, List.cons_append, List.nil_append] using hgroup

theorem Reads.run {s s' : State} {ps : List Placed} {ts : List Token} (h : s.Reads ts)
    (hrun : ps.foldlM State.step s = .ok s') : s'.Reads (ts ++ ps.map Placed.token) := by
  induction ps generalizing s ts with
  | nil =>
    cases hrun
    rwa [List.map_nil, List.append_nil]
  | cons p ps ih =>
    rw [List.foldlM_cons, bind_eq_ok] at hrun
    obtain ⟨s₁, hstep, hrun⟩ := hrun
    have hrest := ih (h.step hstep) hrun
    rwa [List.append_assoc] at hrest

theorem Reads.finish {s : State} {t : Tree} {ts : List Token} (h : s.Reads ts)
    (hfinish : s.finish = .ok t) : Phrase .sum ts t.toExpr := by
  cases h with
  | operand h hp => cases hfinish
  | joint h hs ht =>
    cases h with
    | nil =>
      cases hfinish
      rw [List.nil_append]
      exact phrase_total hs ht
    | cons h hp ho => cases hfinish

end State

/-! ## Phrases by the machine -/

namespace State

/-- The awaited phrase of the level has been read by the tokens, whatever stands before it. -/
def Takes : Level → List Placed → Expr → Prop
  | .atom, ps, e => ∀ p outer, ∃ t : Tree, t.toExpr = e ∧
    ps.foldlM step (.operand p outer) = .ok (place p outer t)
  | .product, ps, e => ∀ sum outer, ∃ t : Tree, t.toExpr = e ∧
    ps.foldlM step (.operand ⟨sum, none⟩ outer) = .ok (.joint sum t outer)
  | .sum, ps, e => ∀ outer, ∃ sum t, (total sum t).toExpr = e ∧
    ps.foldlM step (.operand .nothing outer) = .ok (.joint sum t outer)

theorem foldlM_step_append {s s₁ : State} {ps : List Placed} (h : ps.foldlM step s = .ok s₁)
    (qs : List Placed) : (ps ++ qs).foldlM step s = qs.foldlM step s₁ := by
  rw [List.foldlM_append, h, ok_bind]

theorem foldlM_step_cons {s s₁ : State} {p : Placed} (h : s.step p = .ok s₁)
    (ps : List Placed) : (p :: ps).foldlM step s = ps.foldlM step s₁ := by
  rw [List.foldlM_cons, h, ok_bind]

/-- Every phrase is taken. -/
theorem takes_phrase {level : Level} {ts : List Token} {e : Expr} (h : Phrase level ts e)
    {ps : List Placed} (hps : ps.map Placed.token = ts) : Takes level ps e := by
  induction h generalizing ps with
  | number h =>
    obtain ⟨p, rfl, rfl⟩ := List.map_eq_singleton_iff.1 hps
    intro pending outer
    exact ⟨.number p, rfl, foldlM_step_cons (step_eq_ok.2 (.number h)) []⟩
  | name h =>
    obtain ⟨p, rfl, rfl⟩ := List.map_eq_singleton_iff.1 hps
    intro pending outer
    exact ⟨.name p, rfl, foldlM_step_cons (step_eq_ok.2 (.name h)) []⟩
  | group ho h hc ih =>
    obtain ⟨p, tail, rfl, rfl, htail⟩ := List.map_eq_cons_iff.1 hps
    obtain ⟨qs, rest, rfl, hqs, hrest⟩ := List.map_eq_append_iff.1 htail
    obtain ⟨q, rfl, rfl⟩ := List.map_eq_singleton_iff.1 hrest
    intro pending outer
    obtain ⟨sum, t, ht, htake⟩ := ih hqs (pending :: outer)
    refine ⟨total sum t, ht, ?_⟩
    rw [foldlM_step_cons (step_eq_ok.2 (.descend ho)), foldlM_step_append htake,
      foldlM_step_cons (step_eq_ok.2 (.ascend hc))]
    rfl
  | single h ih =>
    intro sum outer
    exact ih hps ⟨sum, none⟩ outer
  | times hl ho hr ihl ihr =>
    obtain ⟨os, rest, rfl, hos, hrest⟩ := List.map_eq_append_iff.1 hps
    obtain ⟨p, qs, rfl, rfl, hqs⟩ := List.map_eq_cons_iff.1 hrest
    intro sum outer
    obtain ⟨l, rfl, hleft⟩ := ihl hos sum outer
    obtain ⟨r, rfl, hright⟩ := ihr hqs ⟨sum, some l⟩ outer
    refine ⟨.product l r, rfl, ?_⟩
    rw [foldlM_step_append hleft, foldlM_step_cons (step_eq_ok.2 (.star ho)), hright]
    rfl
  | only h ih =>
    intro outer
    obtain ⟨t, ht, htake⟩ := ih hps none outer
    exact ⟨none, t, ht, htake⟩
  | plus hl ho hr ihl ihr =>
    obtain ⟨os, rest, rfl, hos, hrest⟩ := List.map_eq_append_iff.1 hps
    obtain ⟨p, qs, rfl, rfl, hqs⟩ := List.map_eq_cons_iff.1 hrest
    intro outer
    obtain ⟨sum, l, rfl, hleft⟩ := ihl hos outer
    obtain ⟨r, rfl, hright⟩ := ihr hqs (some (total sum l)) outer
    refine ⟨some (total sum l), r, rfl, ?_⟩
    rw [foldlM_step_append hleft, foldlM_step_cons (step_eq_ok.2 (.plus ho)), hright]

end State

theorem parse_eq_ok_iff_read {text : String} {e : Expr} :
    parse text = .ok e ↔ ∃ t, Tree.read text = .ok t ∧ t.toExpr = e := by
  rw [parse]
  cases Tree.read text <;> simp [Except.map]

/-- A text is read exactly when all of it is tokens and they are a sum. -/
theorem parse_eq_ok {text : String} {e : Expr} : parse text = .ok e ↔
    (lex .start text.toList).stray = none ∧
      Phrase .sum ((lex .start text.toList).tokens.map Placed.token) e := by
  rw [parse_eq_ok_iff_read]
  constructor
  · rintro ⟨t, ht, rfl⟩
    obtain ⟨hstray, s, hrun, hfinish⟩ := State.run_eq_ok.1 ht
    exact ⟨hstray, (State.reads_start.run hrun).finish hfinish⟩
  · rintro ⟨hstray, h⟩
    obtain ⟨sum, t, ht, htake⟩ := State.takes_phrase h rfl []
    exact ⟨State.total sum t, State.run_eq_ok.2 ⟨hstray, _, htake, rfl⟩, ht⟩

end Abacus.Infix
