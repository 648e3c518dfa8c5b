import Abacus.Proofs.Infix.Acceptance
import Abacus.Proofs.Infix.CutInto

/-!
# Texts that can still be completed

Whatever tokens the reader has taken, they are the beginning of a text that it accepts: an operand
can stand wherever one is awaited, and behind it every open parenthesis can be closed. So a text
that the reader has taken up to some place can be completed, and only what comes next there decides
whether a longer part of it can.
-/

namespace Abacus.Infix

open Answer

/-- The characters are the beginning of an accepted text. -/
def Viable (cs : List Char) : Prop :=
  ∃ text e, parse text = .ok e ∧ cs <+: text.toList

/-! ## Completing what has been taken -/

theorem Blank.append_spaced {gap cs : List Char} {ts : List Token} (hg : Blank gap)
    (h : Spaced cs ts) : Spaced (gap ++ cs) ts := by
  induction gap with
  | nil => exact h
  | cons c gap ih =>
    obtain ⟨hc, hgap⟩ := List.forall_mem_cons.1 hg
    exact (ih hgap).blank hc

theorem Spaced.append {cs ds : List Char} {ts us : List Token} (h : Spaced cs ts)
    (hd : Spaced ds us) : Spaced (cs ++ ds) (ts ++ us) := by
  induction h with
  | nil hg => exact hg.append_spaced hd
  | cons hg h ih =>
    rw [List.append_assoc, List.append_assoc]
    exact .cons hg ih

/-- Every list of tokens is spelled by some text. -/
theorem exists_spaced (ts : List Token) : ∃ cs, Spaced cs ts := by
  induction ts with
  | nil => exact ⟨[], .nil blank_nil⟩
  | cons t ts ih =>
    obtain ⟨cs, h⟩ := ih
    exact ⟨_, .cons blank_nil h⟩

namespace State

/-- The tokens lead from the state to the end of a text. -/
def Completes (s : State) (us : List Placed) : Prop :=
  (∀ u ∈ us, u.token.Valid) ∧ ∃ s' t, us.foldlM step s = .ok s' ∧ s'.finish = .ok t

theorem Completes.cons {s s' : State} {u : Placed} {us : List Placed} (hu : u.token.Valid)
    (hstep : s.step u = .ok s') (h : s'.Completes us) : s.Completes (u :: us) := by
  obtain ⟨hus, hrun⟩ := h
  refine ⟨List.forall_mem_cons.2 ⟨hu, hus⟩, ?_⟩
  rwa [foldlM_step_cons hstep]

/-- Closing every open level comes to the end. -/
theorem exists_completes_joint (sum : Option Tree) (product : Tree) (outer : List Pending) :
    ∃ us, (joint sum product outer).Completes us := by
  induction outer generalizing sum product with
  | nil => exact ⟨[], fun u hu => (nomatch hu), _, _, rfl, rfl⟩
  | cons p outer ih =>
    have hclosed : ∃ us, (place p outer (total sum product)).Completes us := ih _ _
    obtain ⟨us, hus⟩ := hclosed
    exact ⟨⟨.closing, .start⟩ :: us, hus.cons Token.valid_closing rfl⟩

theorem exists_completes (s : State) : ∃ us, s.Completes us := by
  cases s with
  | joint sum product outer => exact exists_completes_joint sum product outer
  | operand p outer =>
    have hplaced : ∃ us, (place p outer (.number ⟨.ofInt 0, .start⟩)).Completes us :=
      exists_completes_joint _ _ outer
    obtain ⟨us, hus⟩ := hplaced
    exact ⟨⟨.ofInt 0, .start⟩ :: us, hus.cons (Token.valid_ofInt 0) rfl⟩

/-- Whether a token is taken depends on its kind alone. -/
theorem exists_step_of_kind {s s' : State} {p q : Placed} (h : s.step p = .ok s')
    (hk : q.token.kind = p.token.kind) : ∃ s'', s.step q = .ok s'' := by
  cases step_eq_ok.1 h with
  | number hp => exact ⟨_, step_eq_ok.2 (.number (hk.trans hp))⟩
  | name hp => exact ⟨_, step_eq_ok.2 (.name (hk.trans hp))⟩
  | descend hp => exact ⟨_, step_eq_ok.2 (.descend (hk.trans hp))⟩
  | plus hp => exact ⟨_, step_eq_ok.2 (.plus (hk.trans hp))⟩
  | star hp => exact ⟨_, step_eq_ok.2 (.star (hk.trans hp))⟩
  | ascend hp => exact ⟨_, step_eq_ok.2 (.ascend (hk.trans hp))⟩

end State

section Taken

variable {rest cs : List Char} {ts : List Placed} {s : State}

/-- What the reader has taken is the beginning of an accepted text. -/
theorem CutInto.viable (hcut : CutInto rest .start cs ts)
    (hs : ts.foldlM State.step .start = .ok s) : Viable cs := by
  obtain ⟨us, hus, s', t, hrun, hfinish⟩ := s.exists_completes
  obtain ⟨ds, hds⟩ := exists_spaced (us.map Placed.token)
  obtain ⟨hspaced, hvalid⟩ := hcut.spaced
  have hphrase : Phrase .sum (ts.map Placed.token ++ us.map Placed.token) t.toExpr :=
    ((State.reads_start.run hs).run hrun).finish hfinish
  have hcompleted : Cut (String.ofList (cs ++ ds)) (ts.map Placed.token ++ us.map Placed.token) := by
    refine ⟨?_, List.forall_mem_append.2 ⟨hvalid, List.forall_mem_map.2 hus⟩⟩
    rw [String.toList_ofList]
    exact hspaced.append hds
  refine ⟨String.ofList (cs ++ ds), t.toExpr, parse_eq_ok_iff_cut.2 ⟨_, hcompleted, hphrase⟩, ?_⟩
  rw [String.toList_ofList]
  exact List.prefix_append cs ds

/-- Where a longer part of the text can be completed, a token begins that the reader takes. -/
theorem CutInto.exists_step {c : Char} {ds : List Char} (hcut : CutInto (c :: rest) .start cs ts)
    (hs : ts.foldlM State.step .start = .ok s) (hc : ¬isBlank c) (h : Viable (cs ++ c :: ds)) :
    ∃ more t after s', Token.read? c (ds ++ more) = some (t, after) ∧
      s.step ⟨t, Text.Place.start.advance cs⟩ = .ok s' := by
  obtain ⟨text, e, hparse, more, htext⟩ := h
  rw [List.append_assoc, List.cons_append] at htext
  obtain ⟨tree, hread, -⟩ := parse_eq_ok_iff_read.1 hparse
  obtain ⟨hstray, s₁, hrun, -⟩ := State.run_eq_ok.1 hread
  have hcut' : CutInto (c :: (ds ++ more)) .start cs ts := hcut.resume fun k hk => hk
  rw [← htext, hcut'.lex_append] at hstray hrun
  cases hnext : Token.read? c (ds ++ more) with
  | none =>
    rw [State.lex_stray hc hnext] at hstray
    cases hstray
  | some found =>
    obtain ⟨t, after⟩ := found
    rw [State.foldlM_step_append hs, lex_token hc hnext, Lexed.cons, List.foldlM_cons,
      bind_eq_ok] at hrun
    obtain ⟨s', hstep, -⟩ := hrun
    exact ⟨more, t, after, s', hnext, hstep⟩

end Taken

end Abacus.Infix
