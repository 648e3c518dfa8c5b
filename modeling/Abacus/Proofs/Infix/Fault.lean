import Abacus.Proofs.Infix.Viable

/-!
# Where a fault points

A rejected text has been cut and taken up to the place of its fault, so that it could still be
completed from there, and the next token or character is one with which it cannot. Only the end of a
text has no character to point at: there it is the last token that the fault is placed at.
-/

namespace Abacus.Infix

/-- The place of the last token, or the given one if there is none. -/
def lastPlace (first : Text.Place) : List Placed → Text.Place
  | [] => first
  | t :: ts => lastPlace t.place ts

theorem lastPlace_eq (first : Text.Place) (ts : List Placed) :
    lastPlace first ts = first ∧ ts = [] ∨ ∃ t ∈ ts, lastPlace first ts = t.place := by
  induction ts generalizing first with
  | nil => exact .inl ⟨rfl, rfl⟩
  | cons t ts ih =>
    refine .inr ?_
    rcases ih t.place with ⟨hlast, -⟩ | ⟨u, hu, hlast⟩
    · exact ⟨t, List.mem_cons_self, hlast⟩
    · exact ⟨u, List.mem_cons_of_mem t hu, hlast⟩

/-- How the state, with these characters still to be cut, ends in the fault: the text is over, its
next token is refused, or no token begins. The next character stands at `p`, and `last` is where the
token before it does. -/
inductive Halt (s : State) (last p : Text.Place) : List Char → ReadFault → Prop where
  | finish {expected : List String} (h : s.finish = .error expected) :
    Halt s last p [] ⟨.nothing, last, expected⟩
  | token {c : Char} {rest after : List Char} {t : Token} {expected : List String}
    (hc : ¬isBlank c) (hread : Token.read? c rest = some (t, after))
    (hstep : s.step ⟨t, p⟩ = .error expected) : Halt s last p (c :: rest) ⟨.token t, p, expected⟩
  | stray {c : Char} {rest : List Char} (hc : ¬isBlank c) (hread : Token.read? c rest = none) :
    Halt s last p (c :: rest) ⟨.stray c, p, s.labels⟩

/-- A run that fails has taken all tokens up to where it halts. -/
theorem exists_halt {s : State} {last p : Text.Place} {cs : List Char} {f : ReadFault}
    (h : s.run last (lex p cs).stray (lex p cs).tokens = .error f) :
    ∃ before rest ts s', cs = before ++ rest ∧ CutInto rest p before ts ∧
      ts.foldlM State.step s = .ok s' ∧ Halt s' (lastPlace last ts) (p.advance before) rest f := by
  fun_induction lex p cs generalizing s last with
  | case1 p =>
    refine ⟨[], [], [], s, rfl, .nil, rfl, ?_⟩
    rw [State.run] at h
    cases hfinish : s.finish with
    | ok t =>
      simp only [hfinish] at h
      cases h
    | error expected =>
      simp only [hfinish] at h
      cases h
      exact .finish hfinish
  | case2 p c rest hc ih =>
    obtain ⟨before, rest', ts, s', rfl, hcut, hs, hhalt⟩ := ih h
    exact ⟨c :: before, rest', ts, s', rfl, .blank hc hcut, hs, hhalt⟩
  | case3 p c rest hc hread =>
    cases h
    exact ⟨[], c :: rest, [], s, rfl, .nil, rfl, .stray hc hread⟩
  | case4 p c rest hc t after hread ih =>
    rw [Lexed.cons, State.run] at h
    cases hstep : s.step ⟨t, p⟩ with
    | error expected =>
      simp only [hstep] at h
      cases h
      exact ⟨[], c :: rest, [], s, rfl, .nil, rfl, .token hc hread hstep⟩
    | ok s₁ =>
      simp only [hstep] at h
      obtain ⟨before, rest', ts, s', rfl, hcut, hs, hhalt⟩ := ih h
      obtain ⟨ht, happend, hends⟩ := read?_eq_some.1 hread
      refine ⟨t.lexeme ++ before, rest', ⟨t, p⟩ :: ts, s', ?_, .token ht hends hcut, ?_, ?_⟩
      · rw [← happend, List.append_assoc]
      · rw [State.foldlM_step_cons hstep, hs]
      · rw [Text.Place.advance_append]
        exact hhalt

/-! ## What a fault tells -/

/-- The place is one in the text, with the line and column that it has there. -/
structure Located (cs : List Char) (p : Text.Place) : Prop where
  offset_le : p.offset ≤ cs.length
  line : p.line = 1 + (cs.take p.offset).count '\n'
  column : p.column = 1 + ((cs.take p.offset).reverse.takeWhile (· != '\n')).length

/-- The first `n` characters of the text are blanks and the tokens, and the reader takes these. -/
structure Taken (cs : List Char) (n : Nat) (ts : List Placed) : Prop where
  cut : CutInto (cs.drop n) .start (cs.take n) ts
  taken : ∃ s, ts.foldlM State.step .start = .ok s

/-- The fault points at the first place from which the text cannot be completed. -/
structure ReadFault.PointsInto (f : ReadFault) (cs : List Char) : Prop where
  located : Located cs f.place
  /-- A text that ends too early could still be completed. The place is its last token's. -/
  nothing : f.found = .nothing →
    Viable cs ∧ ∃ ts, Taken cs cs.length ts ∧ f.place = lastPlace .start ts
  /-- Any other text could be completed from the place on, which is the first behind the last token
  taken that is no blank. -/
  something : f.found ≠ .nothing →
    Viable (cs.take f.place.offset) ∧ (∃ ts, Taken cs f.place.offset ts) ∧
      ∃ c, cs[f.place.offset]? = some c ∧ ¬isBlank c
  token : ∀ w, f.found = .token w → w.lexeme <+: cs.drop f.place.offset ∧
    ¬Viable (cs.take f.place.offset ++ w.lexeme)
  /-- A minus sign alone could still be the sign of a number. -/
  stray : ∀ c, f.found = .stray c → cs[f.place.offset]? = some c ∧
    (∀ t : Token, t.Valid → ¬t.lexeme <+: cs.drop f.place.offset) ∧
    (c ≠ '-' → ¬Viable (cs.take (f.place.offset + 1))) ∧
    (c = '-' → f.place.offset + 1 < cs.length → ¬Viable (cs.take (f.place.offset + 2)))

theorem offset_advance_start (cs : List Char) :
    (Text.Place.start.advance cs).offset = cs.length := by
  rw [Text.Place.offset_advance]
  exact Nat.zero_add cs.length

theorem located_advance (before rest : List Char) :
    Located (before ++ rest) (Text.Place.start.advance before) := by
  refine ⟨?_, ?_, ?_⟩ <;> rw [offset_advance_start]
  · exact (List.prefix_append before rest).length_le
  · rw [List.take_left]
    exact Text.Place.line_advance .start before
  · rw [List.take_left]
    exact Text.Place.column_advance before

theorem getElem?_append_length (before : List Char) (c : Char) (rest : List Char) :
    (before ++ c :: rest)[before.length]? = some c := by
  rw [List.getElem?_append_right (Nat.le_refl _), Nat.sub_self, List.getElem?_cons_zero]

section Taken

variable {before rest : List Char} {ts : List Placed} {s : State}

theorem CutInto.taken (hcut : CutInto rest .start before ts)
    (hs : ts.foldlM State.step .start = .ok s) : Taken (before ++ rest) before.length ts := by
  refine ⟨?_, s, hs⟩
  rwa [List.drop_left, List.take_left]

theorem CutInto.located_lastPlace (hcut : CutInto rest .start before ts) :
    Located before (lastPlace .start ts) := by
  rcases lastPlace_eq .start ts with ⟨hlast, -⟩ | ⟨t, ht, hlast⟩ <;> rw [hlast]
  · exact located_advance [] before
  · obtain ⟨front, after, rfl, hp⟩ := hcut.place_eq ht
    rw [hp]
    exact located_advance front _

/-- Where a reader stops before the end, what comes next is no blank. -/
theorem CutInto.stops {c : Char} (hcut : CutInto (c :: rest) .start before ts)
    (hs : ts.foldlM State.step .start = .ok s) (hc : ¬isBlank c) :
    Viable ((before ++ c :: rest).take before.length) ∧
      (∃ ts, Taken (before ++ c :: rest) before.length ts) ∧
      ∃ d, (before ++ c :: rest)[before.length]? = some d ∧ ¬isBlank d := by
  refine ⟨?_, ⟨ts, hcut.taken hs⟩, c, ?_, hc⟩
  · rw [List.take_left]
    exact hcut.viable hs
  · exact getElem?_append_length before c rest

/-- A refused token cannot be part of any accepted text there, not even as the beginning of a longer
one. -/
theorem CutInto.not_viable_token {c : Char} {lexeme : List Char} {w : Token}
    {expected : List String} (hcut : CutInto (c :: rest) .start before ts)
    (hs : ts.foldlM State.step .start = .ok s) (hc : ¬isBlank c) (hw : w.Valid)
    (hl : w.lexeme = c :: lexeme)
    (hstep : s.step ⟨w, Text.Place.start.advance before⟩ = .error expected) :
    ¬Viable (before ++ w.lexeme) := by
  intro hviable
  rw [hl] at hviable
  obtain ⟨more, t, after, s', hread, hstep'⟩ := hcut.exists_step hs hc hviable
  rw [read?_append hw hl, Option.some.injEq, Prod.mk.injEq] at hread
  obtain ⟨rfl, -⟩ := hread
  obtain ⟨s'', hsame⟩ := State.exists_step_of_kind
    (q := ⟨w, Text.Place.start.advance before⟩) hstep' rfl
  rw [hstep] at hsame
  cases hsame

/-- Nor can a character with which no token begins, whatever comes behind what decides on that. -/
theorem CutInto.not_viable_stray {c : Char} {ds : List Char}
    (hcut : CutInto (c :: rest) .start before ts) (hs : ts.foldlM State.step .start = .ok s)
    (hc : ¬isBlank c) (hread : ∀ more, Token.read? c (ds ++ more) = none) :
    ¬Viable (before ++ c :: ds) := by
  intro hviable
  obtain ⟨more, t, after, s', hsome, -⟩ := hcut.exists_step hs hc hviable
  rw [hread] at hsome
  cases hsome

end Taken

theorem not_prefix_of_read? {c : Char} {rest : List Char} (h : Token.read? c rest = none)
    {t : Token} (ht : t.Valid) : ¬t.lexeme <+: c :: rest := by
  rintro ⟨after, happend⟩
  obtain ⟨d, cs, hl, -, -⟩ := ht.exists_cons
  rw [hl, List.cons_append] at happend
  obtain ⟨rfl, rfl⟩ := List.cons.inj happend
  rw [read?_append ht hl] at h
  cases h

/-- A state that halts behind what it has taken gives a fault that points there. -/
theorem Halt.pointsInto {before rest : List Char} {ts : List Placed} {s : State} {f : ReadFault}
    (h : Halt s (lastPlace .start ts) (Text.Place.start.advance before) rest f)
    (hcut : CutInto rest .start before ts) (hs : ts.foldlM State.step .start = .ok s) :
    f.PointsInto (before ++ rest) := by
  have hn : (Text.Place.start.advance before).offset = before.length :=
    offset_advance_start before
  cases h with
  | finish hfinish =>
    have htaken := hcut.taken hs
    rw [List.append_nil] at htaken ⊢
    exact ⟨hcut.located_lastPlace, fun _ => ⟨hcut.viable hs, ts, htaken, rfl⟩,
      fun hne => absurd rfl hne, fun w hw => Found.noConfusion hw,
      fun c hc => Found.noConfusion hc⟩
  | @token c rest after t expected hc hread hstep =>
    obtain ⟨ht, happend, -⟩ := read?_eq_some.1 hread
    obtain ⟨d, lexeme, hl, -, -⟩ := ht.exists_cons
    obtain ⟨rfl, -⟩ := List.cons.inj (hl ▸ happend)
    refine ⟨located_advance before _, fun h => Found.noConfusion h, ?_, ?_,
      fun c hc => Found.noConfusion hc⟩ <;> simp only [hn]
    · exact fun _ => hcut.stops hs hc
    · intro w hw
      cases hw
      rw [List.drop_left, List.take_left]
      exact ⟨⟨after, happend⟩, hcut.not_viable_token hs hc ht hl hstep⟩
  | @stray c rest hc hread =>
    refine ⟨located_advance before _, fun h => Found.noConfusion h, ?_,
      fun w hw => Found.noConfusion hw, ?_⟩ <;> simp only [hn]
    · exact fun _ => hcut.stops hs hc
    · intro d hd
      cases hd
      refine ⟨?_, ?_, ?_, ?_⟩
      · exact getElem?_append_length before c rest
      · rw [List.drop_left]
        exact fun t ht => not_prefix_of_read? hread ht
      · intro hminus
        rw [List.take_length_add_append]
        exact hcut.not_viable_stray hs hc fun more =>
          read?_eq_none_of_head hread fun heq => absurd heq hminus
      · -- The character behind the sign is in the text, and it is no digit.
        intro hminus hlt
        obtain ⟨d, rest', rfl⟩ : ∃ d rest', rest = d :: rest' := by
          refine List.exists_cons_of_ne_nil ?_
          rintro rfl
          simp at hlt
        rw [List.take_length_add_append]
        exact hcut.not_viable_stray hs hc fun more => read?_eq_none_of_head hread fun _ => rfl

theorem parse_eq_error_iff_read {text : String} {f : ReadFault} :
    parse text = .error f ↔ Tree.read text = .error f := by
  rw [parse]
  cases Tree.read text <;> simp [Except.map]

/-- Whatever text is rejected, its fault points at the first place where it cannot go on. -/
theorem parse_fault_points {text : String} {f : ReadFault} (h : parse text = .error f) :
    f.PointsInto text.toList := by
  rw [parse_eq_error_iff_read, Tree.read] at h
  obtain ⟨before, rest, ts, s, htext, hcut, hs, hhalt⟩ := exists_halt h
  rw [htext]
  exact hhalt.pointsInto hcut hs

/-- A parenthesis that stays open, a number behind a name, and a minus sign without a number. -/
theorem parse_fault_points_each :
    (parse "(x *\n 2 " = .error ⟨.nothing, ⟨6, 2, 2⟩, ["PLUS", "RPAR"]⟩ ∧
      ReadFault.PointsInto ⟨.nothing, ⟨6, 2, 2⟩, ["PLUS", "RPAR"]⟩ "(x *\n 2 ".toList) ∧
    (parse "x\n 12y" =
        .error ⟨.token ⟨.int, ['1', '2']⟩, ⟨3, 2, 2⟩, ["PLUS", "RPAR", "STAR"]⟩ ∧
      ReadFault.PointsInto ⟨.token ⟨.int, ['1', '2']⟩, ⟨3, 2, 2⟩, ["PLUS", "RPAR", "STAR"]⟩
        "x\n 12y".toList) ∧
    parse "(x +\n y -z" = .error ⟨.stray '-', ⟨8, 2, 4⟩, ["PLUS", "RPAR", "STAR"]⟩ ∧
      ReadFault.PointsInto ⟨.stray '-', ⟨8, 2, 4⟩, ["PLUS", "RPAR", "STAR"]⟩
        "(x +\n y -z".toList := by
  have hend : parse "(x *\n 2 " = .error ⟨.nothing, ⟨6, 2, 2⟩, ["PLUS", "RPAR"]⟩ :=
    parse_eq_error_iff_read.2 (by decide +kernel)
  have htoken : parse "x\n 12y" =
      .error ⟨.token ⟨.int, ['1', '2']⟩, ⟨3, 2, 2⟩, ["PLUS", "RPAR", "STAR"]⟩ :=
    parse_eq_error_iff_read.2 (by decide +kernel)
  have hstray : parse "(x +\n y -z" =
      .error ⟨.stray '-', ⟨8, 2, 4⟩, ["PLUS", "RPAR", "STAR"]⟩ :=
    parse_eq_error_iff_read.2 (by decide +kernel)
  exact ⟨⟨hend, parse_fault_points hend⟩, ⟨htoken, parse_fault_points htoken⟩,
    hstray, parse_fault_points hstray⟩

end Abacus.Infix
