import Abacus.Binary64.Text
import Abacus.Datum.Same
import Abacus.Json.Fault
import Abacus.Text.Numeral
import Abacus.Text.Quoted

/-!
# Reading JSON

The reader is a machine that walks over the characters once. Its state says what may come next and
which arrays and objects are still open, so that a fault is always found at the first character
that cannot continue the text. Three words besides the standard ones stand for the numbers that
have no numeral.

There may be a limit on the digits of a whole number. It counts where the number stands, so that a
fault behind the number is not found, and it does not count for floating-point values. The other
limits of the runtime are left out: arrays and objects may be nested to any depth.
-/

namespace Abacus.Json

open Text (backslash doubleQuote)

/-- A fault found at the head of the remaining characters. -/
structure Misread where
  cause : Cause
  rest : List Char

/-- Why the reader cannot go on. -/
inductive Stuck where
  | misread (it : Misread)
  | tooManyDigits (count limit : Nat)

/-- The limit on the digits of a whole number that holds unless another one is set. -/
def defaultLimit : Option Nat := some 4300

def isBlank (c : Char) : Bool := c == ' ' || c == '\t' || c == '\n' || c == '\r'

/-! ## Strings -/

def hexValue? (c : Char) : Option Nat :=
  if c.isDigit then some (c.toNat - 48)
  else if 'a' ≤ c ∧ c ≤ 'f' then some (c.toNat - 87)
  else if 'A' ≤ c ∧ c ≤ 'F' then some (c.toNat - 55)
  else none

/-- The number that four hexadecimal digits write. -/
def hexQuad? (cs : List Char) : Option Nat :=
  (cs.mapM hexValue?).map fun ds => ds.foldl (fun n d => 16 * n + d) 0

/-- What a backslash makes of the character behind it, the code point escape apart. -/
def unescape? (c : Char) : Option Char :=
  if c = doubleQuote ∨ c = backslash ∨ c = '/' then some c
  else if c = 'b' then some '\x08'
  else if c = 'f' then some '\x0c'
  else if c = 'n' then some '\n'
  else if c = 'r' then some '\r'
  else if c = 't' then some '\t'
  else none

/-- Reads a string behind its opening quote into UTF-16 units and whole code points, up to and
including the closing quote. `opening` is the text from the opening quote on. A code point escape
counts only if a character follows its digits. -/
def readUnits (opening : List Char) : List Char → Except Misread (List Nat × List Char)
  | [] => .error ⟨.unterminated, opening⟩
  | c :: rest =>
    if c = doubleQuote then .ok ([], rest)
    else if c = backslash then
      match rest with
      | [] => .error ⟨.unterminated, opening⟩
      | e :: rest' =>
        if e = 'u' then
          if (rest'.drop 4).isEmpty then .error ⟨.badCodePoint, rest⟩
          else
            match hexQuad? (rest'.take 4) with
            | none => .error ⟨.badCodePoint, rest⟩
            | some u =>
              match readUnits opening (rest'.drop 4) with
              | .error it => .error it
              | .ok (us, after) => .ok (u :: us, after)
        else
          match unescape? e with
          | none => .error ⟨.badEscape, c :: rest⟩
          | some d =>
            match readUnits opening rest' with
            | .error it => .error it
            | .ok (us, after) => .ok (d.toNat :: us, after)
    else if c.toNat < 0x20 then .error ⟨.controlCharacter, c :: rest⟩
    else
      match readUnits opening rest with
      | .error it => .error it
      | .ok (us, after) => .ok (c.toNat :: us, after)
termination_by cs => cs.length
decreasing_by
  · exact Nat.lt_of_le_of_lt (List.drop_suffix 4 rest').length_le
      (Nat.lt_succ_of_lt (Nat.lt_succ_self rest'.length))
  · exact Nat.lt_succ_of_lt (Nat.lt_succ_self rest'.length)
  · exact Nat.lt_succ_self rest.length

theorem suffix_of_readUnits {opening cs after : List Char} {us : List Nat}
    (h : readUnits opening cs = .ok (us, after)) : after <:+ cs.tail := by
  fun_induction readUnits opening cs generalizing us with
  | case2 =>
    cases h
    exact List.suffix_refl _
  | case7 =>
    rename_i hread _ ih
    cases h
    exact (ih hread).trans ((List.tail_suffix _).trans
      ((List.drop_suffix 4 _).trans (List.suffix_cons _ _)))
  | case10 =>
    rename_i hread _ ih
    cases h
    exact (ih hread).trans ((List.tail_suffix _).trans (List.suffix_cons _ _))
  | case13 =>
    rename_i hread ih
    cases h
    exact (ih hread).trans (List.tail_suffix _)
  | _ => cases h

/-- Joins the two halves of each surrogate pair. A half on its own becomes the replacement
character. -/
def joinUnits : List Nat → List Char
  | [] => []
  | [u] => [if 0xd800 ≤ u ∧ u < 0xe000 then '\ufffd' else Char.ofNat u]
  | u :: v :: us =>
    if 0xd800 ≤ u ∧ u < 0xdc00 ∧ 0xdc00 ≤ v ∧ v < 0xe000 then
      Char.ofNat (0x10000 + (u - 0xd800) * 0x400 + (v - 0xdc00)) :: joinUnits us
    else
      (if 0xd800 ≤ u ∧ u < 0xe000 then '\ufffd' else Char.ofNat u) :: joinUnits (v :: us)

/-- Reads a string that begins with its opening quote. -/
def readString (opening : List Char) : Except Misread (String × List Char) :=
  match readUnits opening opening.tail with
  | .error it => .error it
  | .ok (us, after) => .ok (String.ofList (joinUnits us), after)

/-! ## Words and numbers -/

/-- The words that stand for a value. -/
def words : List (List Char × Datum) :=
  [("null".toList, .null), ("true".toList, .bool true), ("false".toList, .bool false),
   ("NaN".toList, .float .nan), ("Infinity".toList, .float (.infinity false)),
   ("-Infinity".toList, .float (.infinity true))]

def readWord? (cs : List Char) : Option (Datum × List Char) :=
  words.findSome? fun w => if w.1.isPrefixOf cs then some (w.2, cs.drop w.1.length) else none

/-- The limit, if this many digits are too many for it. -/
def exceeded? (limit : Option Nat) (count : Nat) : Option Nat :=
  limit.filter fun most => decide (most < count)

/-- A numeral with a point or a power of ten is a floating-point value. -/
def ofNumeral (limit : Option Nat) (n : Text.Numeral) : Except Stuck Datum :=
  if n.isWhole then
    match exceeded? limit n.whole.length with
    | some most => .error (.tooManyDigits n.whole.length most)
    | none => .ok (.int n.toInt)
  else .ok (.float (.ofNumeral n))

def readScalar (limit : Option Nat) (cs : List Char) : Except Stuck (Datum × List Char) :=
  match readWord? cs with
  | some found => .ok found
  | none =>
    match Text.Numeral.read? cs with
    | none => .error (.misread ⟨.value, cs⟩)
    | some (n, after) => (ofNumeral limit n).map fun d => (d, after)

/-! ## Arrays and objects -/

/-- An array or object that is still open: what it holds so far, an array's items latest first. -/
inductive Frame where
  | array (items : List Datum)
  | object (entries : List (Datum × Datum)) (key : String)

/-- What may come next. -/
inductive Expectation where
  /-- A value. -/
  | value
  /-- The first item of an array, or its end. -/
  | firstItem
  /-- The first key of an object, or its end. -/
  | firstKey
  /-- The next key of an object with these entries. -/
  | key (entries : List (Datum × Datum))
  /-- The colon behind a key of an object with these entries. -/
  | colon (entries : List (Datum × Datum)) (key : String)
  /-- What follows a complete value. -/
  | after (value : Datum)

structure State where
  expects : Expectation
  frames : List Frame

/-- What a step leaves: the next state and the characters still to be read. -/
abbrev Step := Except Stuck (State × List Char)

/-- Reads a string and goes on in the state that it leads to. -/
def withString (here : List Char) (next : String → State) : Step :=
  match readString here with
  | .error it => .error (.misread it)
  | .ok (s, after) => .ok (next s, after)

/-- The first character of a key. -/
def startKey (entries : List (Datum × Datum)) (frames : List Frame) (c : Char)
    (rest : List Char) : Step :=
  if c = doubleQuote then withString (c :: rest) fun k => ⟨.colon entries k, frames⟩
  else .error (.misread ⟨.propertyName, c :: rest⟩)

/-- The first character of a value. -/
def startValue (limit : Option Nat) (frames : List Frame) (c : Char) (rest : List Char) : Step :=
  if c = doubleQuote then withString (c :: rest) fun s => ⟨.after (.text s), frames⟩
  else if c = '\x7b' then .ok (⟨.firstKey, frames⟩, rest)
  else if c = '[' then .ok (⟨.firstItem, frames⟩, rest)
  else (readScalar limit (c :: rest)).map fun (d, after) => (⟨.after d, frames⟩, after)

/-- The first character behind a complete value. -/
def afterValue (d : Datum) (frames : List Frame) (c : Char) (rest : List Char) : Step :=
  match frames with
  | [] => .error (.misread ⟨.extraData, c :: rest⟩)
  | .array items :: frames =>
    if c = ',' then .ok (⟨.value, .array (d :: items) :: frames⟩, rest)
    else if c = ']' then .ok (⟨.after (.list (d :: items).reverse), frames⟩, rest)
    else .error (.misread ⟨.comma, c :: rest⟩)
  | .object entries k :: frames =>
    if c = ',' then .ok (⟨.key (Datum.put (.text k) d entries), frames⟩, rest)
    else if c = '\x7d' then .ok (⟨.after (.mapping (Datum.put (.text k) d entries)), frames⟩, rest)
    else .error (.misread ⟨.comma, c :: rest⟩)

/-- One step at a character that is not blank. -/
def State.step (s : State) (limit : Option Nat) (c : Char) (rest : List Char) : Step :=
  match s.expects with
  | .value => startValue limit s.frames c rest
  | .firstItem =>
    if c = ']' then .ok (⟨.after (.list []), s.frames⟩, rest)
    else startValue limit (.array [] :: s.frames) c rest
  | .firstKey =>
    if c = '\x7d' then .ok (⟨.after (.mapping []), s.frames⟩, rest)
    else startKey [] s.frames c rest
  | .key entries => startKey entries s.frames c rest
  | .colon entries k =>
    if c = ':' then .ok (⟨.value, .object entries k :: s.frames⟩, rest)
    else .error (.misread ⟨.colon, c :: rest⟩)
  | .after d => afterValue d s.frames c rest

/-- What is missing at the end of the text. -/
def Expectation.missing : Expectation → Cause
  | .value | .firstItem => .value
  | .firstKey | .key _ => .propertyName
  | .colon _ _ => .colon
  | .after _ => .comma

/-- The value of a text that has come to its end. -/
def State.finish (s : State) : Except Stuck Datum :=
  match s.expects, s.frames with
  | .after d, [] => .ok d
  | e, _ => .error (.misread ⟨e.missing, []⟩)

/-! ## What a step leaves

The characters behind a step are an end of those behind the character that it began at.
-/

theorem suffix_of_withString {here after : List Char} {next : String → State} {t : State}
    (h : withString here next = .ok (t, after)) : after <:+ here.tail := by
  unfold withString readString at h
  split at h
  · cases h
  · rename_i hs
    split at hs
    · cases hs
    · rename_i hunits
      cases hs
      cases h
      exact (suffix_of_readUnits hunits).trans (List.tail_suffix _)

theorem suffix_of_readWord? {cs after : List Char} {d : Datum}
    (h : readWord? cs = some (d, after)) : after <:+ cs.tail := by
  obtain ⟨w, hw, hd⟩ := List.exists_of_findSome?_eq_some h
  have hnonempty : ∀ w ∈ words, ∃ n, w.1.length = n + 1 := by
    intro w hw
    simp only [words, List.mem_cons, List.not_mem_nil, or_false] at hw
    rcases hw with rfl | rfl | rfl | rfl | rfl | rfl <;> exact ⟨_, rfl⟩
  obtain ⟨n, hn⟩ := hnonempty w hw
  split at hd
  · cases hd
    rw [hn, ← List.drop_tail]
    exact List.drop_suffix n cs.tail
  · cases hd

variable {limit : Option Nat}

theorem suffix_of_readScalar {cs after : List Char} {d : Datum}
    (h : readScalar limit cs = .ok (d, after)) : after <:+ cs.tail := by
  unfold readScalar at h
  split at h
  · rename_i hword
    cases h
    exact suffix_of_readWord? hword
  · split at h
    · cases h
    · rename_i n rest hnumeral
      cases hd : ofNumeral limit n with
      | error stuck =>
        rw [hd] at h
        cases h
      | ok d =>
        rw [hd] at h
        cases h
        exact Text.Numeral.suffix_of_read? hnumeral

theorem suffix_of_startKey {entries : List (Datum × Datum)} {frames : List Frame} {c : Char}
    {rest after : List Char} {t : State} (h : startKey entries frames c rest = .ok (t, after)) :
    after <:+ rest := by
  unfold startKey at h
  split at h
  · exact suffix_of_withString h
  · cases h

theorem suffix_of_startValue {frames : List Frame} {c : Char} {rest after : List Char} {t : State}
    (h : startValue limit frames c rest = .ok (t, after)) : after <:+ rest := by
  unfold startValue at h
  split at h
  · exact suffix_of_withString h
  · split at h
    · cases h
      exact List.suffix_refl rest
    · split at h
      · cases h
        exact List.suffix_refl rest
      · cases hscalar : readScalar limit (c :: rest) with
        | error stuck =>
          rw [hscalar] at h
          cases h
        | ok found =>
          rw [hscalar] at h
          cases h
          exact suffix_of_readScalar hscalar

theorem suffix_of_afterValue {d : Datum} {frames : List Frame} {c : Char} {rest after : List Char}
    {t : State} (h : afterValue d frames c rest = .ok (t, after)) : after <:+ rest := by
  unfold afterValue at h
  split at h
  · cases h
  all_goals
    split at h
    · cases h
      exact List.suffix_refl rest
    · split at h <;> cases h
      exact List.suffix_refl rest

theorem State.suffix_of_step {s t : State} {c : Char} {rest after : List Char}
    (h : s.step limit c rest = .ok (t, after)) : after <:+ rest := by
  unfold State.step at h
  split at h
  · exact suffix_of_startValue h
  · split at h
    · cases h
      exact List.suffix_refl rest
    · exact suffix_of_startValue h
  · split at h
    · cases h
      exact List.suffix_refl rest
    · exact suffix_of_startKey h
  · exact suffix_of_startKey h
  · split at h <;> cases h
    exact List.suffix_refl rest
  · exact suffix_of_afterValue h

/-- Runs the machine to the end of the characters. -/
def State.run (s : State) (limit : Option Nat) : List Char → Except Stuck Datum
  | [] => s.finish
  | c :: rest =>
    if isBlank c then s.run limit rest
    else
      match _h : s.step limit c rest with
      | .error stuck => .error stuck
      | .ok (t, after) => t.run limit after
termination_by cs => cs.length
decreasing_by
  · exact Nat.lt_succ_self rest.length
  · exact Nat.lt_succ_of_le (State.suffix_of_step _h).length_le

namespace State

theorem run_blank (s : State) {c : Char} (h : isBlank c) (rest : List Char) :
    s.run limit (c :: rest) = s.run limit rest := by
  rw [run, if_pos h]

theorem run_step {s t : State} {c : Char} {rest after : List Char} (hb : ¬isBlank c)
    (h : s.step limit c rest = .ok (t, after)) : s.run limit (c :: rest) = t.run limit after := by
  rw [run, if_neg hb]
  split
  · rename_i herror
    rw [h] at herror
    cases herror
  · rename_i hok
    rw [h] at hok
    cases hok
    rfl

theorem run_error {s : State} {c : Char} {rest : List Char} {stuck : Stuck} (hb : ¬isBlank c)
    (h : s.step limit c rest = .error stuck) : s.run limit (c :: rest) = .error stuck := by
  rw [run, if_neg hb]
  split
  · rename_i herror
    rw [h] at herror
    exact congrArg Except.error (Except.error.inj herror.symm)
  · rename_i hok
    rw [h] at hok
    cases hok

end State

/-- What the place where the reader is stuck tells about the whole text. -/
def Stuck.refusal (cs : List Char) : Stuck → Refusal
  | .misread it => .fault ⟨it.cause, .before cs it.rest⟩
  | .tooManyDigits count limit => .tooManyDigits count limit

/-- Reads a whole text as one value. A text that begins with a byte order mark is refused. -/
def read (limit : Option Nat) (text : String) : Except Refusal Datum :=
  let cs := text.toList
  if cs.head? = some '\ufeff' then .error (.fault ⟨.byteOrderMark, .start⟩)
  else
    match State.run ⟨.value, []⟩ limit cs with
    | .ok d => .ok d
    | .error stuck => .error (stuck.refusal cs)

end Abacus.Json
