import Abacus.Proofs.Json.Numbers
import Abacus.Proofs.Json.Strings

/-!
# Data written as JSON and read back

The reader takes the text of a datum from any place where a value may stand to the place behind the
value, with the same arrays and objects open. That holds of data made of null, truth values, whole
numbers within the limit, texts, lists, and mappings with distinct texts as keys, whatever stands
behind the text, as long as it does not go on a number.
-/

namespace Abacus

/-- The entries of a mapping whose keys are these texts. -/
def Datum.entriesOf (fields : List (String × Datum)) : List (Datum × Datum) :=
  fields.map fun f => (.text f.1, f.2)

/-- Made of null, truth values, whole numbers within the limit, texts, lists, and mappings whose keys
are distinct texts. -/
inductive Datum.Plain (limit : Option Nat) : Datum → Prop where
  | null : Plain limit .null
  | bool (b : Bool) : Plain limit (.bool b)
  | int {v : Int} (hfits : Json.Fits limit v) : Plain limit (.int v)
  | text (s : String) : Plain limit (.text s)
  | list {items : List Datum} (hitems : ∀ item ∈ items, Plain limit item) : Plain limit (.list items)
  | mapping {fields : List (String × Datum)} (hdistinct : (fields.map Prod.fst).Nodup)
    (hvalues : ∀ f ∈ fields, Plain limit f.2) : Plain limit (.mapping (entriesOf fields))

theorem Datum.put_entriesOf {key : String} {fields : List (String × Datum)}
    (h : key ∉ fields.map Prod.fst) (value : Datum) :
    put (.text key) value (entriesOf fields) = entriesOf (fields ++ [(key, value)]) := by
  induction fields with
  | nil => rfl
  | cons f fields ih =>
    rw [List.map_cons, List.mem_cons, not_or] at h
    have hkey : ¬(Datum.text f.1).same (.text key) := by
      rw [same_text_iff, Datum.text.injEq]
      exact Ne.symm h.1
    show put _ _ ((.text f.1, f.2) :: entriesOf fields) = _
    rw [put, if_neg hkey, ih h.2]
    rfl

namespace Json

open Text (doubleQuote EndsNumeral)
open Datum (Plain entriesOf)

variable {limit : Option Nat}

/-! ## Values without parts -/

namespace State

theorem run_int {v : Int} (hv : Fits limit v) (frames : List Frame) {more : List Char}
    (hm : EndsNumeral more) : run ⟨.value, frames⟩ limit ((toString v).toList ++ more) =
      run ⟨.after (.int v), frames⟩ limit more := by
  have hscalar := readScalar_toString hv hm
  obtain ⟨c, rest, heq, hstart⟩ := Text.exists_startsNumber_toString v more
  rw [heq] at hscalar ⊢
  refine run_step (not_isBlank_of_startsNumber hstart) ?_
  show startValue limit frames c rest = _
  rw [startValue_of_startsNumber hstart, hscalar]
  rfl

theorem withString_stringChars (s : String) (more : List Char) (next : String → State) :
    withString (stringChars s more) next = .ok (next s, more) := by
  rw [withString, readString_stringChars]

theorem run_text (s : String) (frames : List Frame) (more : List Char) :
    run ⟨.value, frames⟩ limit (stringChars s more) = run ⟨.after (.text s), frames⟩ limit more := by
  refine run_step (by decide) ?_
  show startValue limit frames doubleQuote _ = _
  rw [startValue, if_pos rfl]
  exact withString_stringChars s more _

/-! ## Values with parts -/

/-- Where an array may end and does not, its first item begins. -/
theorem run_firstItem {c : Char} (hb : ¬isBlank c) (hc : c ≠ ']') (frames : List Frame)
    (rest : List Char) : run ⟨.firstItem, frames⟩ limit (c :: rest) =
      run ⟨.value, .array [] :: frames⟩ limit (c :: rest) := by
  have hstep : step ⟨.firstItem, frames⟩ limit c rest =
      step ⟨.value, .array [] :: frames⟩ limit c rest := if_neg hc
  cases h : step ⟨.value, .array [] :: frames⟩ limit c rest with
  | ok found => rw [run_step hb h, run_step hb (hstep.trans h)]
  | error stuck => rw [run_error hb h, run_error hb (hstep.trans h)]

/-- A key and its colon, in any state that awaits a key. -/
theorem run_key {s : State} {entries : List (Datum × Datum)} {frames : List Frame}
    (hs : ∀ rest, s.step limit doubleQuote rest = startKey entries frames doubleQuote rest)
    (k : String) (more : List Char) : s.run limit (stringChars k (':' :: ' ' :: more)) =
      run ⟨.value, .object entries k :: frames⟩ limit more := by
  have hkey : s.run limit (stringChars k (':' :: ' ' :: more)) =
      run ⟨.colon entries k, frames⟩ limit (':' :: ' ' :: more) := by
    refine run_step (by decide) ?_
    rw [hs, startKey, if_pos rfl]
    exact withString_stringChars k (':' :: ' ' :: more) _
  rw [hkey, run_step (by decide) rfl, run_blank _ rfl]

end State

/-- The reader takes the text of the datum where a value may stand, also where the array might end
instead. -/
structure Reads (limit : Option Nat) (d : Datum) : Prop where
  run_eq : ∀ (frames : List Frame) {more : List Char}, EndsNumeral more →
    State.run ⟨.value, frames⟩ limit (chars d more) = State.run ⟨.after d, frames⟩ limit more
  head : ∀ more, ∃ c rest, chars d more = c :: rest ∧ ¬isBlank c ∧ c ≠ ']'

theorem keyChars_text (k : String) (more : List Char) :
    keyChars (.text k) (chars (.text k) []) more = stringChars k more := by
  simp only [keyChars, chars, stringChars, List.cons_append, List.append_assoc, List.nil_append]

/-- The remaining items of an open array, one after the other, and its end. `before` are the items
in front of them, latest first. -/
theorem run_items {items : List Datum} (hne : items ≠ []) (hr : ∀ item ∈ items, Reads limit item)
    (before : List Datum) (frames : List Frame) (more : List Char) :
    State.run ⟨.value, .array before :: frames⟩ limit (itemChars items (']' :: more)) =
      State.run ⟨.after (.list (before.reverse ++ items)), frames⟩ limit more := by
  induction items generalizing before with
  | nil => exact absurd rfl hne
  | cons item items ih =>
    obtain ⟨hitem, hrest⟩ := List.forall_mem_cons.1 hr
    have hmoved : before.reverse ++ item :: items = (item :: before).reverse ++ items := by
      rw [List.reverse_cons, List.append_assoc, List.singleton_append]
    rw [hmoved]
    cases items with
    | nil =>
      show State.run _ limit (chars item (']' :: more)) = _
      rw [hitem.run_eq _ (Text.endsNumeral_cons (by decide) _), List.append_nil]
      exact State.run_step (by decide) rfl
    | cons next items =>
      show State.run _ limit (chars item (',' :: ' ' :: itemChars (next :: items) (']' :: more))) = _
      rw [hitem.run_eq _ (Text.endsNumeral_cons (by decide) _), State.run_step (by decide) rfl,
        State.run_blank _ rfl]
      exact ih (List.cons_ne_nil next items) hrest (item :: before)

theorem reads_list {items : List Datum} (hr : ∀ item ∈ items, Reads limit item) :
    Reads limit (.list items) := by
  refine ⟨fun frames more _ => ?_, fun more => ⟨'[', _, rfl, by decide, by decide⟩⟩
  have hopen : State.run ⟨.value, frames⟩ limit (chars (.list items) more) =
      State.run ⟨.firstItem, frames⟩ limit (itemChars items (']' :: more)) :=
    State.run_step (by decide) rfl
  rw [hopen]
  cases items with
  | nil => exact State.run_step (by decide) rfl
  | cons item items =>
    have hitems := run_items (List.cons_ne_nil item items) hr [] frames more
    have hhead : ∃ c rest, itemChars (item :: items) (']' :: more) = c :: rest ∧ ¬isBlank c ∧
        c ≠ ']' := by
      cases items with
      | nil => exact (hr item List.mem_cons_self).head _
      | cons next items => exact (hr item List.mem_cons_self).head _
    obtain ⟨c, rest, heq, hblank, hbracket⟩ := hhead
    rw [heq] at hitems ⊢
    rw [State.run_firstItem hblank hbracket]
    exact hitems

/-- The remaining entries of an open object, one after the other, and its end. -/
theorem run_fields {fields : List (String × Datum)} (hne : fields ≠ [])
    (hr : ∀ f ∈ fields, Reads limit f.2) (before : List (String × Datum))
    (hd : ((before ++ fields).map Prod.fst).Nodup) {s : State} {frames : List Frame}
    (hs : ∀ rest, s.step limit doubleQuote rest =
      startKey (entriesOf before) frames doubleQuote rest) (more : List Char) :
    s.run limit (entryChars (entriesOf fields) ('\x7d' :: more)) =
      State.run ⟨.after (.mapping (entriesOf (before ++ fields))), frames⟩ limit more := by
  induction fields generalizing before s with
  | nil => exact absurd rfl hne
  | cons f fields ih =>
    obtain ⟨k, v⟩ := f
    obtain ⟨hv, hrest⟩ := List.forall_mem_cons.1 hr
    have hnew : k ∉ before.map Prod.fst := by
      rw [List.map_append, List.nodup_append] at hd
      exact fun hk => hd.2.2 k hk k List.mem_cons_self rfl
    have hput := Datum.put_entriesOf hnew v
    cases fields with
    | nil =>
      show s.run limit (keyChars (.text k) (chars (.text k) []) (':' :: ' ' :: chars v _)) = _
      rw [keyChars_text, State.run_key hs, hv.run_eq _ (Text.endsNumeral_cons (by decide) _), ← hput]
      exact State.run_step (by decide) rfl
    | cons g fields =>
      show s.run limit (keyChars (.text k) (chars (.text k) []) (':' :: ' ' :: chars v
        (',' :: ' ' :: entryChars (entriesOf (g :: fields)) _))) = _
      rw [keyChars_text, State.run_key hs, hv.run_eq _ (Text.endsNumeral_cons (by decide) _),
        State.run_step (by decide) rfl, State.run_blank _ rfl, hput]
      have hmoved : before ++ (k, v) :: g :: fields = (before ++ [(k, v)]) ++ g :: fields := by
        rw [List.append_assoc, List.singleton_append]
      rw [hmoved] at hd ⊢
      exact ih (List.cons_ne_nil g fields) hrest _ hd fun _ => rfl

theorem reads_mapping {fields : List (String × Datum)} (hdistinct : (fields.map Prod.fst).Nodup)
    (hr : ∀ f ∈ fields, Reads limit f.2) : Reads limit (.mapping (entriesOf fields)) := by
  refine ⟨fun frames more _ => ?_, fun more => ⟨'\x7b', _, rfl, by decide, by decide⟩⟩
  have hopen : State.run ⟨.value, frames⟩ limit (chars (.mapping (entriesOf fields)) more) =
      State.run ⟨.firstKey, frames⟩ limit (entryChars (entriesOf fields) ('\x7d' :: more)) :=
    State.run_step (by decide) rfl
  rw [hopen]
  cases fields with
  | nil => exact State.run_step (by decide) rfl
  | cons f fields =>
    exact run_fields (List.cons_ne_nil f fields) hr [] hdistinct (fun _ => rfl) more

theorem reads_of_word {word : List Char} {d : Datum} (h : (word, d) ∈ words)
    (hchars : ∀ more, chars d more = word ++ more) : Reads limit d := by
  suffices hword : ∀ frames more, State.run ⟨.value, frames⟩ limit (word ++ more) =
      State.run ⟨.after d, frames⟩ limit more ∧
      ∃ c rest, word ++ more = c :: rest ∧ ¬isBlank c ∧ c ≠ ']' by
    refine ⟨fun frames more _ => ?_, fun more => ?_⟩ <;> rw [hchars]
    · exact (hword frames more).1
    · exact (hword [] more).2
  intro frames more
  simp only [words, List.mem_cons, Prod.mk.injEq, List.not_mem_nil, or_false] at h
  rcases h with ⟨rfl, rfl⟩ | ⟨rfl, rfl⟩ | ⟨rfl, rfl⟩ | ⟨rfl, rfl⟩ | ⟨rfl, rfl⟩ | ⟨rfl, rfl⟩ <;>
    exact ⟨State.run_step (by decide) rfl, _, _, rfl, by decide, by decide⟩

theorem reads_of_plain {d : Datum} (h : d.Plain limit) : Reads limit d := by
  induction h with
  | null => exact reads_of_word List.mem_cons_self fun _ => rfl
  | bool b =>
    have hmem : ((if b then "true" else "false").toList, Datum.bool b) ∈ words := by
      cases b <;> simp [words]
    exact reads_of_word hmem fun _ => rfl
  | @int v hfits =>
    refine ⟨fun frames more hm => State.run_int hfits frames hm, fun more => ?_⟩
    obtain ⟨c, rest, heq, hstart⟩ := Text.exists_startsNumber_toString v more
    exact ⟨c, rest, heq, not_isBlank_of_startsNumber hstart,
      Text.ne_of_startsNumber hstart (by decide) (by decide)⟩
  | text s =>
    exact ⟨fun frames more _ => State.run_text s frames more,
      fun more => ⟨doubleQuote, _, rfl, by decide, by decide⟩⟩
  | list hitems ih => exact reads_list ih
  | mapping hdistinct hvalues ih => exact reads_mapping hdistinct ih

/-! ## Printable text -/

theorem printable_of_isDigit {c : Char} (h : c.isDigit) : Printable c := by
  have hboth : (decide ('0'.val ≤ c.val) && decide (c.val ≤ '9'.val)) = true := h
  rw [Bool.and_eq_true, decide_eq_true_eq, decide_eq_true_eq] at hboth
  have hlow : '0'.toNat ≤ c.toNat := UInt32.le_iff_toNat_le.1 hboth.1
  have hhigh : c.toNat ≤ '9'.toNat := UInt32.le_iff_toNat_le.1 hboth.2
  exact ⟨Nat.le_trans (by decide) hlow, Nat.lt_of_le_of_lt hhigh (by decide)⟩

theorem printable_toString (v : Int) : ∀ c ∈ (toString v).toList, Printable c := by
  have hdigits (n : Nat) : ∀ c ∈ Nat.toDigits 10 n, Printable c := fun c hc =>
    printable_of_isDigit (Text.isDigit_of_mem_toDigits c hc)
  rcases Text.toList_toString_cases v with ⟨n, -, hn⟩ | ⟨n, -, -, hn⟩ <;> rw [hn]
  · exact hdigits n
  · exact List.forall_mem_cons.2 ⟨by decide, hdigits n⟩

/-- The text of the datum is printable if what stands behind it is. -/
def Prints (d : Datum) : Prop :=
  ∀ more, (∀ c ∈ more, Printable c) → ∀ c ∈ chars d more, Printable c

theorem printable_word {word : List Char} (h : word.all fun c => decide (Printable c))
    {more : List Char} (hm : ∀ c ∈ more, Printable c) : ∀ c ∈ word ++ more, Printable c :=
  List.forall_mem_append.2 ⟨fun c hc => of_decide_eq_true (List.all_eq_true.1 h c hc), hm⟩

theorem printable_separated {c : Char} {cs : List Char} (hc : Printable c)
    (hcs : ∀ x ∈ cs, Printable x) : ∀ x ∈ c :: ' ' :: cs, Printable x :=
  List.forall_mem_cons.2 ⟨hc, List.forall_mem_cons.2 ⟨by decide, hcs⟩⟩

theorem printable_items {items : List Datum} (hp : ∀ item ∈ items, Prints item)
    {more : List Char} (hm : ∀ c ∈ more, Printable c) :
    ∀ c ∈ itemChars items more, Printable c := by
  induction items with
  | nil => exact hm
  | cons item items ih =>
    obtain ⟨hitem, hrest⟩ := List.forall_mem_cons.1 hp
    cases items with
    | nil => exact hitem more hm
    | cons next items => exact hitem _ (printable_separated (by decide) (ih hrest))

theorem printable_fields {fields : List (String × Datum)} (hp : ∀ f ∈ fields, Prints f.2)
    {more : List Char} (hm : ∀ c ∈ more, Printable c) :
    ∀ c ∈ entryChars (entriesOf fields) more, Printable c := by
  induction fields with
  | nil => exact hm
  | cons f fields ih =>
    obtain ⟨k, v⟩ := f
    obtain ⟨hv, hrest⟩ := List.forall_mem_cons.1 hp
    cases fields with
    | nil =>
      show ∀ c ∈ keyChars (.text k) (chars (.text k) []) (':' :: ' ' :: chars v more), _
      rw [keyChars_text]
      exact printable_stringChars k (printable_separated (by decide) (hv more hm))
    | cons g fields =>
      show ∀ c ∈ keyChars (.text k) (chars (.text k) []) (':' :: ' ' :: chars v
        (',' :: ' ' :: entryChars (entriesOf (g :: fields)) more)), _
      rw [keyChars_text]
      exact printable_stringChars k
        (printable_separated (by decide) (hv _ (printable_separated (by decide) (ih hrest))))

theorem prints_of_plain {d : Datum} (h : d.Plain limit) : Prints d := by
  induction h with
  | null => exact fun more hm => printable_word (by decide) hm
  | bool b => exact fun more hm => printable_word (by cases b <;> decide) hm
  | list hitems ih =>
    intro more hm
    refine List.forall_mem_cons.2 ⟨by decide, printable_items ih ?_⟩
    exact List.forall_mem_cons.2 ⟨by decide, hm⟩
  | @int v hfits =>
    exact fun more hm => List.forall_mem_append.2 ⟨printable_toString v, hm⟩
  | text s => exact fun more hm => printable_stringChars s hm
  | mapping hdistinct hvalues ih =>
    intro more hm
    refine List.forall_mem_cons.2 ⟨by decide, printable_fields ih ?_⟩
    exact List.forall_mem_cons.2 ⟨by decide, hm⟩

theorem printable_text {d : Datum} (h : d.Plain limit) : ∀ c ∈ (text d).toList, Printable c := by
  rw [text, String.toList_ofList]
  exact prints_of_plain h [] (List.forall_mem_nil _)

/-- Reading takes writing back. -/
theorem read_text {d : Datum} (h : d.Plain limit) : read limit (text d) = .ok d := by
  have hrun : State.run ⟨.value, []⟩ limit (chars d []) = .ok d := by
    rw [(reads_of_plain h).run_eq [] Text.endsNumeral_nil, State.run]
    rfl
  have hmark : (chars d []).head? ≠ some '\ufeff' := fun hhead => by
    have hprint := prints_of_plain h [] (List.forall_mem_nil _) _ (List.mem_of_mem_head? hhead)
    revert hprint
    decide
  rw [read, text, String.toList_ofList]
  simp only [hmark, if_false, hrun]

end Json

end Abacus
