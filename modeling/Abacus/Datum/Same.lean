import Abacus.Datum.Basic

/-!
# Equality of data

Numbers of all kinds are equal when their values are, with true counted as one and false as zero.
Lists equal lists and tuples equal tuples item by item. Mappings are equal when they have the same
keys with equal values, in whatever order and whether or not they are views.
-/

namespace Abacus.Datum

/-- The whole number that a truth value counts as. -/
def ofBool (b : Bool) : Int := if b then 1 else 0

/-- Equality of numbers, where both data are numbers. -/
def sameNumber : Datum → Datum → Bool
  | .float x, .float y => x.same y
  | .float x, .int n => x.toInt? == some n
  | .float x, .bool b => x.toInt? == some (ofBool b)
  | .int m, .float y => y.toInt? == some m
  | .int m, .int n => m == n
  | .int m, .bool b => m == ofBool b
  | .bool a, .float y => y.toInt? == some (ofBool a)
  | .bool a, .int n => ofBool a == n
  | .bool a, .bool b => a == b
  | _, _ => false

mutual

def same : Datum → Datum → Bool
  | .null, .null => true
  | .text s, .text t => s == t
  | .list xs, .list ys => sameItems xs ys
  | .tuple xs, .tuple ys => sameItems xs ys
  | .mapping xs, other =>
    match other.entries? with
    | some ys => xs.length == ys.length && sameEntries xs ys
    | none => false
  | .view xs, other =>
    match other.entries? with
    | some ys => xs.length == ys.length && sameEntries xs ys
    | none => false
  | .bool a, other => sameNumber (.bool a) other
  | .int n, other => sameNumber (.int n) other
  | .float x, other => sameNumber (.float x) other
  | _, _ => false

def sameItems : List Datum → List Datum → Bool
  | [], [] => true
  | x :: xs, y :: ys => same x y && sameItems xs ys
  | _, _ => false

/-- Every entry has an equal one under an equal key. -/
def sameEntries : List (Datum × Datum) → List (Datum × Datum) → Bool
  | [], _ => true
  | (k, x) :: xs, ys =>
    (match ys.find? fun e => same k e.1 with
      | some e => same x e.2
      | none => false) && sameEntries xs ys

end

/-! ## Keys -/

mutual

/-- The kind of the first part that keeps the datum from being a key: lists and mappings cannot be
keys, and neither can a tuple that holds one. -/
def unhashable? : Datum → Option String
  | .list items => some (Datum.list items).kindName
  | .mapping entries => some (Datum.mapping entries).kindName
  | .view entries => some (Datum.view entries).kindName
  | .tuple items => unhashableItem? items
  | _ => none

def unhashableItem? : List Datum → Option String
  | [] => none
  | item :: items =>
    match unhashable? item with
    | some kind => some kind
    | none => unhashableItem? items

end

/-! ## Mappings have no two equal keys -/

/-- Sets the value under a key: in place if an equal key is there, at the end otherwise. -/
def put (key value : Datum) : List (Datum × Datum) → List (Datum × Datum)
  | [] => [(key, value)]
  | (k, v) :: rest => if k.same key then (k, value) :: rest else (k, v) :: put key value rest

/-- The entries that result from setting the given ones one after the other. -/
def collect (entries : List (Datum × Datum)) : List (Datum × Datum) :=
  entries.foldl (fun es e => put e.1 e.2 es) []

theorem same_text_iff {d : Datum} {s : String} : d.same (.text s) = true ↔ d = .text s := by
  cases d <;> simp [same, sameNumber, entries?]

@[simp] theorem get?_put_self (key : String) (value : Datum) (es : List (Datum × Datum)) :
    get? key (put (.text key) value es) = some value := by
  induction es with
  | nil => simp [put, get?]
  | cons e es ih =>
    obtain ⟨k, v⟩ := e
    by_cases h : k = .text key <;> simp [put, get?, same_text_iff, h, ih]

theorem get?_put_of_ne {key other : String} (h : other ≠ key) (value : Datum)
    (es : List (Datum × Datum)) : get? other (put (.text key) value es) = get? other es := by
  induction es with
  | nil => simp [put, get?, Ne.symm h]
  | cons e es ih =>
    obtain ⟨k, v⟩ := e
    by_cases hk : k = .text key
    · subst hk; simp [put, get?, same_text_iff, Ne.symm h]
    · by_cases ho : k = .text other
      · subst ho; simp [put, get?, same_text_iff, h]
      · simp [put, get?, same_text_iff, hk, ho, ih]

end Abacus.Datum
