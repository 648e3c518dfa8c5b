import Abacus.Binary64.Text
import Abacus.Datum.Basic
import Abacus.Text.Quoted

/-!
# How messages show a datum

Texts are quoted, sequences and mappings are written with their brackets, and a tuple of one item
keeps a comma to tell it from an item in parentheses.
-/

namespace Abacus.Datum

mutual

def display : Datum → String
  | .null => "None"
  | .bool b => if b then "True" else "False"
  | .int n => toString n
  | .float x => x.text
  | .text s => Text.quoted s
  | .list items => "[" ++ displayItems items ++ "]"
  | .tuple items => "(" ++ displayItems items ++ (if items.length = 1 then ",)" else ")")
  | .mapping entries => "\x7b" ++ displayEntries entries ++ "\x7d"
  | .view entries => "mappingproxy(\x7b" ++ displayEntries entries ++ "\x7d)"

def displayItems : List Datum → String
  | [] => ""
  | [item] => display item
  | item :: items => display item ++ ", " ++ displayItems items

def displayEntries : List (Datum × Datum) → String
  | [] => ""
  | [(k, v)] => display k ++ ": " ++ display v
  | (k, v) :: entries => display k ++ ": " ++ display v ++ ", " ++ displayEntries entries

end

end Abacus.Datum
