import RelQuery.Failure
import RelQuery.Text.Case

/-!
# Exposed columns

A layout lists, for each exposed column, its index in a base row and its name. Names are looked
up without regard to ASCII case, and of columns with one name the leftmost is found.
-/

set_option autoImplicit false

namespace RelQuery

abbrev NameIndex := List (String × Nat)

namespace NameIndex

def enter (t : NameIndex) (name : String) (i : Nat) : NameIndex :=
  if t.any (·.1 == Text.foldCase name) then t else t ++ [(Text.foldCase name, i)]

def enterAll (t : NameIndex) : List String → Nat → NameIndex
  | [], _ => t
  | name :: names, i => enterAll (t.enter name i) names (i + 1)

def ofNames (names : List String) : NameIndex :=
  enterAll [] names 0

def find? (t : NameIndex) (name : String) : Option Nat :=
  t.lookup (Text.foldCase name)

end NameIndex

structure Layout where
  columns : List (Nat × String)
deriving DecidableEq

namespace Layout

def length (l : Layout) : Nat :=
  l.columns.length

def names (l : Layout) : List String :=
  l.columns.map (·.2)

def baseIndex (l : Layout) (i : Nat) : Outcome Nat :=
  (Outcome.element l.columns i).map (·.1)

def columnName (l : Layout) (i : Nat) : Outcome String :=
  (Outcome.element l.columns i).map (·.2)

def indexOf? (l : Layout) (name : String) : Option Nat :=
  (NameIndex.ofNames l.names).find? name

end Layout

end RelQuery
