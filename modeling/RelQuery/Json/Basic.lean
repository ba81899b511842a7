/-!
# JSON documents as read

The tree keeps what a consumer may still refuse: a number as its digits, and a string or key
only if its escapes name characters.
-/

set_option autoImplicit false

namespace RelQuery.Json

/-- A number as written; an absent fraction or exponent has no digits. -/
structure Numeral where
  negative : Bool
  whole : List Nat
  fraction : List Nat
  exponentNegative : Bool
  exponent : List Nat
deriving DecidableEq

/-- A string as written: `none` when an escape names half of a surrogate pair. -/
abbrev Chars := Option String

inductive Document
  | null
  | bool (b : Bool)
  | number (n : Numeral)
  | string (s : Chars)
  | array (items : List Document)
  | object (fields : List (Chars × Document))

mutual

def Document.depth : Document → Nat
  | .array items => itemsDepth items + 1
  | .object fields => fieldsDepth fields + 1
  | _ => 0

def itemsDepth : List Document → Nat
  | [] => 0
  | d :: ds => max d.depth (itemsDepth ds)

def fieldsDepth : List (Chars × Document) → Nat
  | [] => 0
  | (_, d) :: fs => max d.depth (fieldsDepth fs)

end

end RelQuery.Json
