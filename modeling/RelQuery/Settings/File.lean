import RelQuery.Json.Quoted
import RelQuery.Json.Reader
import RelQuery.Json.Numeral
import RelQuery.Settings.Location

/-!
# The settings file

A JSON document whose `database` field says where the database is. Other fields of the document
are skipped unread; those beside the location are read, so their numbers, strings and depth have
to be in range. Both objects can be written as arrays of their fields.
-/

set_option autoImplicit false

namespace RelQuery.Settings

open RelQuery.Json

def fileName : String := ".rowshape.json"

/-- How many brackets a document may have open, the two outer ones included. -/
def depthLimit : Nat := 127

mutual

def readable : Document → Bool
  | .number n => n.read?.isSome
  | .string s => s.isSome
  | .array items => itemsReadable items
  | .object fields => fieldsReadable fields
  | _ => true

def itemsReadable : List Document → Bool
  | [] => true
  | d :: ds => readable d && itemsReadable ds

def fieldsReadable : List (Chars × Document) → Bool
  | [] => true
  | (key, d) :: fs => key.isSome && readable d && fieldsReadable fs

end

/-- The only value of a field; a second one is refused. -/
def only? (name : String) (fields : List (Chars × Document)) : Option Document :=
  match fields.filter (·.1 = some name) with
  | [(_, d)] => some d
  | _ => none

def locationOf? : Document → Option Location
  | .object fields =>
    match only? "type" fields with
    | some (.string (some "sqlite")) =>
      match only? "path" fields with
      | some (.string (some path)) => some (.file path)
      | _ => none
    | some (.string (some "memory")) => some .memory
    | _ => none
  | .array [.string (some "sqlite"), .string (some path)] => some (.file path)
  | .array [.string (some "memory")] => some .memory
  | _ => none

def databaseOf? (d : Document) : Option Location :=
  if readable d ∧ d.depth < depthLimit then locationOf? d else none

def ofDocument? : Document → Option Location
  | .object fields =>
    if fields.all (·.1.isSome) then (only? "database" fields).bind databaseOf? else none
  | .array [d] => databaseOf? d
  | _ => none

def ofText? (s : String) : Option Location :=
  (Document.ofText? s).bind ofDocument?

def locationText : Location → String
  | .file path => "\x7b\"type\":\"sqlite\",\"path\":" ++ quoted path ++ "\x7d"
  | .memory => "\x7b\"type\":\"memory\"\x7d"

def toText (l : Location) : String :=
  "\x7b\"database\":" ++ locationText l ++ "\x7d"

end RelQuery.Settings
