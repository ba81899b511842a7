import RelQuery.Value.Display

/-!
# Failures

A refusal is an error with a cause that a caller is told. A call can also end without any answer:
a trusting accessor gives up with the cause, an index stands past the end of a list, or a chain
of joins comes back to its start.
-/

set_option autoImplicit false

namespace RelQuery

inductive Mismatch
  | noSuchTable (table : String)
  | foreignSource
  | namelessSource
  | emptyForeignKey (association : String)
  | missingKeyColumn (association table column : String)
  | spanTooLong (start stop count : Nat)
  | missingMappedColumn (column : String) (columns : List String)
deriving DecidableEq

def Mismatch.message : Mismatch → String
  | .noSuchTable table => "no such table: " ++ table
  | .foreignSource => "source belongs to another query; qualify the column by name"
  | .namelessSource => "joins and unaliased subqueries cannot be referenced by name"
  | .emptyForeignKey association =>
    "association " ++ association ++ " has no foreign key columns"
  | .missingKeyColumn association table column =>
    "association " ++ association ++ " references missing column " ++ table ++ "." ++ column
  | .spanTooLong start stop count =>
    "Column span " ++ start.repr ++ ".." ++ stop.repr ++ " exceeds the " ++ count.repr ++
      " available columns"
  | .missingMappedColumn column columns =>
    "Mapping references missing column " ++ column ++ ". Valid column names are: " ++
      String.intercalate ", " columns ++ "."

inductive ReversalFault
  | noSource
  | subquery
  | noRowId (table : String)
  | shadowedRowId (table : String)
deriving DecidableEq

def ReversalFault.message : ReversalFault → String
  | .noSource => "query has no source to order by row id"
  | .subquery => "subquery has no row id; order it explicitly"
  | .noRowId table => table ++ " has no row id; order it explicitly"
  | .shadowedRowId table => "table " ++ table ++ " shadows _rowid_; order it explicitly"

inductive Refusal
  | indexOutOfRange (index count : Nat)
  | notConvertible (value : Value) (target : String)
  | unexpectedNull (target : String)
  | missingColumn (name : String)
  | mismatch (cause : Mismatch)
  | emptySelection
  | unsupportedReversal (cause : ReversalFault)
  | cannotOpen (path : String)
  | engine (message : Option String)
deriving DecidableEq

/-- The text of a refusal; the engine words its own, and says nothing when it has no words. -/
def Refusal.message : Refusal → String
  | .indexOutOfRange index count =>
    "row index out of range: " ++ index.repr ++ " (row has " ++ count.repr ++ " columns)"
  | .notConvertible value target => "could not convert " ++ value.display ++ " to " ++ target
  | .unexpectedNull target => "could not convert NULL to " ++ target
  | .missingColumn name => "no such column: " ++ name
  | .mismatch cause => "Schema mismatch: " ++ cause.message
  | .emptySelection => "query selects no columns and has no source"
  | .unsupportedReversal cause => "Unsupported reversal: " ++ cause.message
  | .cannotOpen path => "Failed to open database '" ++ path ++ "'"
  | .engine message => message.getD ""

inductive Failure
  | refused (cause : Refusal)
  | gaveUp (cause : Refusal)
  | outOfBounds
  | endless
deriving DecidableEq

/-- The answer of a call, or how it ended without one. -/
abbrev Outcome (α : Type) := Except Failure α

namespace Outcome

def ofRefusable {α : Type} : Except Refusal α → Outcome α
  | .ok a => .ok a
  | .error cause => .error (.refused cause)

/-- An answer that is trusted to exist: a refusal becomes giving up. -/
def trusted {α : Type} : Outcome α → Outcome α
  | .error (.refused cause) => .error (.gaveUp cause)
  | r => r

def element {α : Type} (xs : List α) (i : Nat) : Outcome α :=
  match xs[i]? with
  | some a => .ok a
  | none => .error .outOfBounds

end Outcome

end RelQuery
