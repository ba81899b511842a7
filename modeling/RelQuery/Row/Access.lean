import RelQuery.Row.Basic

/-!
# Typed access to rows

The fallible getters refuse a bad index, an absent name or a value of another type. The trusting
ones give up instead, and some of them also on null.
-/

set_option autoImplicit false

namespace RelQuery.Row

def decode? (α : Type) [OfValue α] (v : Value) : Outcome (Option α) :=
  if v.isNull then .ok none
  else
    match OfValue.ofValue? v with
    | some a => .ok (some a)
    | none => .error (.refused (.notConvertible v (OfValue.typeName α)))

def present (α : Type) [OfValue α] (r : Outcome (Option α)) : Outcome α := do
  match ← r.trusted with
  | some a => pure a
  | none => .error (.gaveUp (.unexpectedNull (OfValue.typeName α)))

def tryGet (α : Type) [OfValue α] (r : Row) (i : Nat) : Outcome (Option α) := do
  let v ← r.tryValue i
  decode? α v

def get (α : Type) [OfValue α] (r : Row) (i : Nat) : Outcome α :=
  present α (r.tryGet α i)

def get? (α : Type) [OfValue α] (r : Row) (i : Nat) : Outcome (Option α) :=
  (r.tryGet α i).trusted

def tryGetNamed (α : Type) [OfValue α] (r : Row) (name : String) : Outcome (Option α) :=
  match r.indexOf? name with
  | some i => r.tryGet α i
  | none => .error (.refused (.missingColumn name))

def getNamed (α : Type) [OfValue α] (r : Row) (name : String) : Outcome α :=
  present α (r.tryGetNamed α name)

/-- Nothing when the column is absent or null. -/
def getNamed? (α : Type) [OfValue α] (r : Row) (name : String) : Outcome (Option α) :=
  match r.indexOf? name with
  | some i => r.get? α i
  | none => .ok none

def blob? (r : Row) (i : Nat) : Outcome (Option (List UInt8)) :=
  (r.value i).map Value.asBlob?

end RelQuery.Row
