import RelQuery.Text.Search

/-!
# Where a database is

A location is a file or memory. An address is a path, a path behind a scheme of its own, or the
word for memory; any other scheme is refused.
-/

set_option autoImplicit false

namespace RelQuery

inductive Location
  | file (path : String)
  | memory
deriving DecidableEq

/-- The text before the mark that ends a scheme, where the scheme is none that is served. -/
structure UnsupportedScheme where
  scheme : String
deriving DecidableEq

def UnsupportedScheme.message (e : UnsupportedScheme) : String :=
  "Unsupported database URL scheme: " ++ e.scheme

namespace Location

def ofAddress (address : String) : Except UnsupportedScheme Location :=
  if address = ":memory:" then .ok .memory
  else if Text.startsWith "sqlite://".toList address.toList then
    .ok (.file (String.ofList (address.toList.drop 9)))
  else
    match Text.before? "://".toList address.toList with
    | some scheme => .error ⟨String.ofList scheme⟩
    | none => .ok (.file address)

end Location

end RelQuery
