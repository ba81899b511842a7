import RelQuery.Settings.Directory
import RelQuery.Settings.File

/-!
# Resolving the settings

The settings file comes first, then the environment, then a default path. A file that cannot be
loaded counts as none.
-/

set_option autoImplicit false

namespace RelQuery.Settings

inductive FileState
  | absent
  | directory
  | contents (bytes : ByteArray)

def FileState.listing : FileState → Listing
  | .absent => []
  | .directory => [(fileName, .directory)]
  | .contents _ => [(fileName, .regular)]

structure Environment where
  address : Option String
  path : Option String

inductive LoadError
  | notFound
  | unreadable
  | invalid
deriving DecidableEq

def LoadError.message : LoadError → String
  | .notFound =>
    "Configuration file not found: " ++ fileName ++ "\n\nExamples:\n\nSQLite:\n" ++
      "\x7b\n  \"database\": \x7b\n    \"type\": \"sqlite\",\n    " ++
      "\"path\": \"./rowshape.sqlite\"\n  \x7d\n\x7d\n\nIn-memory:\n" ++
      "\x7b\n  \"database\": \x7b\n    \"type\": \"memory\"\n  \x7d\n\x7d\n"
  | .unreadable => "Failed to read " ++ fileName
  | .invalid => "Invalid JSON in " ++ fileName

def load : FileState → Except LoadError Location
  | .absent => .error .notFound
  | .directory => .error .unreadable
  | .contents bytes =>
    match String.fromUTF8? bytes with
    | none => .error .unreadable
    | some text =>
      match ofText? text with
      | some l => .ok l
      | none => .error .invalid

/-- The address comes before the path; a refused address is not replaced by the path. -/
def fromEnvironment (env : Environment) : Except UnsupportedScheme (Option Location) :=
  match env.address, env.path with
  | some address, _ => (Location.ofAddress address).map some
  | none, some path => .ok (some (.file path))
  | none, none => .ok none

def defaultPath : String := "./rowshape.sqlite"

def resolve (file : FileState) (env : Environment) : Except UnsupportedScheme Location :=
  match load file with
  | .ok l => .ok l
  | .error _ => do
    match ← fromEnvironment env with
    | some l => pure l
    | none => Location.ofAddress defaultPath

end RelQuery.Settings
