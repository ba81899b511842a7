import RelQuery.Failure
import RelQuery.Settings.FileName
import RelQuery.Settings.Location

/-!
# Opening database files

A path is followed from the working directory, or from outside of it, without looking whether
the directories on the way are there: a step back undoes the step before it. The file can then
be opened if it is there, or made if its directory is.
-/

set_option autoImplicit false

namespace RelQuery.Settings

inductive FileKind
  | directory
  | regular
deriving DecidableEq

abbrev Listing := List (String × FileKind)

/-- A directory that is there: the working one, or one that is not below it. -/
inductive Base
  | working
  | outside
deriving DecidableEq

structure Place where
  base : Base
  names : List (List UInt8)

/-- What is found at a place. It is out of reach behind a file, or by too long a name. -/
inductive Finding
  | found (kind : FileKind)
  | missing
  | outOfReach
deriving DecidableEq

def longestName : Nat := 255

namespace Place

def enter (p : Place) (name : List UInt8) : Place :=
  { p with names := name :: p.names }

def parent (p : Place) : Place :=
  match p.names with
  | _ :: names => { p with names := names }
  | [] => ⟨.outside, []⟩

def entry (listing : Listing) (base : Base) (outer : List (List UInt8)) (name : List UInt8) :
    Finding :=
  if longestName < name.length then .outOfReach
  else if base = .working ∧ outer = [] then
    match listing.find? (bytesOf ·.1 == name) with
    | some (_, kind) => .found kind
    | none => .missing
  else .missing

def look (listing : Listing) (base : Base) : List (List UInt8) → Finding
  | [] => .found .directory
  | name :: outer =>
    match look listing base outer with
    | .found .directory => entry listing base outer name
    | .found .regular => .outOfReach
    | .missing => .missing
    | .outOfReach => .outOfReach

def finding (listing : Listing) (p : Place) : Finding :=
  look listing p.base p.names

def follow (listing : Listing) (p : Place) : List (List UInt8) → Option Place
  | [] => some p
  | part :: parts =>
    if part = [] ∨ part = bytesOf "." then p.follow listing parts
    else if part = bytesOf ".." then p.parent.follow listing parts
    else if (p.enter part).finding listing = .outOfReach then none
    else (p.enter part).follow listing parts

def ofPath? (listing : Listing) (path : List UInt8) : Option Place :=
  let start : Base := if path.head? = some '/'.toUInt8 then .outside else .working
  follow listing ⟨start, []⟩ (Text.separate '/'.toUInt8 path)

/-- Whether there is a file to open, or it can be made and the mode allows that. -/
def opens (listing : Listing) (mode : OpenMode) (p : Place) : Bool :=
  match p.finding listing with
  | .found .regular => true
  | .found .directory => false
  | .missing => mode == .create && p.parent.finding listing == .found .directory
  | .outOfReach => false

end Place

def diskStorages : List String :=
  ["unix", "unix-none", "unix-dotfile", "unix-excl"]

def memoryStorage : String := "memdb"

namespace OpenRequest

/-- Whether a database is kept in a file: not when it has no name, or asks for memory. -/
def usesFile (r : OpenRequest) : Bool :=
  r.path ≠ [] && r.path ≠ bytesOf ":memory:" && r.mode ≠ .inMemory &&
    r.storage ≠ some (bytesOf memoryStorage)

def storageKnown (r : OpenRequest) : Bool :=
  match r.storage with
  | some name => (memoryStorage :: diskStorages).any (bytesOf · == name)
  | none => true

def opens (listing : Listing) (r : OpenRequest) : Bool :=
  r.storageKnown &&
    (!r.usesFile || ((Place.ofPath? listing r.path).map (·.opens listing r.mode)).getD false)

end OpenRequest

def nameOpens (listing : Listing) (name : String) : Bool :=
  Char.ofNat 0 ∉ name.toList &&
    ((OpenRequest.ofName? name).map (·.opens listing)).getD false

end RelQuery.Settings

namespace RelQuery

def Location.connect (listing : Settings.Listing) : Location → Except Refusal String
  | .memory => .ok "SqliteMemory"
  | .file path =>
    if Settings.nameOpens listing path then .ok "Sqlite" else .error (.cannotOpen path)

end RelQuery
