import RelQuery.Text.Hex
import RelQuery.Text.Search

/-!
# Names of database files

A name is a path, or `file:` with a path, options after a question mark, and a part after a
number sign that nothing reads. Percent escapes give bytes, so a path is a list of bytes. An
option can lower the rights that the file is opened with, but not raise them.
-/

set_option autoImplicit false

namespace RelQuery.Settings

inductive OpenMode
  | readOnly
  | readWrite
  | create
  | inMemory
deriving DecidableEq

namespace OpenMode

def admits : OpenMode → OpenMode → Bool
  | .create, _ => true
  | .inMemory, _ => true
  | _, .inMemory => true
  | .readWrite, m => m != .create
  | .readOnly, m => m == .readOnly

def named : List (String × OpenMode) :=
  [("ro", .readOnly), ("rw", .readWrite), ("rwc", .create), ("memory", .inMemory)]

end OpenMode

/-- What is to be opened. Storage is the name of a way to keep files, where one was asked for. -/
structure OpenRequest where
  path : List UInt8
  mode : OpenMode
  storage : Option (List UInt8)

def bytesOf (s : String) : List UInt8 :=
  s.toUTF8.toList

/-- The bytes of a part of an address. A zero byte ends the part. -/
def unescaped : List Char → List UInt8
  | [] => []
  | '%' :: a :: b :: cs =>
    match Text.hexNat? [a, b] with
    | some 0 => []
    | some n => UInt8.ofNat n :: unescaped cs
    | none => String.utf8EncodeChar '%' ++ unescaped (a :: b :: cs)
  | c :: cs => String.utf8EncodeChar c ++ unescaped cs

namespace OpenRequest

def ofPath (path : List UInt8) : OpenRequest :=
  ⟨path, .create, none⟩

/-- Heeds one option. Those of other names are skipped, and so is one without a name. -/
def heed (r : OpenRequest) (name value : List UInt8) : Option OpenRequest :=
  if name = bytesOf "vfs" then some { r with storage := some value }
  else if name = bytesOf "cache" then
    if value = bytesOf "shared" ∨ value = bytesOf "private" then some r else none
  else if name = bytesOf "mode" then
    match OpenMode.named.find? (bytesOf ·.1 == value) with
    | some (_, m) => if r.mode.admits m then some { r with mode := m } else none
    | none => none
  else some r

def heedText (r : OpenRequest) (text : List Char) : Option OpenRequest :=
  let name := text.takeWhile (· ≠ '=')
  r.heed (unescaped name) (unescaped (text.drop (name.length + 1)))

def heedAll (r : OpenRequest) : List (List Char) → Option OpenRequest
  | [] => some r
  | text :: rest => (r.heedText text).bind (·.heedAll rest)

/-- What stands behind the authority of an address, which can only be this machine. -/
def afterAuthority? : List Char → Option (List Char)
  | '/' :: '/' :: cs =>
    let host := cs.takeWhile (· ≠ '/')
    if host = [] ∨ host = "localhost".toList then some (cs.drop host.length) else none
  | cs => some cs

def ofAddress? (address : List Char) : Option OpenRequest := do
  let rest ← afterAuthority? address
  let text := rest.takeWhile (· ≠ '#')
  let path := text.takeWhile (· ≠ '?')
  (ofPath (unescaped path)).heedAll (Text.separate '&' (text.drop (path.length + 1)))

def ofName? (name : String) : Option OpenRequest :=
  if Text.startsWith "file:".toList name.toList then ofAddress? (name.toList.drop 5)
  else some (ofPath (bytesOf name))

end OpenRequest

end RelQuery.Settings
