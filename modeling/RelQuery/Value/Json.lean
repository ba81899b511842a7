import RelQuery.Json.Numeral
import RelQuery.Json.Quoted
import RelQuery.Json.Reader
import RelQuery.Number.DecimalText
import RelQuery.Value.Basic

/-!
# Values stored as JSON

A value is written as an object whose one key is its class, and null as the name of its class.
A real that is not finite is written as null and does not read back.
-/

set_option autoImplicit false

namespace RelQuery.Value

/-- Reals are positional from `0.00001` up, and of two nearest decimals the even one is
written. -/
def jsonRealFormat : DecimalFormat where
  smallestPositional := -5
  signedExponent := true
  tie := .even
  nan := "null"
  infinite _ := "null"

def jsonField (name text : String) : String :=
  "\x7b" ++ Json.quoted name ++ ":" ++ text ++ "\x7d"

def toJson : Value → String
  | .null => Json.quoted "Null"
  | .integer n => jsonField "Integer" n.toInt.repr
  | .real x => jsonField "Real" (jsonRealFormat.render x)
  | .text s => jsonField "Text" (Json.quoted s)
  | .blob bytes =>
    jsonField "Blob"
      ("[" ++ String.intercalate "," (bytes.map fun b => b.toNat.repr) ++ "]")

def integerOf? : Json.Document → Option Int
  | .number n =>
    match n.read? with
    | some (.integer i) => some i
    | _ => none
  | _ => none

def realOf? : Json.Document → Option Binary64
  | .number n =>
    match n.read? with
    | some (.integer i) => some (.ofInt i)
    | some (.real x) => some x
    | none => none
  | _ => none

def textOf? : Json.Document → Option String
  | .string s => s
  | _ => none

def byteOf? (d : Json.Document) : Option UInt8 :=
  (integerOf? d).bind fun n => if 0 ≤ n ∧ n < 256 then some (UInt8.ofNat n.toNat) else none

def bytesOf? : Json.Document → Option (List UInt8)
  | .array items => items.mapM byteOf?
  | _ => none

def ofField? (name : String) (content : Json.Document) : Option Value :=
  if name = "Null" then
    match content with
    | .null => some .null
    | _ => none
  else if name = "Integer" then ((integerOf? content).bind int64?).map .integer
  else if name = "Real" then (realOf? content).map .real
  else if name = "Text" then (textOf? content).map .text
  else if name = "Blob" then (bytesOf? content).map .blob
  else none

def ofDocument? : Json.Document → Option Value
  | .string (some "Null") => some .null
  | .object [(some name, content)] => ofField? name content
  | _ => none

/-- Reads what `toJson` writes, and the spellings that JSON allows beside it. -/
def ofJson? (s : String) : Option Value :=
  (Json.Document.ofText? s).bind ofDocument?

end RelQuery.Value
