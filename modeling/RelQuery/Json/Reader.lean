import RelQuery.Json.Token

/-!
# Reading JSON documents

The reader takes one token at a time. Open arrays and objects wait on a stack with the children
they have so far, the last one first.
-/

set_option autoImplicit false

namespace RelQuery.Json

/-- An open array or object; an object is open at the field whose key it holds. -/
inductive Frame
  | array (done : List Document)
  | object (done : List (Chars × Document)) (key : Chars)

inductive Reader
  | value (frames : List Frame)
  | firstItem (frames : List Frame)
  | firstKey (frames : List Frame)
  | nextKey (done : List (Chars × Document)) (frames : List Frame)
  | colon (done : List (Chars × Document)) (key : Chars) (frames : List Frame)
  | afterItem (done : List Document) (frames : List Frame)
  | afterField (done : List (Chars × Document)) (frames : List Frame)
  | finished (d : Document)

def close (d : Document) : List Frame → Reader
  | [] => .finished d
  | .array done :: fs => .afterItem (d :: done) fs
  | .object done key :: fs => .afterField ((key, d) :: done) fs

def beginValue (fs : List Frame) : Token → Option Reader
  | .openBrace => some (.firstKey fs)
  | .openBracket => some (.firstItem fs)
  | .null => some (close .null fs)
  | .bool b => some (close (.bool b) fs)
  | .number n => some (close (.number n) fs)
  | .string s => some (close (.string s) fs)
  | _ => none

def Reader.step : Reader → Token → Option Reader
  | .value fs, t => beginValue fs t
  | .firstItem fs, .closeBracket => some (close (.array []) fs)
  | .firstItem fs, t => beginValue (.array [] :: fs) t
  | .firstKey fs, .closeBrace => some (close (.object []) fs)
  | .firstKey fs, .string key => some (.colon [] key fs)
  | .nextKey done fs, .string key => some (.colon done key fs)
  | .colon done key fs, .colon => some (.value (.object done key :: fs))
  | .afterItem done fs, .comma => some (.value (.array done :: fs))
  | .afterItem done fs, .closeBracket => some (close (.array done.reverse) fs)
  | .afterField done fs, .comma => some (.nextKey done fs)
  | .afterField done fs, .closeBrace => some (close (.object done.reverse) fs)
  | _, _ => none

def Reader.run : Reader → List Token → Option Reader
  | r, [] => some r
  | r, t :: ts => (r.step t).bind (·.run ts)

def Document.ofText? (s : String) : Option Document := do
  let ts ← tokens? s.toList
  match ← Reader.run (.value []) ts with
  | .finished d => some d
  | _ => none

theorem Reader.run_append (r : Reader) (ts us : List Token) :
    r.run (ts ++ us) = (r.run ts).bind (·.run us) := by
  induction ts generalizing r with
  | nil => rfl
  | cons t ts ih =>
    simp only [List.cons_append, Reader.run, Option.bind_assoc]
    congr 1
    funext q
    exact ih q

end RelQuery.Json
