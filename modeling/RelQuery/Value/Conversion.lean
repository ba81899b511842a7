import RelQuery.Value.Basic

/-!
# Values and the types of a host program

`ToValue` stores a typed value. `OfValue` reads one back, giving nothing when the stored value
cannot represent the type; a null is left to the caller.
-/

set_option autoImplicit false

namespace RelQuery

class ToValue (α : Type) where
  toValue : α → Value

class OfValue (α : Type) where
  /-- The name of the type in the text of a conversion failure. -/
  typeName : String
  ofValue? : Value → Option α

export ToValue (toValue)

instance : ToValue Value := ⟨id⟩
instance : ToValue Int64 := ⟨.integer⟩
instance : ToValue Int32 := ⟨fun n => .integer n.toInt64⟩
instance : ToValue UInt32 := ⟨fun n => .integer (Int64.ofNat n.toNat)⟩
instance : ToValue Bool := ⟨fun b => .integer (if b then 1 else 0)⟩
instance : ToValue Binary64 := ⟨.real⟩
instance : ToValue String := ⟨.text⟩
instance : ToValue (List UInt8) := ⟨.blob⟩

instance {α : Type} [ToValue α] : ToValue (Option α) :=
  ⟨fun v => (v.map toValue).getD .null⟩

instance : OfValue Value := ⟨"DatabaseValue", some⟩
instance : OfValue Int64 := ⟨"i64", Value.asInteger?⟩

instance : OfValue Int32 :=
  ⟨"i32", fun v => v.asInteger?.bind fun n =>
    if Int32.minValue.toInt ≤ n.toInt ∧ n.toInt ≤ Int32.maxValue.toInt then
      some (Int32.ofInt n.toInt)
    else none⟩

instance : OfValue UInt32 :=
  ⟨"u32", fun v => v.asInteger?.bind fun n =>
    if 0 ≤ n.toInt ∧ n.toInt < UInt32.size then some (UInt32.ofNat n.toInt.toNat) else none⟩

/-- A size is a 64 bit natural, so a stored integer gives one when it is not negative. -/
instance : OfValue UInt64 :=
  ⟨"usize", fun v => v.asInteger?.bind fun n =>
    if 0 ≤ n.toInt then some (UInt64.ofNat n.toInt.toNat) else none⟩

instance : OfValue Binary64 := ⟨"f64", Value.asReal?⟩
instance : OfValue Bool := ⟨"bool", Value.asBool?⟩
instance : OfValue String := ⟨"String", Value.asText?⟩

/-- Bytes are read from a blob, or from text as its UTF-8 form. -/
instance : OfValue (List UInt8) :=
  ⟨"Vec<u8>", fun
    | .blob bytes => some bytes
    | .text s => some s.toUTF8.toList
    | _ => none⟩

end RelQuery
