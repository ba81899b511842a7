import Mathlib.Algebra.GroupWithZero.Nat
import Mathlib.Data.List.Forall2
import Mathlib.Data.List.SplitLengths
import RelQuery.Proofs.Outcome
import RelQuery.Query.Variants

/-!
# Blocks of a result

The columns of a result are those of each selected item, one item after another. The offset of an
item is the sum of the widths before it, so that what is cut out of a result at an offset is the
block of its item.
-/

set_option autoImplicit false

namespace RelQuery

variable {α : Type} {sources : Arena (Outcome Nat)} {items : List Item} {widths : List Nat}

def Item.Widths (sources : Arena (Outcome Nat)) (items : List Item) (widths : List Nat) : Prop :=
  List.Forall₂ (fun item width => item.width sources = .ok width) items widths

theorem Item.totalWidth_eq (h : Item.Widths sources items widths) (start : Nat) :
    Item.totalWidth sources items start = .ok (start + widths.sum) := by
  induction h generalizing start with
  | nil => rfl
  | @cons item width items widths hw _ ih =>
    rw [Item.totalWidth, hw]
    show Item.totalWidth sources items (start + width) = _
    rw [ih, List.sum_cons, Nat.add_assoc]

theorem splitLengths_getElem? {i width : Nat} (hi : widths[i]? = some width) (xs : List α) :
    (widths.splitLengths xs)[i]? = some ((xs.drop (widths.take i).sum).take width) := by
  induction widths generalizing i xs with
  | nil => cases hi
  | cons w widths ih =>
    rw [List.splitLengths_cons]
    cases i with
    | zero =>
      cases hi
      rfl
    | succ i =>
      rw [List.getElem?_cons_succ] at hi
      rw [List.getElem?_cons_succ, ih hi, List.drop_drop, List.take_succ_cons, List.sum_cons]

theorem sum_take_add_le {i width : Nat} (hi : widths[i]? = some width) :
    (widths.take i).sum + width ≤ widths.sum := by
  induction widths generalizing i with
  | nil => cases hi
  | cons w widths ih =>
    cases i with
    | zero =>
      cases hi
      simp
    | succ i =>
      rw [List.getElem?_cons_succ] at hi
      have hle := ih hi
      rw [List.take_succ_cons, List.sum_cons, List.sum_cons]
      omega

namespace Query

theorem widths_of_offsets {start : Nat} {offsets : List Nat}
    (h : offsetsFrom sources items start = .ok offsets) :
    ∃ widths, Item.Widths sources items widths ∧
      ∀ i < items.length, offsets[i]? = some (start + (widths.take i).sum) := by
  induction items generalizing start offsets with
  | nil =>
    exact ⟨[], .nil, fun i hi => nomatch hi⟩
  | cons item items ih =>
    rw [offsetsFrom] at h
    obtain ⟨width, hw, h⟩ := Outcome.bind_eq_ok.mp h
    obtain ⟨rest, hrest, h⟩ := Outcome.bind_eq_ok.mp h
    cases h
    obtain ⟨widths, hwidths, hoffsets⟩ := ih hrest
    have hat : ∀ i < (item :: items).length,
        (start :: rest)[i]? = some (start + ((width :: widths).take i).sum) := by
      intro i hi
      cases i with
      | zero => rfl
      | succ i =>
        rw [List.getElem?_cons_succ, hoffsets i (Nat.lt_of_succ_lt_succ hi), List.take_succ_cons,
          List.sum_cons, Nat.add_assoc]
    exact ⟨width :: widths, .cons hw hwidths, hat⟩

/-- A list with as many elements as a query has columns, taken apart by selected items. -/
structure Blocks (schema : Schema) (q : Query) (xs : List α) (blocks : List (List α)) : Prop where
  whole : blocks.flatten = xs
  widths : List.Forall₂ (fun item block => item.width (q.sources.widths schema) = .ok block.length)
    q.selection blocks

theorem width_eq (schema : Schema) (q : Query) :
    q.width schema =
      if q.selection.isEmpty then
        match q.sources.root with
        | some id => (q.sources.widths schema).width id
        | none => .ok 0
      else Item.totalWidth (q.sources.widths schema) q.selection 0 := by
  obtain ⟨_, _, ⟨_, _, _⟩, _, _, _, _, _, _⟩ := q
  rfl

theorem width_of_selection {q : Query} (hs : q.selection ≠ []) (schema : Schema) :
    q.width schema = Item.totalWidth (q.sources.widths schema) q.selection 0 := by
  rw [width_eq, if_neg]
  simpa using hs

section Result

variable {schema : Schema} {q : Query} {n : Nat} {offsets : List Nat}

theorem widths_of_query (hs : q.selection ≠ []) (hwidth : q.width schema = .ok n)
    (hoffsets : offsetsFrom (q.sources.widths schema) q.selection 0 = .ok offsets) :
    ∃ widths, Item.Widths (q.sources.widths schema) q.selection widths ∧ widths.sum = n ∧
      ∀ i < q.selection.length, offsets[i]? = some (widths.take i).sum := by
  obtain ⟨widths, hwidths, hat⟩ := widths_of_offsets hoffsets
  rw [width_of_selection hs, Item.totalWidth_eq hwidths, Nat.zero_add] at hwidth
  simp only [Nat.zero_add] at hat
  exact ⟨widths, hwidths, Except.ok.inj hwidth, hat⟩

theorem width_at {widths : List Nat} (h : Item.Widths sources items widths) {i : Nat} {item : Item}
    (hi : items[i]? = some item) {width : Nat} (hw : item.width sources = .ok width) :
    widths[i]? = some width := by
  induction h generalizing i with
  | nil => cases hi
  | cons hwidth _ ih =>
    cases i with
    | zero =>
      cases hi
      rw [hwidth] at hw
      cases hw
      rfl
    | succ i => exact ih hi

variable {i start width : Nat} {item : Item}

theorem widths_at (hwidth : q.width schema = .ok n)
    (hoffsets : offsetsFrom (q.sources.widths schema) q.selection 0 = .ok offsets)
    (hi : q.selection[i]? = some item) (hstart : offsets[i]? = some start)
    (hw : item.width (q.sources.widths schema) = .ok width) :
    ∃ widths, Item.Widths (q.sources.widths schema) q.selection widths ∧ widths.sum = n ∧
      widths[i]? = some width ∧ start = (widths.take i).sum := by
  have hs : q.selection ≠ [] := List.ne_nil_of_mem (List.mem_of_getElem? hi)
  obtain ⟨widths, hwidths, hsum, hat⟩ := widths_of_query hs hwidth hoffsets
  rw [hat i (List.getElem?_eq_some_iff.mp hi).1] at hstart
  cases hstart
  exact ⟨widths, hwidths, hsum, width_at hwidths hi hw, rfl⟩

theorem offset_add_width_le (hwidth : q.width schema = .ok n)
    (hoffsets : offsetsFrom (q.sources.widths schema) q.selection 0 = .ok offsets)
    (hi : q.selection[i]? = some item) (hstart : offsets[i]? = some start)
    (hw : item.width (q.sources.widths schema) = .ok width) : start + width ≤ n := by
  obtain ⟨widths, -, hsum, hat, rfl⟩ := widths_at hwidth hoffsets hi hstart hw
  rw [← hsum]
  exact sum_take_add_le hat

/-- What stands at the offset of an item, as long as the item is wide, is its block. -/
theorem blocks_of_offsets (hwidth : q.width schema = .ok n)
    (hoffsets : offsetsFrom (q.sources.widths schema) q.selection 0 = .ok offsets)
    (hi : q.selection[i]? = some item) (hstart : offsets[i]? = some start)
    (hw : item.width (q.sources.widths schema) = .ok width) {xs : List α} (hlen : xs.length = n) :
    ∃ blocks, Blocks schema q xs blocks ∧ blocks[i]? = some ((xs.drop start).take width) := by
  obtain ⟨widths, hwidths, hsum, hat, rfl⟩ := widths_at hwidth hoffsets hi hstart hw
  have hlengths : (widths.splitLengths xs).map List.length = widths :=
    List.map_splitLengths_length xs widths (by omega)
  have hwhole : (widths.splitLengths xs).flatten = xs :=
    List.flatten_splitLengths xs widths (by omega)
  rw [← hlengths, Item.Widths, List.forall₂_map_right_iff] at hwidths
  exact ⟨widths.splitLengths xs, ⟨hwhole, hwidths⟩, splitLengths_getElem? hat xs⟩

end Result

end Query

end RelQuery
