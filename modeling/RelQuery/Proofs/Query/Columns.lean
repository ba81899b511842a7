import RelQuery.Proofs.Query.Attach
import RelQuery.Proofs.Query.RecastWidth
import RelQuery.Query.Context

/-!
# Columns of a result

A column of a result is one of a source or a computed one. An association adds the columns of its
tables after those selected before it. An empty selection stands for all columns only as long as
it is empty, so that what it stood for is gone once an association has added its star.
-/

set_option autoImplicit false

namespace RelQuery

open Arena

/-- A column of a result, with where it is read from. -/
inductive Column
  | ofSource (source : SourceId) (position : Nat)
  | computed (e : Expr) (aliasName : Option String)

def Column.allOf (source : SourceId) (width : Nat) : List Column :=
  (List.range width).map (.ofSource source)

def Column.ofTables (scope : Nat) : Nat → List Nat → List Column
  | _, [] => []
  | k, width :: widths => Column.allOf (tableId scope k) width ++ ofTables scope (k + 1) widths

theorem Column.length_allOf (source : SourceId) (width : Nat) :
    (allOf source width).length = width := by
  simp [allOf]

theorem Column.length_ofTables (scope k : Nat) (widths : List Nat) :
    (ofTables scope k widths).length = widths.sum := by
  induction widths generalizing k with
  | nil => rfl
  | cons width widths ih => simp [ofTables, length_allOf, ih]

namespace Arena

def columnsWithin (a : Arena (Outcome Nat)) : Nat → SourceId → Outcome (List Column)
  | 0, _ => .error .endless
  | depth + 1, id => do
    match ← a.node id with
    | .join j => do
      let base ← a.columnsWithin depth j.base
      let target ← a.columnsWithin depth j.target
      pure (base ++ target)
    | .leaf width => do
      let n ← width
      pure (Column.allOf id n)

def columns (a : Arena (Outcome Nat)) (id : SourceId) : Outcome (List Column) :=
  a.columnsWithin a.depth id

theorem widthWithin_eq_length (a : Arena (Outcome Nat)) (n : Nat) (x : SourceId) :
    a.widthWithin n x = (a.columnsWithin n x).map List.length := by
  induction n generalizing x with
  | zero => rfl
  | succ n ih =>
    rw [widthWithin, columnsWithin]
    rcases a.node x with _ | width | j
    · rfl
    · rcases width with _ | n
      · rfl
      · exact congrArg Except.ok (Column.length_allOf x n).symm
    · show (a.widthWithin n j.base >>= fun base => a.widthWithin n j.target >>= fun target => _) =
        (a.columnsWithin n j.base >>= fun base => a.columnsWithin n j.target >>= fun target =>
          _).map List.length
      rw [ih, ih]
      rcases a.columnsWithin n j.base with _ | base
      · rfl
      · rcases a.columnsWithin n j.target with _ | target
        · rfl
        · exact congrArg Except.ok List.length_append.symm

theorem width_eq_length (a : Arena (Outcome Nat)) (x : SourceId) :
    a.width x = (a.columns x).map List.length :=
  widthWithin_eq_length a a.depth x

theorem node_mono {α : Type} {a b : Arena α} (hab : a.nodes <+: b.nodes) {x : SourceId}
    {node : Node α} (h : a.node x = .ok node) : b.node x = .ok node := by
  obtain ⟨more, hmore⟩ := hab
  have hx : a.nodes[x.index]? = some node := Outcome.element_eq_ok.mp h
  have hlt : x.index < a.nodes.length := (List.getElem?_eq_some_iff.mp hx).1
  rw [Arena.node, Outcome.element_eq_ok, ← hmore, List.getElem?_append_left hlt]
  exact hx

/-- Nodes are only added, so columns that were found once are found again. -/
theorem columnsWithin_mono {a b : Arena (Outcome Nat)} (hab : a.nodes <+: b.nodes)
    {n m : Nat} (hnm : n ≤ m) {x : SourceId} {columns : List Column}
    (h : a.columnsWithin n x = .ok columns) : b.columnsWithin m x = .ok columns := by
  induction n generalizing m x columns with
  | zero => cases h
  | succ n ih =>
    obtain ⟨m, rfl⟩ : ∃ k, m = k + 1 := ⟨m - 1, by omega⟩
    rw [columnsWithin] at h
    obtain ⟨node, hnode, h⟩ := Outcome.bind_eq_ok.mp h
    refine Outcome.bind_eq_ok.mpr ⟨node, node_mono hab hnode, ?_⟩
    cases node with
    | leaf width => exact h
    | join j =>
      obtain ⟨base, hbase, h⟩ := Outcome.bind_eq_ok.mp h
      obtain ⟨target, htarget, h⟩ := Outcome.bind_eq_ok.mp h
      have hbase' := ih (by omega : n ≤ m) hbase
      have htarget' := ih (by omega : n ≤ m) htarget
      exact Outcome.bind_eq_ok.mpr ⟨base, hbase', Outcome.bind_eq_ok.mpr ⟨target, htarget', h⟩⟩

theorem columns_mono {a b : Arena (Outcome Nat)} (hab : a.nodes <+: b.nodes) {x : SourceId}
    {columns : List Column} (h : a.columns x = .ok columns) : b.columns x = .ok columns :=
  columnsWithin_mono hab (Nat.succ_le_succ hab.length_le) h

theorem columns_leaf {a : Arena (Outcome Nat)} {x : SourceId} {n : Nat}
    (hx : a.node x = .ok (.leaf (.ok n))) : a.columns x = .ok (Column.allOf x n) := by
  rw [columns, depth, columnsWithin, hx]
  rfl

end Arena

def Item.columns (sources : Arena (Outcome Nat)) : Item → Outcome (List Column)
  | .star id => sources.columns id
  | .expr e aliasName => .ok [.computed e aliasName]

def Item.allColumns (sources : Arena (Outcome Nat)) : List Item → Outcome (List Column)
  | [] => .ok []
  | item :: items => do
    let columns ← item.columns sources
    let rest ← allColumns sources items
    pure (columns ++ rest)

/-- The columns of the result of a query; an empty selection stands for all of its root. -/
def Query.columns (schema : Schema) (q : Query) : Outcome (List Column) :=
  if q.selection.isEmpty then
    match q.sources.root with
    | some id => (q.sources.widths schema).columns id
    | none => .ok []
  else Item.allColumns (q.sources.widths schema) q.selection

theorem Item.width_eq_length (sources : Arena (Outcome Nat)) (item : Item) :
    item.width sources = (item.columns sources).map List.length := by
  cases item with
  | star x => exact sources.width_eq_length x
  | expr e aliasName => rfl

theorem Item.totalWidth_eq_length (sources : Arena (Outcome Nat)) (items : List Item) (n : Nat) :
    Item.totalWidth sources items n =
      (Item.allColumns sources items).map fun columns => n + columns.length := by
  induction items generalizing n with
  | nil => rfl
  | cons item items ih =>
    rw [totalWidth, allColumns, width_eq_length]
    rcases item.columns sources with _ | columns
    · rfl
    · show totalWidth sources items (n + columns.length) = _
      rw [ih]
      rcases allColumns sources items with _ | rest
      · rfl
      · show Except.ok (n + columns.length + rest.length) =
          Except.ok (n + (columns ++ rest).length)
        rw [List.length_append, Nat.add_assoc]

theorem Item.allColumns_append {sources : Arena (Outcome Nat)} {items more : List Item}
    {columns added : List Column} (h : Item.allColumns sources items = .ok columns)
    (hm : Item.allColumns sources more = .ok added) :
    Item.allColumns sources (items ++ more) = .ok (columns ++ added) := by
  induction items generalizing columns with
  | nil =>
    cases h
    exact hm
  | cons item items ih =>
    obtain ⟨head, hhead, h⟩ := Outcome.bind_eq_ok.mp h
    obtain ⟨rest, hrest, h⟩ := Outcome.bind_eq_ok.mp h
    cases h
    rw [List.cons_append, allColumns, hhead, List.append_assoc]
    show (allColumns sources (items ++ more) >>= _) = _
    rw [ih hrest]
    rfl

theorem Item.allColumns_mono {a b : Arena (Outcome Nat)} (hab : a.nodes <+: b.nodes)
    {items : List Item} {columns : List Column} (h : Item.allColumns a items = .ok columns) :
    Item.allColumns b items = .ok columns := by
  induction items generalizing columns with
  | nil => exact h
  | cons item items ih =>
    obtain ⟨head, hhead, h⟩ := Outcome.bind_eq_ok.mp h
    obtain ⟨rest, hrest, h⟩ := Outcome.bind_eq_ok.mp h
    have hhead' : item.columns b = .ok head := by
      cases item with
      | star x => exact columns_mono hab hhead
      | expr e aliasName => exact hhead
    exact Outcome.bind_eq_ok.mpr ⟨head, hhead', Outcome.bind_eq_ok.mpr ⟨rest, ih hrest, h⟩⟩

namespace Query

variable {schema : Schema} {q : Query}

theorem width_eq_length (schema : Schema) (q : Query) :
    q.width schema = (q.columns schema).map List.length := by
  rw [width_eq, columns]
  split
  · rcases q.sources.root with _ | root
    · rfl
    · exact Arena.width_eq_length _ root
  · simpa only [Nat.zero_add] using Item.totalWidth_eq_length _ q.selection 0

theorem columns_of_bareStar (h : selectsBareStar q.selection q.sources = .ok true) :
    ∃ root, q.sources.root = some root ∧
      q.columns schema = (q.sources.widths schema).columns root := by
  rw [selectsBareStar] at h
  rw [columns]
  split at h
  · cases h
  · rename_i root hroot
    refine ⟨root, hroot, ?_⟩
    split at h
    · rename_i hnil
      rw [hnil, hroot]
      rfl
    · rename_i id hone
      split at h
      · rename_i hid
        rw [hone, hid]
        show ((q.sources.widths schema).columns root >>= fun columns => _) = _
        rcases (q.sources.widths schema).columns root with _ | columns
        · rfl
        · exact congrArg Except.ok (List.append_nil columns)
      · cases h
    · cases h

theorem columns_of_selection (hs : q.selection ≠ []) :
    q.columns schema = Item.allColumns (q.sources.widths schema) q.selection := by
  rw [columns, if_neg]
  simpa using hs

end Query

theorem Arena.chain_append_nodes (scope : Nat) (first : Source) (links added : List Link) :
    (chain scope first links).nodes <+: (chain scope first (links ++ added)).nodes :=
  ⟨added.flatMap Link.nodes, by simp [chain]⟩

theorem Arena.widths_mono (schema : Schema) {a b : Arena Source} (hab : a.nodes <+: b.nodes) :
    (a.widths schema).nodes <+: (b.widths schema).nodes := by
  rw [widths_eq, widths_eq]
  exact hab.map _

section Links

variable {schema : Schema} {scope : Nat} {first : Source} {links added all : List Link}
  {widths : List Nat}

def Link.Widths (schema : Schema) (links : List Link) (widths : List Nat) : Prop :=
  List.Forall₂ (fun l width => l.source.width schema = .ok width) links widths

theorem Arena.columns_tableId {l : Link} {i width : Nat} (hl : all[i]? = some l)
    (hw : l.source.width schema = .ok width) :
    ((chain scope first all).widths schema).columns (tableId scope i) =
      .ok (Column.allOf (tableId scope i) width) := by
  apply columns_leaf
  rw [node_widths, tableId, node_table scope first hl, ← hw]
  rfl

theorem Item.allColumns_stars (h : Linked scope all) (hall : links ++ added = all)
    (hw : Link.Widths schema added widths) :
    Item.allColumns ((chain scope first all).widths schema) (Association.stars added) =
      .ok (Column.ofTables scope links.length widths) := by
  induction hw generalizing links with
  | nil => rfl
  | @cons l width added widths hwidth _ ih =>
    have hl : all[links.length]? = some l := by simp [← hall]
    have hhead : Item.columns ((chain scope first all).widths schema) (.star l.join.target) =
        .ok (Column.allOf (tableId scope links.length) width) := by
      rw [h.target links.length l hl]
      exact columns_tableId hl hwidth
    have hrest := ih (show (links ++ [l]) ++ added = all by simp [← hall])
    rw [List.length_append, List.length_singleton] at hrest
    exact Outcome.bind_eq_ok.mpr ⟨_, hhead, Outcome.bind_eq_ok.mpr ⟨_, hrest, rfl⟩⟩

end Links

namespace Query

variable {schema : Schema} {q : Query}

def keptColumns (q : Query) (columns : List Column) : List Column :=
  if q.selection.isEmpty then [] else columns

theorem keptColumns_eq_self_iff {columns : List Column} :
    q.keptColumns columns = columns ↔ q.selection ≠ [] ∨ columns = [] := by
  rw [keptColumns]
  cases q.selection with
  | nil => simp [eq_comm]
  | cons item items => simp

theorem extend_columns {scope : Nat} {first : Source} {links added : List Link}
    (hq : q.sources = chain scope first links) (hl : Linked scope (links ++ added))
    (hadded : added ≠ []) {columns : List Column} (hc : q.columns schema = .ok columns)
    {widths : List Nat} (hw : Link.Widths schema added widths) :
    (Association.extend q scope first links added).columns schema =
      .ok (q.keptColumns columns ++ Column.ofTables scope links.length widths) := by
  have hselection : (Association.extend q scope first links added).selection ≠ [] := by
    simp [Association.extend, Association.stars, hadded]
  have hstars : Item.allColumns ((chain scope first (links ++ added)).widths schema)
      (Association.stars added) = .ok (Column.ofTables scope links.length widths) :=
    Item.allColumns_stars hl rfl hw
  rw [columns_of_selection hselection]
  have hkept : Item.allColumns ((chain scope first (links ++ added)).widths schema) q.selection =
      .ok (q.keptColumns columns) := by
    rw [keptColumns]
    by_cases hs : q.selection = []
    · rw [hs]
      rfl
    · rw [columns_of_selection hs, hq] at hc
      rw [if_neg (by simpa using hs)]
      exact Item.allColumns_mono
        (widths_mono schema (chain_append_nodes scope first links added)) hc
  exact Item.allColumns_append hkept hstars

/-- An association adds the columns of its tables, each before those of the associations inside it,
to the columns before. These are lost exactly where they were those of an empty selection. -/
theorem including_columns (hq : q.Built) {origin : SourceId} (hs : q.source? = some origin)
    {columns : List Column} (hc : q.columns schema = .ok columns) (a : Association)
    {widths : List Nat}
    (hw : List.Forall₂ (fun t width => t.width schema = .ok width) a.tables widths) :
    (q.including a).columns schema = .ok (q.keptColumns columns ++
        Column.ofTables q.sources.scope q.sources.joins.length widths) ∧
      (q.including a).width schema = .ok ((q.keptColumns columns).length + widths.sum) ∧
      (q.keptColumns columns = columns ↔ q.selection ≠ [] ∨ columns = []) ∧
      ∀ (i : Nat) (t : Source), a.tables[i]? = some t → (q.including a).sources.node
        (tableId q.sources.scope (q.sources.joins.length + i)) = .ok (.leaf t) := by
  rcases hq.chained with ⟨scope, hsources⟩ | ⟨scope, first, links, hsources, hl⟩
  · rw [source?_empty hsources] at hs
    cases hs
  have hscope : q.sources.scope = scope := congrArg Arena.scope hsources
  have hjoins : q.sources.joins.length = links.length := by
    rw [hsources, joins_chain, List.length_map]
  let added := a.links scope ⟨scope, 0⟩ links.length q.selection.length
  have hafter : q.including a = Association.extend q scope first links added :=
    including_chain hsources hl a
  have hlinked : Linked scope (links ++ added) :=
    Association.linked_links a ⟨scope, 0⟩ q.selection.length hl (.inl rfl)
  have htables : added.map Link.source = a.tables := Association.sources_links scope a _ _ _
  have hadded : added ≠ [] := by
    intro hnil
    have hlen := Association.length_links scope a ⟨scope, 0⟩ links.length q.selection.length
    rw [show a.links scope ⟨scope, 0⟩ links.length q.selection.length = [] from hnil] at hlen
    cases a
    simp [Association.size] at hlen
  have hwidths : Link.Widths schema added widths := by
    rw [← htables, List.forall₂_map_left_iff] at hw
    exact hw
  have hcolumns := extend_columns hsources hlinked hadded hc hwidths
  rw [hscope, hjoins, hafter, width_eq_length, hcolumns]
  refine ⟨rfl, ?_, keptColumns_eq_self_iff, ?_⟩
  · show Except.ok (q.keptColumns columns ++ _).length = _
    rw [List.length_append, Column.length_ofTables]
  · intro i t ht
    rw [← htables, List.getElem?_map] at ht
    obtain ⟨l, hi, rfl⟩ := Option.map_eq_some_iff.mp ht
    have hat : (links ++ added)[links.length + i]? = some l := by
      rw [List.getElem?_append_right (by omega), Nat.add_sub_cancel_left, hi]
    exact node_table scope first hat scope

def librarySchema : Schema :=
  ⟨fun table => .ok (if table = "authors" then ["id"] else ["id", "author_id"]), fun _ => .ok true,
    Text.quoteIdentifier⟩

def authorWithAgent : Association :=
  (Association.belongsTo "author" "authors" [("author_id", "id")]).including
    (.hasOne "agent" "agents" [("id", "author_id")])

theorem columns_withAuthor :
    ((table 0 "books").including authorWithAgent).columns librarySchema =
        .ok [.ofSource ⟨0, 0⟩ 0, .ofSource ⟨0, 0⟩ 1, .ofSource ⟨0, 1⟩ 0, .ofSource ⟨0, 3⟩ 0,
          .ofSource ⟨0, 3⟩ 1] ∧
      ((table 0 "books").including authorWithAgent).width librarySchema = .ok 5 := by
  have hbuilt : (table 0 "books").Built := ⟨_, [], .table 0 "books", rfl⟩
  have hsource : (table 0 "books").source? = some ⟨0, 0⟩ := rfl
  have hbooks : (table 0 "books").columns librarySchema =
      .ok [.ofSource ⟨0, 0⟩ 0, .ofSource ⟨0, 0⟩ 1] := rfl
  have hwidths : List.Forall₂ (fun (t : Source) width => t.width librarySchema = .ok width)
      authorWithAgent.tables [1, 2] := .cons rfl (.cons rfl .nil)
  obtain ⟨hcolumns, hwidth, -⟩ := including_columns hbuilt hsource hbooks authorWithAgent hwidths
  exact ⟨hcolumns, hwidth⟩

/-- All columns of the books are selected by an empty selection, and none of them once their
authors are included. -/
theorem columns_emptied_withAuthor :
    ((table 0 "books").select []).Built ∧
      ((table 0 "books").select []).source? = some ⟨0, 0⟩ ∧
      ((table 0 "books").select []).columns librarySchema =
        .ok [.ofSource ⟨0, 0⟩ 0, .ofSource ⟨0, 0⟩ 1] ∧
      (((table 0 "books").select []).including authorWithAgent).columns librarySchema =
        .ok [.ofSource ⟨0, 1⟩ 0, .ofSource ⟨0, 3⟩ 0, .ofSource ⟨0, 3⟩ 1] ∧
      ((table 0 "books").select []).width librarySchema = .ok 2 ∧
      (((table 0 "books").select []).including authorWithAgent).width librarySchema = .ok 3 :=
  ⟨⟨_, [.select []], .table 0 "books", rfl⟩, rfl, rfl, rfl, rfl, rfl⟩

end Query

end RelQuery
