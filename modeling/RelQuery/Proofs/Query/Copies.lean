import RelQuery.Proofs.Query.Descent
import RelQuery.Proofs.Query.NameClash

/-!
# Copies of a query

A query and the copies of it and of its copies are a family. Every member gives out an id for each
node that is added to its sources. The members share one scope and count on by themselves, so ids
that two of them give out once they have parted can be equal.
-/

set_option autoImplicit false

namespace RelQuery

def Node.unaliased : Node Source → Node Source
  | .leaf (.table name _) => .leaf (.table name none)
  | .leaf (.query q _) => .leaf (.query q none)
  | .join j => .join j

theorem Node.unaliased_setAlias (aliasName : String) (node : Node Source) :
    (Query.setAlias aliasName node).unaliased = node.unaliased := by
  rcases node with (⟨_, _⟩ | ⟨_, _⟩) | _ <;> rfl

theorem Node.map_unaliased_modify (nodes : List (Node Source)) (i : Nat) (aliasName : String) :
    (nodes.modify i (Query.setAlias aliasName)).map Node.unaliased = nodes.map Node.unaliased := by
  apply List.ext_getElem?
  intro k
  rw [List.getElem?_map, List.getElem?_map, List.getElem?_modify]
  by_cases hk : i = k
  · simp [hk, Function.comp_def, Node.unaliased_setAlias]
  · simp [hk]

/-- The scope and the nodes stay, up to aliases; nodes may be added. -/
structure Query.Grows (q r : Query) : Prop where
  scope : r.sources.scope = q.sources.scope
  nodes : q.sources.nodes.map Node.unaliased <+: r.sources.nodes.map Node.unaliased

theorem Query.Grows.refl (q : Query) : q.Grows q :=
  ⟨rfl, List.prefix_rfl⟩

theorem Query.Grows.trans {q r s : Query} (h : q.Grows r) (h' : r.Grows s) : q.Grows s :=
  ⟨h'.scope.trans h.scope, h.nodes.trans h'.nodes⟩

theorem Query.Grows.length_le {q r : Query} (h : q.Grows r) :
    q.sources.nodes.length ≤ r.sources.nodes.length := by
  simpa using h.nodes.length_le

theorem Query.Grows.node {q r : Query} (h : q.Grows r) {k : Nat} {node : Node Source}
    (hk : q.sources.nodes[k]? = some node) :
    ∃ node', r.sources.nodes[k]? = some node' ∧ node'.unaliased = node.unaliased := by
  obtain ⟨more, hmore⟩ := h.nodes
  have hlt : k < (q.sources.nodes.map Node.unaliased).length := by
    rw [List.length_map]
    exact (List.getElem?_eq_some_iff.mp hk).1
  have hr : (r.sources.nodes.map Node.unaliased)[k]? = some node.unaliased := by
    rw [← hmore, List.getElem?_append_left hlt, List.getElem?_map, hk]
    rfl
  rw [List.getElem?_map, Option.map_eq_some_iff] at hr
  exact hr

namespace Association

mutual

theorem attach_grows :
    (a : Association) → (origin : SourceId) → (q : Query) → q.Grows (a.attach origin q)
  | ⟨name, kind, table, aliasName, foreignKey, includes⟩, origin, q => by
    cases hr : q.sources.root with
    | none =>
      rw [attach, hr]
      exact .refl q
    | some base =>
      rw [attach_of_root hr]
      refine Query.Grows.trans ?_ (attachAll_grows includes _ _)
      refine ⟨rfl, ?_⟩
      rw [List.append_assoc, List.map_append]
      exact List.prefix_append _ _

theorem attachAll_grows :
    (as : List Association) → (origin : SourceId) → (q : Query) → q.Grows (attachAll as origin q)
  | [], _, q => .refl q
  | a :: as, origin, q => by
    rw [attachAll]
    exact (attach_grows a origin q).trans (attachAll_grows as origin (a.attach origin q))

end

end Association

namespace Query

inductive Change
  | including (a : Association)
  | push (node : Node Source)
  | aliased (aliasName : String)

def change (q : Query) : Change → Query
  | .including a => q.including a
  | .push node => { q with sources := (q.sources.push node).2 }
  | .aliased aliasName => q.aliased aliasName

theorem change_grows (q : Query) (c : Change) : q.Grows (q.change c) := by
  cases c with
  | including a =>
    rw [change, including]
    cases q.source? with
    | none => exact .refl q
    | some origin => exact a.attach_grows origin q
  | push node =>
    refine ⟨rfl, ?_⟩
    rw [change, Arena.push, List.map_append]
    exact List.prefix_append _ _
  | aliased aliasName =>
    rw [change, aliased]
    cases q.source? with
    | none => exact .refl q
    | some id =>
      have hsame := Node.map_unaliased_modify q.sources.nodes id.index aliasName
      exact ⟨rfl, [], (List.append_nil _).trans hsame.symm⟩

end Query

/-- An id with the node that it was given out for. -/
structure Issue where
  id : SourceId
  node : Node Source

def issuesFrom (scope k : Nat) (nodes : List (Node Source)) : List Issue :=
  nodes.mapIdx fun i node => ⟨⟨scope, k + i⟩, node⟩

/-- A query with the numbers of the issues that gave it its nodes: its own, and before them those
of the query that it is a copy of. -/
structure Member where
  query : Query
  line : List Nat

/-- All issues, in the order in which they were made, and the queries that made them. -/
structure Family where
  issues : List Issue
  members : List Member

namespace Family

inductive Step
  | copy (i : Nat)
  | change (i : Nat) (c : Query.Change)

def ofQuery (q : Query) : Family where
  issues := issuesFrom q.sources.scope 0 q.sources.nodes
  members := [⟨q, List.range q.sources.nodes.length⟩]

def added (m : Member) (c : Query.Change) : List (Node Source) :=
  (m.query.change c).sources.nodes.drop m.query.sources.nodes.length

def changed (n : Nat) (m : Member) (c : Query.Change) : Member where
  query := m.query.change c
  line := m.line ++ List.range' n (added m c).length

def step (f : Family) : Step → Family
  | .copy i =>
    match f.members[i]? with
    | some m => { f with members := f.members ++ [m] }
    | none => f
  | .change i c =>
    match f.members[i]? with
    | some m =>
      { issues := f.issues ++
          issuesFrom m.query.sources.scope m.query.sources.nodes.length (added m c)
        members := f.members.set i (changed f.issues.length m c) }
    | none => f

def run (q : Query) (steps : List Step) : Family :=
  steps.foldl step (ofQuery q)

end Family

theorem getElem?_issuesFrom {scope k i : Nat} {nodes : List (Node Source)} {node : Node Source}
    (h : nodes[i]? = some node) :
    (issuesFrom scope k nodes)[i]? = some ⟨⟨scope, k + i⟩, node⟩ := by
  rw [issuesFrom, List.getElem?_mapIdx, h]
  rfl

/-- The nodes of a member are those of its line, up to aliases, and have their ids. -/
structure Member.Follows (scope : Nat) (issues : List Issue) (m : Member) : Prop where
  scopeEq : m.query.sources.scope = scope
  length : m.line.length = m.query.sources.nodes.length
  issued : ∀ {k n : Nat}, m.line[k]? = some n → ∃ (x : Issue) (node : Node Source),
    issues[n]? = some x ∧ x.id = ⟨scope, k⟩ ∧ m.query.sources.nodes[k]? = some node ∧
      node.unaliased = x.node.unaliased

theorem Member.Follows.append {scope : Nat} {issues : List Issue} {m : Member}
    (h : m.Follows scope issues) (more : List Issue) : m.Follows scope (issues ++ more) where
  scopeEq := h.scopeEq
  length := h.length
  issued := by
    intro k n hn
    obtain ⟨x, node, hx, hrest⟩ := h.issued hn
    refine ⟨x, node, ?_, hrest⟩
    rw [List.getElem?_append_left (List.getElem?_eq_some_iff.mp hx).1, hx]

theorem Member.Follows.lt_of_mem {scope : Nat} {issues : List Issue} {m : Member}
    (h : m.Follows scope issues) {n : Nat} (hn : n ∈ m.line) : n < issues.length := by
  obtain ⟨k, hk⟩ := List.mem_iff_getElem?.mp hn
  obtain ⟨x, -, hx, -⟩ := h.issued hk
  exact (List.getElem?_eq_some_iff.mp hx).1

namespace Family

theorem follows_changed {scope : Nat} {issues : List Issue} {m : Member}
    (h : m.Follows scope issues) (c : Query.Change) :
    (changed issues.length m c).Follows scope
      (issues ++ issuesFrom m.query.sources.scope m.query.sources.nodes.length (added m c)) where
  scopeEq := (m.query.change_grows c).scope.trans h.scopeEq
  length := by
    have hle := (m.query.change_grows c).length_le
    show (m.line ++ List.range' issues.length (added m c).length).length =
      (m.query.change c).sources.nodes.length
    rw [List.length_append, List.length_range', h.length, added, List.length_drop]
    omega
  issued := by
    intro k n hn
    by_cases hk : k < m.line.length
    · rw [changed, List.getElem?_append_left hk] at hn
      obtain ⟨x, node, hx, hid, hnode, hsame⟩ := (h.append _).issued hn
      obtain ⟨node', hnode', hsame'⟩ := (m.query.change_grows c).node hnode
      exact ⟨x, node', hx, hid, hnode', hsame'.trans hsame⟩
    · rw [changed, List.getElem?_append_right (by omega), h.length] at hn
      rw [h.length] at hk
      obtain ⟨hlt, rfl⟩ := List.getElem?_eq_some_iff.mp hn
      rw [List.length_range'] at hlt
      have hadded : (added m c)[k - m.query.sources.nodes.length]? =
          some (added m c)[k - m.query.sources.nodes.length] := List.getElem?_eq_getElem hlt
      refine ⟨⟨⟨scope, k⟩, _⟩, (added m c)[k - m.query.sources.nodes.length], ?_, rfl, ?_, rfl⟩
      · rw [List.getElem_range', Nat.one_mul, List.getElem?_append_right (by omega),
          Nat.add_sub_cancel_left, getElem?_issuesFrom hadded, h.scopeEq,
          Nat.add_sub_cancel' (by omega)]
      · rw [← hadded, added, List.getElem?_drop, Nat.add_sub_cancel' (by omega)]
        rfl

/-- Two lines that agree on `d` issues and share no other. -/
structure Part (d : Nat) (l l' : List Nat) : Prop where
  left : d ≤ l.length
  right : d ≤ l'.length
  take : l.take d = l'.take d
  drop : ∀ n ∈ l.drop d, n ∉ l'

theorem part_self (l : List Nat) : Part l.length l l where
  left := Nat.le_refl _
  right := Nat.le_refl _
  take := rfl
  drop := by simp

theorem Part.append_left {d : Nat} {l l' : List Nat} (h : Part d l l') {fresh : List Nat}
    (hf : ∀ n ∈ fresh, n ∉ l') : Part d (l ++ fresh) l' where
  left := by
    rw [List.length_append]
    exact Nat.le_add_right_of_le h.left
  right := h.right
  take := by rw [List.take_append_of_le_length h.left, h.take]
  drop := by
    rw [List.drop_append_of_le_length h.left]
    intro n hn
    rcases List.mem_append.mp hn with hn | hn
    · exact h.drop n hn
    · exact hf n hn

theorem Part.append_right {d : Nat} {l l' : List Nat} (h : Part d l l') {fresh : List Nat}
    (hf : ∀ n ∈ fresh, n ∉ l) : Part d l (l' ++ fresh) where
  left := h.left
  right := by
    rw [List.length_append]
    exact Nat.le_add_right_of_le h.right
  take := by rw [List.take_append_of_le_length h.right, h.take]
  drop := by
    intro n hn
    rw [List.mem_append, not_or]
    exact ⟨h.drop n hn, fun hfresh => hf n hfresh (List.mem_of_mem_drop hn)⟩

/-- What holds of a family after any steps. -/
structure Traced (scope : Nat) (f : Family) : Prop where
  follows : ∀ m ∈ f.members, m.Follows scope f.issues
  part : ∀ m ∈ f.members, ∀ m' ∈ f.members, ∃ d, Part d m.line m'.line

theorem traced_ofQuery (q : Query) : (ofQuery q).Traced q.sources.scope where
  follows := by
    intro m hm
    rw [List.mem_singleton.mp hm]
    refine ⟨rfl, List.length_range, ?_⟩
    intro k n hn
    obtain ⟨hk, rfl⟩ := List.getElem?_eq_some_iff.mp hn
    rw [List.length_range] at hk
    have hnode : q.sources.nodes[k]? = some q.sources.nodes[k] := List.getElem?_eq_getElem hk
    refine ⟨⟨⟨q.sources.scope, k⟩, _⟩, q.sources.nodes[k], ?_, rfl, hnode, rfl⟩
    rw [List.getElem_range, ofQuery, getElem?_issuesFrom hnode, Nat.zero_add]
  part := by
    intro m hm m' hm'
    rw [List.mem_singleton.mp hm, List.mem_singleton.mp hm']
    exact ⟨_, part_self _⟩

/-- A step makes new issues for at most one member. -/
theorem Traced.step {scope : Nat} {f : Family} (h : f.Traced scope) (s : Step) :
    (f.step s).Traced scope := by
  cases s with
  | copy i =>
    rw [Family.step]
    split
    · rename_i m hm
      have hmem : m ∈ f.members := List.mem_of_getElem? hm
      have hsub : ∀ m' ∈ f.members ++ [m], m' ∈ f.members := by
        intro m' hm'
        rcases List.mem_append.mp hm' with hm' | hm'
        · exact hm'
        · rwa [List.mem_singleton.mp hm']
      exact ⟨fun m' hm' => h.follows m' (hsub m' hm'), fun m₁ h₁ m₂ h₂ =>
        h.part m₁ (hsub m₁ h₁) m₂ (hsub m₂ h₂)⟩
    · exact h
  | change i c =>
    rw [Family.step]
    split
    · rename_i m hm
      have hmem : m ∈ f.members := List.mem_of_getElem? hm
      have hfresh : ∀ m' ∈ f.members, ∀ n ∈ List.range' f.issues.length (added m c).length,
          n ∉ m'.line := by
        intro m' hm' n hn hline
        have hlt := (h.follows m' hm').lt_of_mem hline
        have hle := (List.mem_range'_1.mp hn).1
        omega
      constructor
      · intro m' hm'
        rcases List.mem_or_eq_of_mem_set hm' with hm' | rfl
        · exact (h.follows m' hm').append _
        · exact follows_changed (h.follows m hmem) c
      · intro m₁ h₁ m₂ h₂
        rcases List.mem_or_eq_of_mem_set h₁ with h₁ | rfl <;>
          rcases List.mem_or_eq_of_mem_set h₂ with h₂ | rfl
        · exact h.part m₁ h₁ m₂ h₂
        · obtain ⟨d, hd⟩ := h.part m₁ h₁ m hmem
          exact ⟨d, hd.append_right (hfresh m₁ h₁)⟩
        · obtain ⟨d, hd⟩ := h.part m hmem m₂ h₂
          exact ⟨d, hd.append_left (hfresh m₂ h₂)⟩
        · exact ⟨_, part_self _⟩
    · exact h

theorem traced_run (q : Query) (steps : List Step) : (run q steps).Traced q.sources.scope := by
  have hsteps : ∀ (steps : List Step) (f : Family), f.Traced q.sources.scope →
      (steps.foldl step f).Traced q.sources.scope := by
    intro steps
    induction steps with
    | nil => exact fun _ hf => hf
    | cons s steps ih => exact fun f hf => ih (f.step s) (hf.step s)
  exact hsteps steps (ofQuery q) (traced_ofQuery q)

end Family

/-- An id stands for a node in a query: it is accepted, the node is found, and a column that it
qualifies is written, if at all, with the name of that source or that name and a number. -/
structure Query.Denotes (q : Query) (id : SourceId) (node : Node Source) : Prop where
  accepted : q.sources.contains id = true
  found : ∃ node', q.sources.node id = .ok node' ∧ node'.unaliased = node.unaliased
  written : ∀ {schema : Schema} {ctx : Context} {column sql : String},
    Context.of schema q.sources = .ok ctx → ctx.columnSql (some (.source id)) column = .ok sql →
      ∃ (source : Source) (declared name : String), q.sources.node id = .ok (.leaf source) ∧
        source.declaredName = some declared ∧
        (name = declared ∨ ∃ i : Nat, name = declared ++ i.repr) ∧
        sql = schema.quote name ++ "." ++ schema.quote column

structure Query.Refuses (q : Query) (id : SourceId) : Prop where
  unknown : q.sources.contains id = false
  fails : ∀ {schema : Schema} {ctx : Context}, Context.of schema q.sources = .ok ctx →
    ∀ column : String, ctx.columnSql (some (.source id)) column =
      .error (.refused (.mismatch .foreignSource))

namespace Member.Follows

variable {scope : Nat} {issues : List Issue} {m : Member} {k : Nat}

/-- The id at a place of a line stands for the node of the issue at that place. -/
theorem denotes (h : m.Follows scope issues) {n : Nat} (hn : m.line[k]? = some n) {x : Issue}
    (hx : issues[n]? = some x) : x.id = ⟨scope, k⟩ ∧ m.query.Denotes ⟨scope, k⟩ x.node := by
  obtain ⟨y, node, hy, hid, hnode, hsame⟩ := h.issued hn
  rw [hx] at hy
  cases hy
  have hlt : k < m.query.sources.nodes.length := (List.getElem?_eq_some_iff.mp hnode).1
  have hfound : m.query.sources.node ⟨scope, k⟩ = .ok node := Outcome.element_eq_ok.mpr hnode
  refine ⟨hid, Arena.contains_iff.mpr ⟨h.scopeEq.symm, hlt⟩, ⟨node, hfound, hsame⟩, ?_⟩
  intro schema ctx column sql hctx hsql
  obtain ⟨names, hnames, rfl⟩ := Outcome.map_eq_ok.mp hctx
  obtain ⟨name, hname, hsql⟩ := Outcome.bind_eq_ok.mp hsql
  cases hsql
  have hk := (Context.sourceName_eq_ok.mp hname).2
  obtain ⟨source, declared, hleaf, hdeclared, hnumber⟩ := Arena.leaf_of_resolved hnames hk
  exact ⟨source, declared, name, Outcome.element_eq_ok.mpr hleaf, hdeclared, hnumber, rfl⟩

theorem refuses (h : m.Follows scope issues) (hk : m.line.length ≤ k) :
    m.query.Refuses ⟨scope, k⟩ := by
  have hunknown : m.query.sources.contains ⟨scope, k⟩ = false := by
    rw [Bool.eq_false_iff]
    intro hcontains
    have hlt : k < m.query.sources.nodes.length := (Arena.contains_iff.mp hcontains).2
    rw [← h.length] at hlt
    omega
  refine ⟨hunknown, ?_⟩
  intro schema ctx hctx column
  obtain ⟨names, -, rfl⟩ := Outcome.map_eq_ok.mp hctx
  rw [Context.columnSql, Context.sourceName, hunknown]
  rfl

end Member.Follows

namespace Family

/-- What becomes of the ids of a member in another one. Those from before the two parted stand for
what they were given out for. Of the others the other member refuses what is past its own ids, and
takes the rest for its own. -/
structure Meets (f : Family) (m m' : Member) (d : Nat) : Prop where
  part : Part d m.line m'.line
  before : ∀ {k n : Nat} {x : Issue}, k < d → m.line[k]? = some n → f.issues[n]? = some x →
    m'.query.Denotes x.id x.node
  taken : ∀ {k n : Nat} {x : Issue}, d ≤ k → k < m'.line.length → m.line[k]? = some n →
    f.issues[n]? = some x → n ∉ m'.line ∧ ∃ (n' : Nat) (y : Issue), m'.line[k]? = some n' ∧
      f.issues[n']? = some y ∧ y.id = x.id ∧ m'.query.Denotes x.id y.node
  past : ∀ {k n : Nat} {x : Issue}, m'.line.length ≤ k → m.line[k]? = some n →
    f.issues[n]? = some x → m'.query.Refuses x.id

theorem Traced.meets {scope : Nat} {f : Family} (h : f.Traced scope) {m m' : Member}
    (hm : m ∈ f.members) (hm' : m' ∈ f.members) : ∃ d, f.Meets m m' d := by
  obtain ⟨d, hpart⟩ := h.part m hm m' hm'
  have hfollows := h.follows m hm
  have hfollows' := h.follows m' hm'
  refine ⟨d, hpart, ?_, ?_, ?_⟩
  · intro k n x hk hn hx
    have hn' : m'.line[k]? = some n := by
      rw [← List.getElem?_take_of_lt hk, ← hpart.take, List.getElem?_take_of_lt hk, hn]
    rw [(hfollows.denotes hn hx).1]
    exact (hfollows'.denotes hn' hx).2
  · intro k n x hk hlt hn hx
    have hn' : m'.line[k]? = some m'.line[k] := List.getElem?_eq_getElem hlt
    obtain ⟨y, -, hy, -⟩ := hfollows'.issued hn'
    have hmem : n ∈ m.line.drop d := by
      refine List.mem_of_getElem? (i := k - d) ?_
      rw [List.getElem?_drop, Nat.add_sub_cancel' hk, hn]
    rw [(hfollows.denotes hn hx).1]
    exact ⟨hpart.drop n hmem, m'.line[k], y, hn', hy, hfollows'.denotes hn' hy⟩
  · intro k n x hk hn hx
    rw [(hfollows.denotes hn hx).1]
    exact hfollows'.refuses hk

/-- Any two members of a family have parted at some place of their lines. -/
theorem ids_of_copies (q : Query) (steps : List Step) {m m' : Member}
    (hm : m ∈ (run q steps).members) (hm' : m' ∈ (run q steps).members) :
    ∃ d, (run q steps).Meets m m' d :=
  (traced_run q steps).meets hm hm'

def siblings : List Step :=
  [.copy 0, .change 0 (.including (.belongsTo "author" "authors" [("author_id", "id")])),
    .change 1 (.including (.belongsTo "publisher" "publishers" [("publisher_id", "id")]))]

def withAuthors : Query :=
  (Query.table 0 "books").including (.belongsTo "author" "authors" [("author_id", "id")])

def withPublishers : Query :=
  (Query.table 0 "books").including (.belongsTo "publisher" "publishers" [("publisher_id", "id")])

theorem siblings_meet :
    (⟨withAuthors, [0, 1, 2]⟩ : Member) ∈ (run (.table 0 "books") siblings).members ∧
      (⟨withPublishers, [0, 3, 4]⟩ : Member) ∈ (run (.table 0 "books") siblings).members ∧
        ∃ d, (run (.table 0 "books") siblings).Meets ⟨withAuthors, [0, 1, 2]⟩
          ⟨withPublishers, [0, 3, 4]⟩ d := by
  have hleft : (⟨withAuthors, [0, 1, 2]⟩ : Member) ∈ (run (.table 0 "books") siblings).members :=
    List.mem_cons_self
  have hright : (⟨withPublishers, [0, 3, 4]⟩ : Member) ∈
      (run (.table 0 "books") siblings).members := List.mem_cons_of_mem _ List.mem_cons_self
  exact ⟨hleft, hright, ids_of_copies (.table 0 "books") siblings hleft hright⟩

/-- Every id that a member accepts stands for what it was given out for. -/
def Unmistaken (f : Family) : Prop :=
  ∀ m ∈ f.members, ∀ m' ∈ f.members, ∀ n ∈ m.line, ∀ x, f.issues[n]? = some x →
    m'.query.sources.contains x.id = true →
      ∃ node, m'.query.sources.node x.id = .ok node ∧ node.unaliased = x.node.unaliased

/-- The name column of the authors is written as that of the publishers. -/
theorem siblings_mistaken : ¬ (run (.table 0 "books") siblings).Unmistaken ∧
    (run (.table 0 "books") siblings).issues[1]? =
      some ⟨⟨0, 1⟩, .leaf (.table "authors" (some "author"))⟩ ∧
    (((withPublishers.select [.expr (.column (some (.source ⟨0, 1⟩)) "name") none]).render
        ⟨fun _ => .ok ["id", "publisher_id"], fun _ => .ok true, Text.quoteIdentifier⟩).runFrom
          .empty).1 =
      .ok ("SELECT \"publisher\".\"name\" FROM \"books\" LEFT JOIN \"publishers\" " ++
        "\"publisher\" ON \"publisher\".\"id\" = \"books\".\"publisher_id\"") := by
  refine ⟨fun h => ?_, rfl, rfl⟩
  have hright : (⟨withPublishers, [0, 3, 4]⟩ : Member) ∈
      (run (.table 0 "books") siblings).members := List.mem_cons_of_mem _ List.mem_cons_self
  obtain ⟨node, hnode, hsame⟩ := h ⟨withAuthors, [0, 1, 2]⟩ List.mem_cons_self _ hright 1
    (List.mem_cons_of_mem _ List.mem_cons_self) _ rfl rfl
  cases hnode
  simp [Node.unaliased] at hsame

end Family

end RelQuery
