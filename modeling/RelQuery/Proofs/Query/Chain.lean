import RelQuery.Proofs.Outcome
import RelQuery.Proofs.Query.Calls

/-!
# Chains of joins

The sources of a built query are one first source and a chain of links. Each link is a table,
joined to everything before it; what it starts from is the first source or an earlier table.
-/

set_option autoImplicit false

namespace RelQuery

structure Link where
  table : String
  aliasName : Option String
  join : Join

def Link.source (l : Link) : Source :=
  .table l.table l.aliasName

def Link.nodes (l : Link) : List (Node Source) :=
  [.leaf (.table l.table l.aliasName), .join l.join]

namespace Arena

/-- The first source, then a leaf and a join for each link. -/
def chain (scope : Nat) (first : Source) (links : List Link) : Arena Source where
  scope := scope
  nodes := .leaf first :: links.flatMap Link.nodes
  root := some ⟨scope, 2 * links.length⟩

def tableId (scope i : Nat) : SourceId :=
  ⟨scope, 2 * i + 1⟩

def Begins (scope k : Nat) (x : SourceId) : Prop :=
  x = ⟨scope, 0⟩ ∨ ∃ i < k, x = tableId scope i

/-- Each link has the links before it as its base and starts from one of their sources. -/
structure Linked (scope : Nat) (links : List Link) : Prop where
  base : ∀ (i : Nat) (l : Link), links[i]? = some l → l.join.base = ⟨scope, 2 * i⟩
  target : ∀ (i : Nat) (l : Link), links[i]? = some l → l.join.target = tableId scope i
  origin : ∀ (i : Nat) (l : Link), links[i]? = some l → Begins scope i l.join.origin

theorem Begins.mono {scope k n : Nat} {x : SourceId} (hx : Begins scope k x) (hkn : k ≤ n) :
    Begins scope n x := by
  rcases hx with hx | ⟨i, hi, hx⟩
  · exact .inl hx
  · exact .inr ⟨i, by omega, hx⟩

theorem linked_nil (scope : Nat) : Linked scope [] := by
  constructor <;> intro i l h <;> cases h

theorem Linked.concat {scope : Nat} {links : List Link} {l : Link} (h : Linked scope links)
    (hb : l.join.base = ⟨scope, 2 * links.length⟩) (ht : l.join.target = tableId scope links.length)
    (ho : Begins scope links.length l.join.origin) : Linked scope (links ++ [l]) := by
  have hcases : ∀ (i : Nat) (m : Link), (links ++ [l])[i]? = some m →
      links[i]? = some m ∨ (i = links.length ∧ m = l) := by
    intro i m hm
    by_cases hi : i < links.length
    · rw [List.getElem?_append_left hi] at hm
      exact .inl hm
    · rw [List.getElem?_append_right (by omega)] at hm
      obtain ⟨hlt, heq⟩ := List.getElem?_eq_some_iff.mp hm
      have hlt1 : i - links.length < 1 := hlt
      refine .inr ⟨by omega, ?_⟩
      simpa using heq.symm
  constructor
  · intro i m hm
    rcases hcases i m hm with hm | ⟨rfl, rfl⟩
    · exact h.base i m hm
    · exact hb
  · intro i m hm
    rcases hcases i m hm with hm | ⟨rfl, rfl⟩
    · exact h.target i m hm
    · exact ht
  · intro i m hm
    rcases hcases i m hm with hm | ⟨rfl, rfl⟩
    · exact h.origin i m hm
    · exact ho

section Nodes

variable (scope : Nat) (first : Source) (links : List Link)

theorem length_chain : (chain scope first links).nodes.length = 2 * links.length + 1 := by
  have hlen : (links.flatMap Link.nodes).length = 2 * links.length := by
    induction links with
    | nil => rfl
    | cons l links ih =>
      rw [List.flatMap_cons, List.length_append, ih, Link.nodes]
      simp
      omega
  rw [chain, List.length_cons, hlen]

theorem links_getElem? (links : List Link) (i : Nat) :
    (links.flatMap Link.nodes)[2 * i]? =
        links[i]?.map (fun l => .leaf (.table l.table l.aliasName)) ∧
      (links.flatMap Link.nodes)[2 * i + 1]? = links[i]?.map (fun l => .join l.join) := by
  induction links generalizing i with
  | nil => simp
  | cons l links ih =>
    rw [List.flatMap_cons]
    cases i with
    | zero => exact ⟨rfl, rfl⟩
    | succ i =>
      have hlen : l.nodes.length = 2 := rfl
      obtain ⟨hleaf, hjoin⟩ := ih i
      constructor
      · rw [List.getElem?_append_right (by omega),
          show 2 * (i + 1) - l.nodes.length = 2 * i by omega]
        exact hleaf
      · rw [List.getElem?_append_right (by omega),
          show 2 * (i + 1) + 1 - l.nodes.length = 2 * i + 1 by omega]
        exact hjoin

theorem node_first (x : Nat) : (chain scope first links).node ⟨x, 0⟩ = .ok (.leaf first) := rfl

variable {links} {i : Nat} {l : Link}

theorem node_table (hl : links[i]? = some l) (x : Nat) :
    (chain scope first links).node ⟨x, 2 * i + 1⟩ = .ok (.leaf (.table l.table l.aliasName)) := by
  rw [node, Outcome.element_eq_ok]
  show (links.flatMap Link.nodes)[2 * i]? = _
  rw [(links_getElem? links i).1, hl]
  rfl

theorem node_join (hl : links[i]? = some l) (x : Nat) :
    (chain scope first links).node ⟨x, 2 * (i + 1)⟩ = .ok (.join l.join) := by
  rw [node, Outcome.element_eq_ok]
  show (links.flatMap Link.nodes)[2 * i + 1]? = _
  rw [(links_getElem? links i).2, hl]
  rfl

end Nodes

theorem joins_chain (scope : Nat) (first : Source) (links : List Link) :
    (chain scope first links).joins = links.map Link.join := by
  show (links.flatMap Link.nodes).filterMap _ = _
  induction links with
  | nil => rfl
  | cons l links ih =>
    rw [List.flatMap_cons, List.filterMap_append, ih]
    rfl

theorem leftmostWithin_chain {scope : Nat} {first : Source} {links : List Link}
    (h : Linked scope links) {k n : Nat} (hk : k ≤ links.length) (hn : k < n) :
    (chain scope first links).leftmostWithin n ⟨scope, 2 * k⟩ = .ok ⟨scope, 0⟩ := by
  induction k generalizing n with
  | zero =>
    obtain ⟨n, rfl⟩ : ∃ m, n = m + 1 := ⟨n - 1, by omega⟩
    rw [leftmostWithin, node_first]
    rfl
  | succ k ih =>
    obtain ⟨n, rfl⟩ : ∃ m, n = m + 1 := ⟨n - 1, by omega⟩
    obtain ⟨l, hl⟩ : ∃ l, links[k]? = some l := ⟨_, List.getElem?_eq_getElem hk⟩
    rw [leftmostWithin, node_join scope first hl]
    show (chain scope first links).leftmostWithin n l.join.base = _
    rw [h.base k l hl]
    exact ih (by omega) (by omega)

theorem leftmost_chain {scope : Nat} {first : Source} {links : List Link}
    (h : Linked scope links) :
    (chain scope first links).leftmost ⟨scope, 2 * links.length⟩ = .ok ⟨scope, 0⟩ := by
  refine leftmostWithin_chain h (Nat.le_refl _) ?_
  rw [depth, length_chain]
  omega

/-- The sources of a built query: none, or a chain. -/
def Chained (a : Arena Source) : Prop :=
  (∃ scope, a = .empty scope) ∨
    ∃ (scope : Nat) (first : Source) (links : List Link), a = chain scope first links ∧
      Linked scope links

end Arena

end RelQuery
