import RelQuery.Proofs.Query.Chain

/-!
# Links of attached associations

An association adds a link for itself and then the links of the associations inside it, and their
stars to the end of the selection. So every built query has a chain for its sources.
-/

set_option autoImplicit false

namespace RelQuery

open Arena

namespace Association

mutual

def size : Association → Nat
  | ⟨_, _, _, _, _, includes⟩ => sizeAll includes + 1

def sizeAll : List Association → Nat
  | [] => 0
  | a :: as => a.size + sizeAll as

end

def link (scope : Nat) (a : Association) (origin : SourceId) (k n : Nat) : Link :=
  ⟨a.table, a.aliasName,
    ⟨⟨scope, 2 * k⟩, origin, tableId scope k, a.foreignKey, a.kind, a.name, n⟩⟩

mutual

/-- The links of an association that starts from `origin`, after `k` links and `n` selected
items. -/
def links (scope : Nat) : Association → SourceId → Nat → Nat → List Link
  | ⟨name, kind, table, aliasName, foreignKey, includes⟩, origin, k, n =>
    link scope ⟨name, kind, table, aliasName, foreignKey, includes⟩ origin k n ::
      linksAll scope includes (tableId scope k) (k + 1) (n + 1)

def linksAll (scope : Nat) : List Association → SourceId → Nat → Nat → List Link
  | [], _, _, _ => []
  | a :: as, origin, k, n =>
    a.links scope origin k n ++ linksAll scope as origin (k + a.size) (n + a.size)

end

mutual

theorem length_links (scope : Nat) :
    (a : Association) → (origin : SourceId) → (k n : Nat) →
      (a.links scope origin k n).length = a.size
  | ⟨_, _, _, _, _, includes⟩, origin, k, n => by
    rw [links, size, List.length_cons, length_linksAll scope includes]

theorem length_linksAll (scope : Nat) :
    (as : List Association) → (origin : SourceId) → (k n : Nat) →
      (linksAll scope as origin k n).length = sizeAll as
  | [], _, _, _ => rfl
  | a :: as, origin, k, n => by
    rw [linksAll, sizeAll, List.length_append, length_links scope a, length_linksAll scope as]

end

mutual

def tables : Association → List Source
  | ⟨_, _, table, aliasName, _, includes⟩ => .table table aliasName :: tablesAll includes

def tablesAll : List Association → List Source
  | [] => []
  | a :: as => a.tables ++ tablesAll as

end

theorem tablesAll_concat (as : List Association) (a : Association) :
    tablesAll (as ++ [a]) = tablesAll as ++ a.tables := by
  induction as with
  | nil => simp [tablesAll]
  | cons b as ih => rw [List.cons_append, tablesAll, tablesAll, ih, List.append_assoc]

mutual

theorem sources_links (scope : Nat) :
    (a : Association) → (origin : SourceId) → (k n : Nat) →
      (a.links scope origin k n).map Link.source = a.tables
  | ⟨_, _, _, _, _, includes⟩, origin, k, n => by
    rw [links, tables, List.map_cons, sources_linksAll scope includes]
    rfl

theorem sources_linksAll (scope : Nat) :
    (as : List Association) → (origin : SourceId) → (k n : Nat) →
      (linksAll scope as origin k n).map Link.source = tablesAll as
  | [], _, _, _ => rfl
  | a :: as, origin, k, n => by
    rw [linksAll, tablesAll, List.map_append, sources_links scope a, sources_linksAll scope as]

end

mutual

theorem linked_links {scope : Nat} :
    (a : Association) → (origin : SourceId) → (n : Nat) → {links : List Link} →
      Linked scope links → Begins scope links.length origin →
      Linked scope (links ++ a.links scope origin links.length n)
  | ⟨name, kind, table, aliasName, foreignKey, includes⟩, origin, n, links, h, ho => by
    rw [Association.links, ← List.singleton_append, ← List.append_assoc]
    have hc := h.concat (l := link scope ⟨name, kind, table, aliasName, foreignKey, includes⟩ origin
      links.length n) rfl rfl ho
    have hl := linked_linksAll includes (tableId scope links.length) (n + 1) hc
      (.inr ⟨links.length, by simp, rfl⟩)
    simpa only [List.length_append, List.length_singleton] using hl

theorem linked_linksAll {scope : Nat} :
    (as : List Association) → (origin : SourceId) → (n : Nat) → {links : List Link} →
      Linked scope links → Begins scope links.length origin →
      Linked scope (links ++ linksAll scope as origin links.length n)
  | [], _, _, links, h, _ => by
    rw [linksAll, List.append_nil]
    exact h
  | a :: as, origin, n, links, h, ho => by
    rw [linksAll, ← List.append_assoc]
    have ha := linked_links a origin n h ho
    have hlen : (links ++ a.links scope origin links.length n).length = links.length + a.size := by
      rw [List.length_append, length_links]
    have has := linked_linksAll as origin (n + a.size) ha (ho.mono (by omega))
    rwa [hlen] at has

end

def stars (links : List Link) : List Item :=
  links.map fun l => .star l.join.target

def extend (q : Query) (scope : Nat) (first : Source) (links added : List Link) : Query :=
  { q with
    selection := q.selection ++ stars added
    sources := chain scope first (links ++ added) }

theorem extend_nil {q : Query} {scope : Nat} {first : Source} {links : List Link}
    (hq : q.sources = chain scope first links) : extend q scope first links [] = q := by
  rw [extend, List.append_nil, ← hq, stars, List.map_nil, List.append_nil]
  cases q
  rfl

theorem extend_extend (q : Query) (scope : Nat) (first : Source) (links added more : List Link) :
    extend (extend q scope first links added) scope first (links ++ added) more =
      extend q scope first links (added ++ more) := by
  simp [extend, stars]

theorem attach_of_root {name table : String} {kind : AssociationKind} {aliasName : Option String}
    {foreignKey : List (String × String)} {includes : List Association} {origin base : SourceId}
    {q : Query} (hr : q.sources.root = some base) :
    attach ⟨name, kind, table, aliasName, foreignKey, includes⟩ origin q =
      attachAll includes ⟨q.sources.scope, q.sources.nodes.length⟩
        { q with
          selection := q.selection ++ [.star ⟨q.sources.scope, q.sources.nodes.length⟩]
          sources := ⟨q.sources.scope,
            q.sources.nodes ++ [.leaf (.table table aliasName)] ++
              [.join ⟨base, origin, ⟨q.sources.scope, q.sources.nodes.length⟩, foreignKey, kind,
                name, q.selection.length⟩],
            some ⟨q.sources.scope, q.sources.nodes.length + 1⟩⟩ } := by
  rw [attach, hr]
  simp [push, setRoot]

mutual

theorem attach_chain {scope : Nat} {first : Source} :
    (a : Association) → (origin : SourceId) → {q : Query} → {links : List Link} →
      q.sources = chain scope first links →
      a.attach origin q =
        extend q scope first links (a.links scope origin links.length q.selection.length)
  | ⟨name, kind, table, aliasName, foreignKey, includes⟩, origin, q, links, hq => by
    let l := link scope ⟨name, kind, table, aliasName, foreignKey, includes⟩ origin links.length
      q.selection.length
    have hstep : attach ⟨name, kind, table, aliasName, foreignKey, includes⟩ origin q =
        attachAll includes (tableId scope links.length) (extend q scope first links [l]) := by
      have htarget : (chain scope first links).nodes.length = 2 * links.length + 1 :=
        length_chain scope first links
      have hsources : chain scope first (links ++ [l]) =
          ⟨scope, (chain scope first links).nodes ++ [.leaf (.table table aliasName)] ++
            [.join l.join], some ⟨scope, 2 * links.length + 1 + 1⟩⟩ := by
        simp [chain, Link.nodes, l, link]
        omega
      have hroot : q.sources.root = some ⟨scope, 2 * links.length⟩ := by
        rw [hq]
        rfl
      rw [attach_of_root hroot, hq, htarget, extend, hsources]
      rfl
    have hsources : (extend q scope first links [l]).sources = chain scope first (links ++ [l]) :=
      rfl
    rw [hstep, attachAll_chain includes (tableId scope links.length) hsources, extend_extend]
    simp [Association.links, extend, stars, l]

theorem attachAll_chain {scope : Nat} {first : Source} :
    (as : List Association) → (origin : SourceId) → {q : Query} → {links : List Link} →
      q.sources = chain scope first links →
      attachAll as origin q =
        extend q scope first links (linksAll scope as origin links.length q.selection.length)
  | [], _, _, _, hq => (extend_nil hq).symm
  | a :: as, origin, q, links, hq => by
    have hsources : (extend q scope first links
        (a.links scope origin links.length q.selection.length)).sources = chain scope first
          (links ++ a.links scope origin links.length q.selection.length) := rfl
    rw [attachAll, attach_chain a origin hq, attachAll_chain as origin hsources, extend_extend]
    simp [linksAll, extend, stars, length_links]

end

end Association

namespace Query

theorem source?_chain {q : Query} {scope : Nat} {first : Source} {links : List Link}
    (hq : q.sources = chain scope first links) (h : Linked scope links) :
    q.source? = some ⟨scope, 0⟩ := by
  rw [source?, hq]
  show ((chain scope first links).leftmost ⟨scope, 2 * links.length⟩).toOption = _
  rw [leftmost_chain h]
  rfl

theorem including_chain {q : Query} {scope : Nat} {first : Source} {links : List Link}
    (hq : q.sources = chain scope first links) (h : Linked scope links) (a : Association) :
    q.including a = Association.extend q scope first links
      (a.links scope ⟨scope, 0⟩ links.length q.selection.length) := by
  rw [including, source?_chain hq h]
  exact Association.attach_chain a ⟨scope, 0⟩ hq

theorem aliased_chain {q : Query} {scope : Nat} {first : Source} {links : List Link}
    (hq : q.sources = chain scope first links) (h : Linked scope links) (aliasName : String) :
    q.aliased aliasName = { q with sources := chain scope (first.withAlias aliasName) links } := by
  rw [aliased, source?_chain hq h, hq]
  rfl

theorem source?_empty {q : Query} {scope : Nat} (hq : q.sources = .empty scope) :
    q.source? = none := by
  rw [source?, hq]
  rfl

theorem sources_countQueryIn (q : Query) (scope : Nat) :
    (q.countQueryIn scope).sources = q.sources ∨
      (q.countQueryIn scope).sources = chain scope (.query q.unordered none) [] := by
  rcases q.countQueryIn_cases with h | h | ⟨e, aliasName, -, h⟩
  · rw [h]
    exact .inr rfl
  · rw [h]
    exact .inl rfl
  · rw [h]
    exact .inl rfl

theorem chained_after (q : Query) (call : Call) (h : q.sources.Chained) :
    (q.after call).sources.Chained := by
  cases call with
  | aliased aliasName =>
    rcases h with ⟨scope, hq⟩ | ⟨scope, first, links, hq, hl⟩
    · have hs : (q.after (.aliased aliasName)).sources = .empty scope := by
        rw [after, aliased, source?_empty hq, hq]
      exact .inl ⟨scope, hs⟩
    · have hs : (q.after (.aliased aliasName)).sources =
          chain scope (first.withAlias aliasName) links := by
        rw [after, aliased_chain hq hl]
      exact .inr ⟨scope, _, links, hs, hl⟩
  | including a =>
    rcases h with ⟨scope, hq⟩ | ⟨scope, first, links, hq, hl⟩
    · have hs : (q.after (.including a)).sources = .empty scope := by
        rw [after, including, source?_empty hq, hq]
      exact .inl ⟨scope, hs⟩
    · have hs : (q.after (.including a)).sources = chain scope first
          (links ++ a.links scope ⟨scope, 0⟩ links.length q.selection.length) := by
        rw [after, including_chain hq hl]
        rfl
      have hlinked := Association.linked_links a ⟨scope, 0⟩ q.selection.length hl (.inl rfl)
      exact .inr ⟨scope, first, _, hs, hlinked⟩
  | countQuery scope =>
    rcases q.sources_countQueryIn scope with hs | hs
    · rw [after, hs]
      exact h
    · exact .inr ⟨scope, _, [], hs, linked_nil scope⟩
  | _ => exact h

/-- The sources of every built query are a chain, or there are none. -/
theorem Built.chained {q : Query} (h : q.Built) : q.sources.Chained := by
  refine h.of_calls ?_ fun r call hr => chained_after r call hr
  intro r hr
  cases hr with
  | new scope => exact .inl ⟨scope, rfl⟩
  | table scope name => exact .inr ⟨scope, _, [], rfl, linked_nil scope⟩
  | ofQuery scope r aliasName => exact .inr ⟨scope, _, [], rfl, linked_nil scope⟩

end Query

end RelQuery
