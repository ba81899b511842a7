import RelQuery.Query.Count

/-!
# Calls of a builder

A built query is started over a source, or over none, and changed by any number of calls. A query
and its copies are the same value, so the calls made on each are a history of their own.
-/

set_option autoImplicit false

namespace RelQuery.Query

/-- A call on a query. A count query takes the scope of a source of its own. -/
inductive Call
  | aliased (aliasName : String)
  | select (selection : List Item)
  | distinct
  | filter (e : Expr)
  | group (grouping : List Expr)
  | filterGroups (e : Expr)
  | order (ordering : List SortTerm)
  | reverse
  | limit (count : Nat) (offset : Option Nat)
  | including (a : Association)
  | countQuery (scope : Nat)

def after (q : Query) : Call → Query
  | .aliased aliasName => q.aliased aliasName
  | .select selection => q.select selection
  | .distinct => q.distinctRows
  | .filter e => q.filter e
  | .group grouping => q.group grouping
  | .filterGroups e => q.filterGroups e
  | .order ordering => q.order ordering
  | .reverse => q.reverse
  | .limit count offset => q.limitTo count offset
  | .including a => q.including a
  | .countQuery scope => q.countQueryIn scope

def afterAll (q : Query) (calls : List Call) : Query :=
  calls.foldl after q

inductive Start : Query → Prop
  | new (scope : Nat) : Start (new scope)
  | table (scope : Nat) (name : String) : Start (table scope name)
  | ofQuery (scope : Nat) (q : Query) (aliasName : Option String) :
    Start (ofQuery scope q aliasName)

def Built (q : Query) : Prop :=
  ∃ (start : Query) (calls : List Call), Start start ∧ q = start.afterAll calls

/-- What the start has and every call keeps, every built query has. -/
theorem Built.of_calls {P : Query → Prop} (hs : ∀ q, Start q → P q)
    (hc : ∀ (q : Query) (call : Call), P q → P (q.after call)) {q : Query} (h : q.Built) : P q := by
  obtain ⟨start, calls, hstart, rfl⟩ := h
  have hrun : ∀ (calls : List Call) (r : Query), P r → P (r.afterAll calls) := by
    intro calls
    induction calls with
    | nil => exact fun _ hr => hr
    | cons call calls ih => exact fun r hr => ih (r.after call) (hc r call hr)
  exact hrun calls start (hs start hstart)

/-- A count query is over the query as a subquery, or in place of its selection, where it counts
the rows or the distinct values of the only item. -/
theorem countQueryIn_cases (q : Query) :
    (∀ scope, q.countQueryIn scope = q.countWrapped scope) ∨
      (∀ scope, q.countQueryIn scope = q.countBy .countAll) ∨
      ∃ (e : Expr) (aliasName : Option String), q.selection = [.expr e aliasName] ∧
        ∀ scope,
          q.countQueryIn scope = countBy { q with distinct := false } (.countDistinct e) := by
  unfold countQueryIn
  split
  · exact .inl fun _ => rfl
  split
  · exact .inl fun _ => rfl
  split
  · split
    · exact .inr (.inl fun _ => rfl)
    · exact .inl fun _ => rfl
  · rename_i e aliasName hselection
    split
    · exact .inr (.inr ⟨e, aliasName, hselection, fun _ => rfl⟩)
    · exact .inr (.inl fun _ => rfl)
  · split
    · exact .inl fun _ => rfl
    · exact .inr (.inl fun _ => rfl)

end RelQuery.Query
