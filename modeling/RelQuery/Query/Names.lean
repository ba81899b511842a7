import RelQuery.Query.Arena

/-!
# Names of sources

Two sources of one FROM clause cannot go by one name. Reachable sources are grouped by their
declared names up to ASCII case; where a group has more than one member, each is numbered in the
order of the clause. Sources of a subquery are named in their own scope.
-/

set_option autoImplicit false

namespace RelQuery

/-- Folded names with the sources that declare them. -/
abbrev NameGroups := List (String × List (SourceId × String))

namespace NameGroups

def enter (id : SourceId) (name : String) : NameGroups → NameGroups
  | [] => [(Text.foldCase name, [(id, name)])]
  | (key, members) :: rest =>
    if key = Text.foldCase name then (key, members ++ [(id, name)]) :: rest
    else (key, members) :: enter id name rest

/-- A lone source keeps its name, members of a larger group are numbered from zero. -/
def memberNames (members : List (SourceId × String)) : List (SourceId × String) :=
  if members.length ≤ 1 then members
  else members.zipIdx.map fun ((id, name), i) => (id, name ++ i.repr)

def names (groups : NameGroups) : List (SourceId × String) :=
  groups.flatMap fun g => memberNames g.2

end NameGroups

namespace Arena

variable {α : Type}

def groupsOf (a : Arena α) (declared : α → Option String) :
    List SourceId → NameGroups → Outcome NameGroups
  | [], groups => .ok groups
  | id :: ids, groups => do
    match ← a.node id with
    | .leaf source =>
      match declared source with
      | some name => a.groupsOf declared ids (groups.enter id name)
      | none => a.groupsOf declared ids groups
    | .join _ => a.groupsOf declared ids groups

def assign : List (Option String) → List (SourceId × String) → List (Option String)
  | names, [] => names
  | names, (id, name) :: rest => assign (names.set id.index (some name)) rest

/-- The name of each node: none for joins, for sources that declare none, and for those that the
root does not reach. -/
def resolveNames (a : Arena α) (declared : α → Option String) :
    Outcome (List (Option String)) := do
  let ids ← a.reachable
  let groups ← a.groupsOf declared ids []
  pure (assign (a.nodes.map fun _ => none) groups.names)

end Arena

end RelQuery
