import RelQuery.Query.Basic

/-!
# Associations

An association joins one table to a source under a variant name. Associations inside it start
from its own table. It is a plain value and may be used any number of times.
-/

set_option autoImplicit false

namespace RelQuery

structure Association where
  name : String
  kind : AssociationKind
  table : String
  aliasName : Option String
  foreignKey : List (String × String)
  includes : List Association

namespace Association

/-- The origin holds the key. The table goes by the name of the association. -/
def belongsTo (name table : String) (foreignKey : List (String × String)) : Association where
  name := name
  kind := .belongsTo
  table := table
  aliasName := if name = table then none else some name
  foreignKey := foreignKey
  includes := []

/-- The table holds the key, and keeps its own name. -/
def hasOne (name table : String) (foreignKey : List (String × String)) : Association where
  name := name
  kind := .hasOne
  table := table
  aliasName := none
  foreignKey := foreignKey
  includes := []

def aliased (a : Association) (aliasName : String) : Association :=
  { a with aliasName := some aliasName }

def including (a b : Association) : Association :=
  { a with includes := a.includes ++ [b] }

mutual

def equals : Association → Association → Bool
  | ⟨name, kind, table, aliasName, key, includes⟩, b =>
    name == b.name && kind == b.kind && table == b.table && aliasName == b.aliasName &&
      key == b.foreignKey && allEqual includes b.includes

def allEqual : List Association → List Association → Bool
  | [], [] => true
  | a :: as, b :: bs => a.equals b && allEqual as bs
  | _, _ => false

end

end Association

end RelQuery
