import RelQuery.Query.Basic

/-!
# Negated conditions

The negation of a comparison, a membership or an existence is written as its opposite, that of
another expression with NOT before it.
-/

set_option autoImplicit false

namespace RelQuery

inductive Polarity
  | plain
  | negated
deriving DecidableEq

namespace Polarity

def flip : Polarity → Polarity
  | .plain => .negated
  | .negated => .plain

def comparison : Polarity → Comparison → Comparison
  | .plain, c => c
  | .negated, c => c.opposite

def wrap : Polarity → String → String
  | .plain, sql => sql
  | .negated, sql => "(NOT " ++ sql ++ ")"

def membership : Polarity → String
  | .plain => "IN"
  | .negated => "NOT IN"

def existence : Polarity → String
  | .plain => "EXISTS"
  | .negated => "NOT EXISTS"

/-- Membership in an empty list is false for every value. -/
def emptyMembership : Polarity → String
  | .plain => "0"
  | .negated => "1"

end Polarity

end RelQuery
