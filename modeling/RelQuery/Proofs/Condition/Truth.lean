import RelQuery.Query.Polarity

/-!
# Three-valued truth

A comparison with null is neither true nor false, and the connectives are those of SQL. Values are
assigned to operands and results to subqueries; which operands other than null compare as equal or
in order is part of the assignment, since collations and affinities decide it.
-/

set_option autoImplicit false

namespace RelQuery

inductive Truth
  | no
  | unknown
  | yes
deriving DecidableEq

namespace Truth

def ofBool : Bool → Truth
  | false => .no
  | true => .yes

def not : Truth → Truth
  | .no => .yes
  | .unknown => .unknown
  | .yes => .no

def and : Truth → Truth → Truth
  | .no, _ => .no
  | _, .no => .no
  | .yes, .yes => .yes
  | _, _ => .unknown

def or : Truth → Truth → Truth
  | .yes, _ => .yes
  | _, .yes => .yes
  | .no, .no => .no
  | _, _ => .unknown

def any (truths : List Truth) : Truth :=
  truths.foldr or .no

def all (truths : List Truth) : Truth :=
  truths.foldr and .yes

@[simp] theorem and_yes (t : Truth) : t.and .yes = t := by
  cases t <;> rfl

@[simp] theorem yes_and (t : Truth) : Truth.yes.and t = t := by
  cases t <;> rfl

theorem and_assoc (t u v : Truth) : (t.and u).and v = t.and (u.and v) := by
  cases t <;> cases u <;> cases v <;> rfl

theorem and_eq_yes {t u : Truth} : t.and u = .yes ↔ t = .yes ∧ u = .yes := by
  cases t <;> cases u <;> decide

theorem all_append (truths more : List Truth) :
    all (truths ++ more) = (all truths).and (all more) := by
  induction truths with
  | nil => exact (yes_and (all more)).symm
  | cons t truths ih =>
    have hcons : all (t :: (truths ++ more)) = t.and (all (truths ++ more)) := rfl
    rw [List.cons_append, hcons, ih, ← and_assoc]
    rfl

theorem all_eq_yes {truths : List Truth} : all truths = .yes ↔ ∀ t ∈ truths, t = .yes := by
  induction truths with
  | nil => simp [all]
  | cons t truths ih =>
    rw [all, List.foldr_cons, ← all, and_eq_yes, ih, List.forall_mem_cons]

@[simp] theorem not_not (t : Truth) : t.not.not = t := by
  cases t <;> rfl

end Truth

def Polarity.truth : Polarity → Truth → Truth
  | .plain, t => t
  | .negated, t => t.not

theorem Polarity.truth_flip (p : Polarity) (t : Truth) : p.flip.truth t = p.truth t.not := by
  cases p
  · rfl
  · exact t.not_not.symm

inductive Junction
  | and
  | or
deriving DecidableEq

namespace Junction

def op : Junction → BinaryOp
  | .and => .and
  | .or => .or

def truth : Junction → Truth → Truth → Truth
  | .and => Truth.and
  | .or => Truth.or

end Junction

inductive BinaryTest
  | less
  | lessEqual
  | greater
  | greaterEqual
  | like
deriving DecidableEq

def BinaryTest.op : BinaryTest → BinaryOp
  | .less => .less
  | .lessEqual => .lessEqual
  | .greater => .greater
  | .greaterEqual => .greaterEqual
  | .like => .like

inductive Relation
  | equal
  | test (t : BinaryTest)
  | member
deriving DecidableEq

/-- Values of operands in `α` and results of subqueries in `κ`. -/
structure Assignment (α κ : Type) where
  value : α → Value
  holds : Relation → α → α → Bool
  rows : κ → List Value
  found : α → κ → Value → Bool

namespace Assignment

variable {α κ : Type} (A : Assignment α κ)

def related (r : Relation) (x y : α) : Truth :=
  if (A.value x).isNull || (A.value y).isNull then .unknown else .ofBool (A.holds r x y)

/-- Equality by which null is equal to null alone. -/
def same (x y : α) : Truth :=
  if (A.value x).isNull || (A.value y).isNull then
    .ofBool ((A.value x).isNull && (A.value y).isNull)
  else .ofBool (A.holds .equal x y)

def compare (c : Comparison) (x y : α) : Truth :=
  match c with
  | .equal => A.related .equal x y
  | .notEqual => (A.related .equal x y).not
  | .is => A.same x y
  | .isNot => (A.same x y).not

/-- What a comparison with a null literal means for the other side. -/
def nullTest (c : Comparison) (x : α) : Truth :=
  match c with
  | .equal | .is => .ofBool (A.value x).isNull
  | .notEqual | .isNot => .ofBool (!(A.value x).isNull)

def between (x low high : α) : Truth :=
  (A.related (.test .greaterEqual) x low).and (A.related (.test .lessEqual) x high)

def inList (x : α) (candidates : List α) : Truth :=
  .any (candidates.map (A.related .member x))

def inQuery (x : α) (q : κ) : Truth :=
  .any ((A.rows q).map fun v =>
    if (A.value x).isNull || v.isNull then .unknown else .ofBool (A.found x q v))

def existsIn (q : κ) : Truth :=
  .ofBool (!(A.rows q).isEmpty)

theorem compare_comparison (p : Polarity) (c : Comparison) (x y : α) :
    A.compare (p.comparison c) x y = p.truth (A.compare c x y) := by
  cases p
  · rfl
  · cases c <;> simp [Polarity.comparison, Comparison.opposite, Polarity.truth, compare]

theorem nullTest_comparison (p : Polarity) (c : Comparison) (x : α) :
    A.nullTest (p.comparison c) x = p.truth (A.nullTest c x) := by
  cases p
  · rfl
  · cases c <;> cases h : (A.value x).isNull <;>
      simp [Polarity.comparison, Comparison.opposite, Polarity.truth, nullTest, h, Truth.ofBool,
        Truth.not]

theorem same_of_null {y : α} (h : A.value y = .null) (x : α) :
    A.same x y = .ofBool (A.value x).isNull := by
  simp [same, h, Value.isNull]

end Assignment

end RelQuery
