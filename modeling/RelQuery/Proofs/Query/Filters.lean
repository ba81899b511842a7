import RelQuery.Proofs.Condition.Precedence
import RelQuery.Proofs.Query.Attach
import RelQuery.Proofs.Query.Fragments

/-!
# Conditions added one after another

Each condition that is added to a query is put after those before it, with AND between them and in
parentheses, but the parentheses are around both of them and not around each. So the conditions are
read back as the conjunction of all exactly if there is only one of them, or none of them has an OR
outside of all brackets.
-/

set_option autoImplicit false

namespace RelQuery

open Rendering

inductive Filtering
  | rows
  | groups

namespace Filtering

def condition : Filtering → Query → Option Expr
  | .rows, q => q.condition
  | .groups, q => q.having

def keyword : Filtering → String
  | .rows => "WHERE"
  | .groups => "HAVING"

def clause : Filtering → Clauses → String
  | .rows, c => c.condition
  | .groups, c => c.having

def passed : Filtering → Query.Call → Option Expr
  | .rows, .filter e => some e
  | .groups, .filterGroups e => some e
  | _, _ => none

/-- The conditions that were added to a query, after a further call. A count over the query as a
subquery has none of its own. -/
def predicatesAfter (f : Filtering) (q : Query) (ps : List Expr) : Query.Call → List Expr
  | .countQuery scope => if (f.condition (q.countQueryIn scope)).isSome then ps else []
  | call => ps ++ (f.passed call).toList

def predicatesFrom (f : Filtering) : Query → List Expr → List Query.Call → List Expr
  | _, ps, [] => ps
  | q, ps, call :: calls => f.predicatesFrom (q.after call) (f.predicatesAfter q ps call) calls

def predicates (f : Filtering) (start : Query) (calls : List Query.Call) : List Expr :=
  f.predicatesFrom start [] calls

def conjoinAll (ps : List Expr) : Option Expr :=
  ps.foldl (fun d e => some (Query.conjoin d e)) none

theorem conjoinAll_concat (ps : List Expr) (e : Expr) :
    conjoinAll (ps ++ [e]) = some (Query.conjoin (conjoinAll ps) e) := by
  rw [conjoinAll, List.foldl_append]
  rfl

mutual

theorem condition_attach (f : Filtering) :
    (a : Association) → (origin : SourceId) → (q : Query) →
      f.condition (a.attach origin q) = f.condition q
  | ⟨name, kind, table, aliasName, foreignKey, includes⟩, origin, q => by
    cases hr : q.sources.root with
    | none => rw [Association.attach, hr]
    | some base =>
      rw [Association.attach_of_root hr, f.condition_attachAll includes]
      cases f <;> rfl

theorem condition_attachAll (f : Filtering) :
    (as : List Association) → (origin : SourceId) → (q : Query) →
      f.condition (Association.attachAll as origin q) = f.condition q
  | [], _, q => by rw [Association.attachAll]
  | a :: as, origin, q => by
    rw [Association.attachAll, f.condition_attachAll as, f.condition_attach a]

end

theorem conjoinAll_eq_none_iff {ps : List Expr} : conjoinAll ps = none ↔ ps = [] := by
  induction ps using List.reverseRecOn with
  | nil => simp [conjoinAll]
  | append_singleton ps e => simp [conjoinAll_concat]

theorem condition_countQueryIn (f : Filtering) (q : Query) (scope : Nat) :
    f.condition (q.countQueryIn scope) = f.condition q ∨
      f.condition (q.countQueryIn scope) = none := by
  rcases q.countQueryIn_cases with h | h | ⟨e, aliasName, -, h⟩
  · rw [h]
    cases f <;> exact .inr rfl
  · rw [h]
    cases f <;> exact .inl rfl
  · rw [h]
    cases f <;> exact .inl rfl

theorem condition_after {f : Filtering} {q : Query} {ps : List Expr}
    (h : f.condition q = conjoinAll ps) (call : Query.Call) :
    f.condition (q.after call) = conjoinAll (f.predicatesAfter q ps call) := by
  have hadded : ∀ e : Expr, some (Query.conjoin (f.condition q) e) = conjoinAll (ps ++ [e]) := by
    intro e
    rw [conjoinAll_concat, h]
  have hsame : f.condition q = conjoinAll (ps ++ []) := by rw [List.append_nil, h]
  cases call with
  | filter e =>
    cases f with
    | rows => exact hadded e
    | groups => exact hsame
  | filterGroups e =>
    cases f with
    | rows => exact hsame
    | groups => exact hadded e
  | countQuery scope =>
    rw [predicatesAfter, Query.after]
    split
    · rename_i hsome
      rcases f.condition_countQueryIn q scope with hcount | hcount
      · rw [hcount, h]
      · rw [hcount] at hsome
        cases hsome
    · rename_i hnone
      rw [Option.not_isSome_iff_eq_none.mp hnone]
      rfl
  | aliased aliasName =>
    have hkept : f.condition (q.aliased aliasName) = f.condition q := by
      rw [Query.aliased]
      split <;> cases f <;> rfl
    cases f <;> exact hkept.trans hsame
  | including a =>
    have hkept : f.condition (q.including a) = f.condition q := by
      rw [Query.including]
      split
      · exact f.condition_attach a _ q
      · rfl
    cases f <;> exact hkept.trans hsame
  | _ => cases f <;> exact hsame

theorem condition_afterAll {f : Filtering} {q : Query} {ps : List Expr}
    (h : f.condition q = conjoinAll ps) (calls : List Query.Call) :
    f.condition (q.afterAll calls) = conjoinAll (f.predicatesFrom q ps calls) := by
  induction calls generalizing q ps with
  | nil => exact h
  | cons call calls ih => exact ih (condition_after h call)

theorem condition_built (f : Filtering) {start : Query} (hstart : Query.Start start)
    (calls : List Query.Call) :
    f.condition (start.afterAll calls) = conjoinAll (f.predicates start calls) := by
  refine condition_afterAll ?_ calls
  cases hstart <;> cases f <;> rfl

end Filtering

variable {ctx : Context}

theorem Expr.and_lowers {d e : Expr} {x : Fragment} (h : (d.and e).LowersTo ctx x) :
    ∃ y z : Fragment, d.LowersTo ctx y ∧ e.LowersTo ctx z ∧
      x.text = conjoinText y.text z.text := by
  have hrender : (d.and e).render ctx .plain =
      (d.render ctx .plain >>= fun s => e.render ctx .plain >>= fun t =>
        pure ("(" ++ s ++ " " ++ "AND" ++ " " ++ t ++ ")")) := rfl
  rw [LowersTo, hrender] at h
  obtain ⟨y, z, hy, hz, hx, -⟩ :=
    lowers_two (f := fun s t => "(" ++ s ++ " " ++ "AND" ++ " " ++ t ++ ")") h
  refine ⟨y, z, hy, hz, ?_⟩
  have hand : y.text ++ " " ++ "AND" ++ " " = y.text ++ " AND " := by
    rw [String.append_assoc, String.append_assoc]
    rfl
  rw [hx, Text.group_between, hand, conjoinText]

def Expr.enclosed : Polarity → Expr → Bool
  | p, .not e => e.enclosed p.flip
  | _, .compare _ _ _ => true
  | _, .infixOp _ _ _ => true
  | _, .inList _ candidates => !candidates.isEmpty
  | _, .inQuery _ _ => true
  | _, .existsIn _ => true
  | _, .between _ _ _ => true
  | p, _ => p = .negated

theorem Polarity.wrap_enclosed {p : Polarity} {sql : String}
    (h : p = .negated ∨ ∃ inner, sql = Text.group inner) :
    ∃ inner, p.wrap sql = Text.group inner := by
  cases p with
  | plain => exact h.resolve_left (by decide)
  | negated => exact ⟨_, Text.group_negation sql⟩

theorem Rendering.gives_negated {α : Type} {p : Polarity} (h : decide (p = .negated) = true)
    (r : Rendering α) (f : α → String) :
    (r >>= fun a => pure (p.wrap (f a))).Gives fun s => ∃ inner, s = Text.group inner :=
  gives_bind fun _ => gives_pure (Polarity.wrap_enclosed (.inl (of_decide_eq_true h)))

theorem Expr.render_enclosed (ctx : Context) :
    (e : Expr) → (p : Polarity) → e.enclosed p = true →
      (e.render ctx p).Gives fun s => ∃ inner, s = Text.group inner
  | .not e, p, h => by
    rw [render]
    exact e.render_enclosed ctx p.flip h
  | .compare c left right, p, _ => by
    rw [render]
    split
    · exact gives_bind fun s => gives_pure ⟨_, Text.group_after s _⟩
    · split
      · exact gives_bind fun s => gives_pure ⟨_, Text.group_after s _⟩
      · exact gives_bind fun s => gives_bind fun t => gives_pure ⟨_, Text.group_between s t _⟩
  | .infixOp op left right, p, _ => by
    rw [render]
    exact gives_bind fun s => gives_bind fun t =>
      gives_pure (Polarity.wrap_enclosed (.inr ⟨_, Text.group_between s t op⟩))
  | .inList e candidates, p, h => by
    have hsome : candidates.isEmpty = false := Bool.not_eq_true' _ ▸ h
    rw [render, hsome]
    exact gives_bind fun s => gives_bind fun list => gives_pure ⟨_, Text.group_members s _ _⟩
  | .inQuery e q, p, _ => by
    rw [render]
    exact gives_bind fun s => gives_bind fun inner => gives_pure ⟨_, Text.group_members s _ _⟩
  | .existsIn q, p, _ => by
    rw [render]
    exact gives_bind fun inner => gives_pure ⟨_, Text.group_existence _ _⟩
  | .between e low high, p, _ => by
    rw [render]
    exact gives_bind fun s => gives_bind fun t => gives_bind fun u =>
      gives_pure (Polarity.wrap_enclosed (.inr ⟨_, Text.group_range s t u⟩))
  | .literal sql, p, h => gives_negated h (pure sql) id
  | .value v, p, h => by
    cases v with
    | null => exact gives_negated h (pure "NULL") id
    | _ => exact gives_negated h (bindValue _) id
  | .column qualifier name, p, h => by
    rw [render]
    exact gives_negated h _ _
  | .collate e collation, p, h => by
    rw [render]
    exact gives_negated h _ _
  | .prefixOp op e, p, h => by
    rw [render]
    exact gives_negated h _ _
  | .function name arguments, p, h => by
    rw [render]
    exact gives_negated h _ _
  | .countAll, p, h => gives_negated h (pure "COUNT(*)") id
  | .count e, p, h => by
    rw [render]
    exact gives_negated h _ _
  | .countDistinct e, p, h => by
    rw [render]
    exact gives_negated h _ _

/-- Where an expression has parentheses of its own and what stands in them is complete, none of its
ORs reaches out of it. -/
theorem Expr.LowersTo.undivided {e : Expr} {x : Fragment} (hx : e.LowersTo ctx x)
    (he : e.enclosed .plain = true) :
    ∃ inner, x.text = Text.group inner ∧
      (Complete inner → Complete x.text ∧ ¬ Divided x.text) := by
  obtain ⟨inner, hinner⟩ := e.render_enclosed ctx .plain he .empty _ _ (hx .empty)
  refine ⟨inner, hinner, fun h => ?_⟩
  rw [hinner]
  exact h.group

namespace Filtering

theorem conjoinAll_lowers {ps : List Expr} {e : Expr} (he : conjoinAll ps = some e) {x : Fragment}
    (hx : e.LowersTo ctx x) :
    ∃ xs : List Fragment, List.Forall₂ (Expr.LowersTo ctx) ps xs ∧
      x.text = conjoinTexts (xs.map Fragment.text) := by
  induction ps using List.reverseRecOn generalizing e x with
  | nil => cases he
  | append_singleton ps p ih =>
    rw [conjoinAll_concat] at he
    cases hd : conjoinAll ps with
    | none =>
      rw [hd] at he
      cases he
      rw [conjoinAll_eq_none_iff.mp hd]
      exact ⟨[x], .cons hx .nil, rfl⟩
    | some d =>
      rw [hd] at he
      cases he
      obtain ⟨y, z, hy, hz, htext⟩ := Expr.and_lowers hx
      obtain ⟨ys, hys, hyText⟩ := ih hd hy
      have hne : ys.map Fragment.text ≠ [] := by
        intro hnil
        rw [List.map_eq_nil_iff.mp hnil] at hys
        cases hys
        cases hd
      refine ⟨ys ++ [z], List.rel_append hys (.cons hz .nil), ?_⟩
      rw [htext, hyText, List.map_append, List.map_singleton, conjoinTexts_concat hne]

/-- What the conditions of a query are written as: with them the clause is the keyword and their
texts, each put after those before it. -/
structure Written (f : Filtering) (ctx : Context) (ps : List Expr) (xs : List Fragment)
    (clause : String) : Prop where
  texts : List.Forall₂ (Expr.LowersTo ctx) ps xs
  clause : clause = " " ++ f.keyword ++ " " ++ conjoinTexts (xs.map Fragment.text)

theorem written_of_yields {f : Filtering} {ps : List Expr} (hne : ps ≠ []) {clause : String}
    (h : (Expr.renderClause ctx f.keyword (conjoinAll ps)).Yields clause) :
    ∃ xs, f.Written ctx ps xs clause := by
  cases he : conjoinAll ps with
  | none => exact absurd (conjoinAll_eq_none_iff.mp he) hne
  | some e =>
    rw [he] at h
    obtain ⟨b, b', h⟩ := h
    obtain ⟨sql, m, hsql, h⟩ := runFrom_bind_eq_ok.mp h
    cases h
    obtain ⟨vs, hvs⟩ := (e.render_uniform ctx .plain).appends ⟨b, _, hsql⟩
    obtain ⟨xs, hxs, htext⟩ := conjoinAll_lowers he (x := ⟨sql, vs⟩) hvs
    exact ⟨xs, hxs, congrArg (" " ++ f.keyword ++ " " ++ ·) htext⟩

end Filtering

namespace Query

/-- The conditions of a built query are read back from its clauses: if all of them are complete,
what is read is their conjunction exactly when there is one of them or no OR reaches over an AND,
and then a row that any of them excludes is not let through. -/
theorem filters_read {start : Query} (hstart : Start start) (calls : List Call)
    {schema : Schema} {b b' : Bindings} {c : Clauses}
    (h : ((start.afterAll calls).clauses schema).runFrom b = (.ok c, b')) (f : Filtering)
    (hne : f.predicates start calls ≠ []) :
    ∃ (ctx : Context) (xs : List Fragment),
      Context.of schema (start.afterAll calls).sources = .ok ctx ∧
      f.Written ctx (f.predicates start calls) xs (f.clause c) ∧
        ((∀ x ∈ xs, Complete x.text) →
          ∃ (F : Frame) (fs : List Formula), ReadsAll (xs.map Fragment.text) F fs ∧
            ((xs.length = 1 ∨ ∀ x ∈ xs, ¬ Divided x.text) → ∀ V : List Text.Token → Truth,
              F.formula.truth V = .yes ↔ ∀ g ∈ fs, g.truth V = .yes)) := by
  obtain ⟨ctx, hctx, -, hcondition, hhaving⟩ := clausesOf_of_ok h
  have hclause : (Expr.renderClause ctx f.keyword
      (Filtering.conjoinAll (f.predicates start calls))).Yields (f.clause c) := by
    rw [← f.condition_built hstart calls]
    cases f with
    | rows => exact hcondition
    | groups => exact hhaving
  obtain ⟨xs, hxs⟩ := Filtering.written_of_yields hne hclause
  refine ⟨ctx, xs, hctx, hxs, fun hcomplete => ?_⟩
  have hnonempty : xs.map Fragment.text ≠ [] := by
    intro hnil
    have htexts := hxs.texts
    rw [List.map_eq_nil_iff.mp hnil] at htexts
    exact hne (List.forall₂_nil_right_iff.mp htexts)
  obtain ⟨F, fs, hread⟩ := readsAll hnonempty (List.forall_mem_map.mpr hcomplete)
  refine ⟨F, fs, hread, fun hundivided => hread.passes_iff ?_⟩
  rwa [List.length_map, List.forall_mem_map]

def inRange : List Call :=
  [.filter (.literal "a BETWEEN 1 AND 2"), .distinct, .filter (.not (.literal "b = 2"))]

def plainSchema : Schema where
  columns := fun _ => .ok []
  hasRowId := fun _ => .ok true
  quote := Text.quoteIdentifier

theorem inRange_read :
    (((table 0 "t").afterAll inRange).clauses plainSchema).runFrom .empty =
        (.ok ⟨true, ["*"], some "\"t\"", " WHERE (a BETWEEN 1 AND 2 AND (NOT b = 2))", [], "", "",
          none⟩, .empty) ∧
      Filtering.rows.predicates (table 0 "t") inRange ≠ [] ∧
      ∃ (F : Frame) (fs : List Formula), ReadsAll ["a BETWEEN 1 AND 2", "(NOT b = 2)"] F fs ∧
        ∀ V : List Text.Token → Truth, F.formula.truth V = .yes ↔ ∀ g ∈ fs, g.truth V = .yes := by
  have hrun : (((table 0 "t").afterAll inRange).clauses plainSchema).runFrom .empty =
      (.ok ⟨true, ["*"], some "\"t\"", " WHERE (a BETWEEN 1 AND 2 AND (NOT b = 2))", [], "", "",
        none⟩, .empty) := rfl
  have hne : Filtering.rows.predicates (table 0 "t") inRange ≠ [] := List.cons_ne_nil _ _
  obtain ⟨ctx, xs, -, hxs, hread⟩ := filters_read (.table 0 "t") inRange hrun .rows hne
  have hrange : (Expr.literal "a BETWEEN 1 AND 2").LowersTo ctx ⟨"a BETWEEN 1 AND 2", []⟩ :=
    appends_pure _
  have hnot : (Expr.not (.literal "b = 2")).LowersTo ctx ⟨"(NOT b = 2)", []⟩ := appends_pure _
  obtain ⟨x, ys, hx, hys, rfl⟩ := List.forall₂_cons_left_iff.mp hxs.texts
  obtain ⟨y, zs, hy, hzs, rfl⟩ := List.forall₂_cons_left_iff.mp hys
  cases List.forall₂_nil_left_iff.mp hzs
  obtain rfl := hx.unique hrange
  obtain rfl := hy.unique hnot
  have hcomplete : ∀ s ∈ ["a BETWEEN 1 AND 2", "(NOT b = 2)"], Complete s ∧ ¬ Divided s := by
    intro s hs
    rcases List.mem_pair.mp hs with rfl | rfl
    · exact ⟨⟨_, rfl, rfl, rfl⟩, fun hd => (divided_iff rfl).mp hd rfl⟩
    · exact ⟨⟨_, rfl, rfl, rfl⟩, fun hd => (divided_iff rfl).mp hd rfl⟩
  obtain ⟨F, fs, hreads, hpasses⟩ := hread fun z hz =>
    (hcomplete z.text (List.mem_map_of_mem hz)).1
  refine ⟨hrun, hne, F, fs, hreads, hpasses (.inr fun z hz => ?_)⟩
  exact (hcomplete z.text (List.mem_map_of_mem hz)).2

/-- A condition with an OR, and another one added to it. -/
def divided : List Call :=
  [.filter (.literal "a = 1 OR b = 2"),
    .filter (.compare .equal (.column none "c") (.value (.integer 3)))]

def onlyA (atom : List Text.Token) : Truth :=
  if atom = [.word ['a'], .symbol '=', .word ['1']] then .yes else .no

/-- The second condition excludes the row, and what both are written as does not. -/
theorem divided_lets_through :
    (((table 0 "t").afterAll divided).render plainSchema).runFrom .empty =
        (.ok "SELECT * FROM \"t\" WHERE (a = 1 OR b = 2 AND (\"c\" = ?))", ⟨[.integer 3]⟩) ∧
      Complete "a = 1 OR b = 2" ∧ Complete "(\"c\" = ?)" ∧
      (readFormula "(\"c\" = ?)").map (Formula.truth onlyA) = some .no ∧
      (readFormula "(a = 1 OR b = 2 AND (\"c\" = ?))").map (Formula.truth onlyA) = some .yes := by
  refine ⟨rfl, ⟨_, rfl, rfl, rfl⟩, ⟨_, rfl, rfl, rfl⟩, ?_, ?_⟩
  · decide
  · decide

end Query

end RelQuery
