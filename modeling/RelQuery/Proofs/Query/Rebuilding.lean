import RelQuery.Proofs.Query.RecastBuild
import RelQuery.Proofs.Query.Renumbering
import RelQuery.Query.Draft

/-!
# Rebuilt queries

Building a draft counts scopes up from where the workspace stands. Started later, it gives the
same queries with their scopes shifted, or fails alike; what a schema shows of them is the same.
-/

set_option autoImplicit false

namespace RelQuery.Draft

def shift (d : Nat) : Recast :=
  .renumber (· + d)

theorem shift_injective (d : Nat) : Function.Injective (shift d).scope :=
  fun _ _ => Nat.add_right_cancel

def Workspace.shift (d : Nat) (w : Workspace) : Workspace where
  nextScope := w.nextScope + d
  marks := w.marks.map fun entry => (entry.1, entry.2.rescope (· + d))
  queries := w.queries.map fun entry => (entry.1, entry.2.recast (Draft.shift d))

def Shifts {α β : Type} (d : Nat) (f : α → β) (x : Build α) (y : Build β) : Prop :=
  ∀ w : Workspace, y.run (w.shift d) = (x.run w).map (Prod.map f (Workspace.shift d))

variable {d : Nat}

section

variable {α β γ δ : Type} {f : α → β} {g : γ → δ}

theorem shifts_pure (a : α) : Shifts d f (pure a) (pure (f a)) := fun _ => rfl

theorem shifts_throw (e : Unknown) : Shifts d f (throw e) (throw e) := fun _ => rfl

theorem Shifts.bind {x : Build α} {y : Build β} {k : α → Build γ} {l : β → Build δ}
    (hx : Shifts d f x y) (hk : ∀ a, Shifts d g (k a) (l (f a))) :
    Shifts d g (x >>= k) (y >>= l) := by
  intro w
  rw [StateT.run_bind, StateT.run_bind, hx w]
  rcases x.run w with e | ⟨a, w'⟩
  · rfl
  · exact hk a w'

theorem Shifts.bind_pure {x : Build α} {y : Build β} {k : α → γ} {l : β → δ}
    (hx : Shifts d f x y) (hk : ∀ a, l (f a) = g (k a)) :
    Shifts d g (x >>= fun a => pure (k a)) (y >>= fun b => pure (l b)) :=
  hx.bind fun a => by
    rw [hk]
    exact shifts_pure (k a)

theorem lookup_map (name : String) (entries : List (String × α)) :
    (entries.map fun entry => (entry.1, f entry.2)).lookup name = (entries.lookup name).map f := by
  induction entries with
  | nil => rfl
  | cons entry entries ih =>
    rw [List.map_cons, List.lookup_cons, List.lookup_cons, ih]
    cases name == entry.1 <;> rfl

end

theorem shifts_freshScope : Shifts d (· + d) freshScope freshScope := by
  intro w
  show Except.ok (w.nextScope + d, _) = Except.ok (w.nextScope + d, _)
  rw [Workspace.shift, Workspace.shift, Nat.add_right_comm]

theorem shifts_setMark (name : String) (id : SourceId) :
    Shifts d (fun u => u) (setMark name id) (setMark name (id.rescope (· + d))) := fun _ => rfl

theorem shifts_setQuery (name : String) (q : Query) :
    Shifts d (fun u => u) (setQuery name q) (setQuery name (q.recast (shift d))) := fun _ => rfl

theorem run_getMark (name : String) (w : Workspace) : (getMark name).run w =
    (w.marks.lookup name).elim (.error (.mark name)) fun id => .ok (id, w) := by
  rw [getMark, StateT.run_bind, StateT.run_get, pure_bind]
  cases w.marks.lookup name <;> rfl

theorem run_getQuery (name : String) (w : Workspace) : (getQuery name).run w =
    (w.queries.lookup name).elim (.error (.query name)) fun q => .ok (q, w) := by
  rw [getQuery, StateT.run_bind, StateT.run_get, pure_bind]
  cases w.queries.lookup name <;> rfl

theorem shifts_getMark (name : String) :
    Shifts d (SourceId.rescope (· + d)) (getMark name) (getMark name) := by
  intro w
  rw [run_getMark, run_getMark, Workspace.shift, lookup_map]
  cases w.marks.lookup name <;> rfl

theorem shifts_getQuery (name : String) :
    Shifts d (Query.recast (shift d)) (getQuery name) (getQuery name) := by
  intro w
  rw [run_getQuery, run_getQuery, Workspace.shift, lookup_map]
  cases w.queries.lookup name <;> rfl

theorem Part.find?_shift (part : Part) (q : Query) :
    part.find? (q.recast (shift d)) = (part.find? q).map (SourceId.rescope (· + d)) := by
  have hjoins (n : Nat) : (q.recast (shift d)).sources.joins[n]? =
      (q.sources.joins[n]?).map (Join.rescope (· + d)) := by
    rw [Query.recast_eq, ← List.getElem?_map]
    exact congrArg (·[n]?) (Arena.joins_recast q.sources)
  cases part with
  | source => exact Query.source?_recast q
  | root =>
    rw [find?, Query.recast_eq]
    rfl
  | base n | origin n | target n =>
    rw [find?, find?, hjoins]
    cases q.sources.joins[n]? <;> rfl

-- A draft holds names and no ids, so the same draft stands on both sides; each case is the rule of
-- its operation, and `bind` hands the shifted workspace on to the next part.
mutual

theorem Term.build_shift : (t : Term) → Shifts d (Expr.recast (shift d)) t.build t.build
  | .literal _ | .value _ | .column _ | .qualified _ _ | .countAll => shifts_pure _
  | .marked mark _ => (shifts_getMark mark).bind_pure fun _ => rfl
  | .collate t _ | .not t | .prefixOp _ t | .count t | .countDistinct t =>
    t.build_shift.bind_pure fun _ => rfl
  | .minus t => t.build_shift.bind_pure Expr.minus_recast
  | .compare _ left right | .infixOp _ left right =>
    left.build_shift.bind fun _ => right.build_shift.bind_pure fun _ => rfl
  | .binary op left right =>
    left.build_shift.bind fun l => right.build_shift.bind_pure (Expr.binary_recast op l)
  | .inList t candidates =>
    t.build_shift.bind fun _ => (Term.buildAll_shift candidates).bind_pure fun _ => by
      rw [Expr.recast, Expr.recastAll_eq_map]
  | .inQuery t q => t.build_shift.bind fun _ => q.build_shift.bind_pure fun _ => rfl
  | .existsIn q => q.build_shift.bind_pure fun _ => rfl
  | .between t low high =>
    t.build_shift.bind fun _ => low.build_shift.bind fun _ =>
      high.build_shift.bind_pure fun _ => rfl
  | .function _ arguments =>
    (Term.buildAll_shift arguments).bind_pure fun _ => by
      rw [Expr.recast, Expr.recastAll_eq_map]

theorem Term.buildAll_shift :
    (ts : List Term) → Shifts d (List.map (Expr.recast (shift d))) (Term.buildAll ts)
      (Term.buildAll ts)
  | [] => shifts_pure _
  | t :: ts => t.build_shift.bind fun _ => (Term.buildAll_shift ts).bind_pure fun _ => rfl

theorem Choice.build_shift :
    (c : Choice) → Shifts d (Item.recast (shift d)) c.build c.build
  | .star mark => (shifts_getMark mark).bind_pure fun _ => rfl
  | .term t _ => t.build_shift.bind_pure fun _ => rfl

theorem Choice.buildAll_shift :
    (cs : List Choice) → Shifts d (List.map (Item.recast (shift d))) (Choice.buildAll cs)
      (Choice.buildAll cs)
  | [] => shifts_pure _
  | c :: cs => c.build_shift.bind fun _ => (Choice.buildAll_shift cs).bind_pure fun _ => rfl

theorem Order.build_shift :
    (o : Order) → Shifts d (SortTerm.recast (shift d)) o.build o.build
  | .term t _ => t.build_shift.bind_pure fun _ => rfl
  | .reversed o => o.build_shift.bind_pure SortTerm.reversed_recast

theorem Order.buildAll_shift :
    (os : List Order) → Shifts d (List.map (SortTerm.recast (shift d))) (Order.buildAll os)
      (Order.buildAll os)
  | [] => shifts_pure _
  | o :: os => o.build_shift.bind fun _ => (Order.buildAll_shift os).bind_pure fun _ => rfl

theorem Start.build_shift :
    (s : Start) → Shifts d (Query.recast (shift d)) s.build s.build
  | .new => shifts_freshScope.bind_pure fun scope => Query.new_recast (m := shift d) scope
  | .table name =>
    shifts_freshScope.bind_pure fun scope => Query.table_recast (m := shift d) scope name
  | .query q aliasName => q.build_shift.bind fun q => shifts_freshScope.bind_pure fun scope =>
      Query.ofQuery_recast (m := shift d) scope q aliasName
  | .named name => shifts_getQuery name

theorem Step.build_shift (q : Query) :
    (s : Step) → Shifts d (Query.recast (shift d)) (Step.build q s)
      (Step.build (q.recast (shift d)) s)
  | .aliased aliasName => fun w => by
    rw [Step.build, q.aliased_recast]
    exact shifts_pure _ w
  | .select selection => (Choice.buildAll_shift selection).bind_pure q.select_recast
  | .distinct => fun w => by
    rw [Step.build, q.distinctRows_recast]
    exact shifts_pure _ w
  | .filter t => t.build_shift.bind_pure q.filter_recast
  | .group grouping => (Term.buildAll_shift grouping).bind_pure q.group_recast
  | .having t => t.build_shift.bind_pure q.filterGroups_recast
  | .order ordering => (Order.buildAll_shift ordering).bind_pure q.order_recast
  | .reverse => fun w => by
    rw [Step.build, q.reverse_recast]
    exact shifts_pure _ w
  | .limit count offset => fun w => by
    rw [Step.build, q.limitTo_recast]
    exact shifts_pure _ w
  | .including a => fun w => by
    rw [Step.build, q.including_recast]
    exact shifts_pure _ w
  | .countQuery =>
    shifts_freshScope.bind_pure fun scope => Query.countQueryIn_recast (shift_injective d) q scope
  | .mark name part => by
    intro w
    rw [Step.build, Step.build, part.find?_shift]
    rcases part.find? q with _ | id
    · exact shifts_throw .part w
    · exact (shifts_setMark name id).bind_pure (fun _ => rfl) w

theorem Step.buildAll_shift :
    (ss : List Step) → (q : Query) → Shifts d (Query.recast (shift d)) (Step.buildAll q ss)
      (Step.buildAll (q.recast (shift d)) ss)
  | [], _ => shifts_pure _
  | s :: ss, q => (Step.build_shift q s).bind (Step.buildAll_shift ss)

theorem Script.build_shift :
    (s : Script) → Shifts d (Query.recast (shift d)) s.build s.build
  | .mk start steps => start.build_shift.bind (Step.buildAll_shift steps)

end

/-- Drafts with their names, in the order in which they are built. A draft refers to those before
it by their names, and to the ids that they mark. -/
abbrev Program := List (String × Script)

namespace Program

def build : Program → Build (List (Query × Query))
  | [] => pure []
  | (name, script) :: rest => do
    let q ← script.build
    setQuery name q
    let scope ← freshScope
    let built ← build rest
    pure ((q, q.countQueryIn scope) :: built)

/-- What a schema shows of each query and of its count query, where all names are known. -/
def observe (schema : Schema) (p : Program) (w : Workspace) :
    Except Unknown (List (Query.Report × Query.Report)) :=
  (p.build.run w).map fun built =>
    built.1.map (Prod.map (Query.report schema) (Query.report schema))

theorem build_shift (p : Program) :
    Shifts d (List.map (Prod.map (Query.recast (shift d)) (Query.recast (shift d)))) p.build
      p.build := by
  induction p with
  | nil => exact shifts_pure _
  | cons entry rest ih =>
    obtain ⟨name, script⟩ := entry
    refine script.build_shift.bind fun q => (shifts_setQuery name q).bind fun _ =>
      shifts_freshScope.bind fun scope => ih.bind_pure fun built => ?_
    have hcount : (q.recast (shift d)).countQueryIn (scope + d) =
        (q.countQueryIn scope).recast (shift d) :=
      Query.countQueryIn_recast (shift_injective d) q scope
    rw [hcount]
    rfl

theorem observe_shift (schema : Schema) (p : Program) (w : Workspace) :
    p.observe schema (w.shift d) = p.observe schema w := by
  have hreport (q : Query) : (q.recast (shift d)).report schema = q.report schema :=
    Query.report_renumber (shift_injective d) q
  rw [observe, observe, p.build_shift w]
  rcases p.build.run w with e | ⟨built, w'⟩
  · rfl
  · show Except.ok ((built.map _).map _) = Except.ok (built.map _)
    rw [List.map_map]
    refine congrArg _ (List.map_congr_left fun pair _ => ?_)
    exact Prod.ext (hreport pair.1) (hreport pair.2)

/-- What is seen of the queries of a program does not depend on the scope it starts from. Of the
scopes of a query only those that are equal are seen. -/
theorem observe_empty (schema : Schema) (p : Program) (a b : Nat) :
    p.observe schema (.empty a) = p.observe schema (.empty b) ∧
      ∀ ρ : Nat → Nat, Function.Injective ρ → ∀ q : Query,
        (q.recast (.renumber ρ)).report schema = q.report schema := by
  have hzero (d : Nat) : Workspace.empty d = (Workspace.empty 0).shift d := by
    rw [Workspace.shift, Workspace.empty, Workspace.empty, Nat.zero_add]
    rfl
  refine ⟨?_, fun ρ hρ q => q.report_renumber hρ⟩
  rw [hzero a, hzero b, observe_shift, observe_shift]

/-- Persons with their cities, those of one name by an id of the first query, and the number of
the latter. -/
def people : Program :=
  [("persons", .mk (.table "persons")
    [.mark "person" .source, .including (.belongsTo "city" "cities" [("id", "id")])]),
  ("anns", .mk (.named "persons")
    [.filter (.compare .equal (.marked "person" "name") (.value (.text "Ann"))), .limit 1 none]),
  ("number", .mk (.query (.mk (.named "anns") []) (some "found"))
    [.select [.term .countAll none]])]

theorem people_observed :
    ∃ reports, people.observe Query.personsSchema (.empty 0) = .ok reports ∧ reports.length = 3 ∧
      people.observe Query.personsSchema (.empty 7) = .ok reports ∧
        ∀ q : Query, (q.recast (.renumber (· + 7))).report Query.personsSchema =
          q.report Query.personsSchema := by
  obtain ⟨hstart, hscopes⟩ := observe_empty Query.personsSchema people 0 7
  exact ⟨_, rfl, rfl, hstart.symm, hscopes _ (shift_injective 7)⟩

end Program

end RelQuery.Draft
