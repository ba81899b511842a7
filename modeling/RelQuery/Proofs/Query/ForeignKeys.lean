import RelQuery.Proofs.Query.JoinedSources
import RelQuery.Proofs.Query.NameClash
import RelQuery.Proofs.Query.NamingRule

/-!
# Keys of attached associations

The key of an association is checked before its join is written, that of the last association first.
So a FROM clause over a table is written exactly if the key of every association, at any depth, is
on columns of the table that the association starts from and on columns of its own. A key at fault
is refused as a mismatch, whichever association it is of.
-/

set_option autoImplicit false

namespace RelQuery

open Arena

def Schema.HasColumns (schema : Schema) (table : String) (columns : List String) : Prop :=
  ∃ known, schema.columns table = .ok known ∧
    ∀ column ∈ columns, ∃ name ∈ known, Text.sameName name column = true

/-- A table whose columns are not listed is a mismatch. -/
def Schema.MismatchesOnly (schema : Schema) : Prop :=
  ∀ (table : String) (cause : Refusal), schema.columns table = .error cause →
    ∃ mismatch, cause = .mismatch mismatch

def Failure.IsMismatch (f : Failure) : Prop :=
  ∃ mismatch, f = .refused (.mismatch mismatch)

namespace Association

/-- The key of an association that starts from a table has columns, and both tables have them. -/
structure KeyFits (schema : Schema) (parent : String) (a : Association) : Prop where
  nonempty : a.foreignKey ≠ []
  origin : schema.HasColumns parent (a.foreignKey.map (·.1))
  target : schema.HasColumns a.table (a.foreignKey.map (·.2))

mutual

/-- An association and those inside of it, each with the table that it starts from. -/
def rooted (parent : String) : Association → List (String × Association)
  | ⟨name, kind, table, aliasName, foreignKey, includes⟩ =>
    (parent, ⟨name, kind, table, aliasName, foreignKey, includes⟩) :: rootedAll table includes

def rootedAll (parent : String) : List Association → List (String × Association)
  | [] => []
  | a :: as => a.rooted parent ++ rootedAll parent as

end

mutual

theorem rooted_attachments {tables : Nat → String} :
    (a : Association) → (parent k : Nat) →
      (∀ (i : Nat) (x : Attachment), (a.attachments parent k)[i]? = some x →
        tables (k + i) = x.association.table) →
      (a.attachments parent k).map (fun x => (tables x.parent, x.association)) =
        a.rooted (tables parent)
  | ⟨name, kind, table, aliasName, foreignKey, includes⟩, parent, k, h => by
    have htable : tables k = table := h 0 _ (by rw [attachments]; rfl)
    have hrest := @rootedAll_attachments tables includes k (k + 1) fun i x hx => by
      rw [Nat.add_right_comm, Nat.add_assoc]
      exact h (i + 1) x (by rwa [attachments, List.getElem?_cons_succ])
    rw [attachments, rooted, List.map_cons, hrest, htable]

theorem rootedAll_attachments {tables : Nat → String} :
    (as : List Association) → (parent k : Nat) →
      (∀ (i : Nat) (x : Attachment), (attachmentsAll as parent k)[i]? = some x →
        tables (k + i) = x.association.table) →
      (attachmentsAll as parent k).map (fun x => (tables x.parent, x.association)) =
        rootedAll (tables parent) as
  | [], _, _, _ => rfl
  | a :: as, parent, k, h => by
    rw [attachmentsAll] at h ⊢
    have hfirst := @rooted_attachments tables a parent k fun i x hx => by
      refine h i x ?_
      rwa [List.getElem?_append_left (List.getElem?_eq_some_iff.mp hx).1]
    have hrest := @rootedAll_attachments tables as parent (k + a.size) fun i x hx => by
      rw [Nat.add_assoc]
      refine h (a.size + i) x ?_
      rwa [List.getElem?_append_right (by rw [length_attachments]; omega), length_attachments,
        Nat.add_sub_cancel_left]
    rw [List.map_append, hfirst, hrest, rootedAll]

end

end Association

namespace Step

theorem run_eq_ok_iff {steps : List Step} :
    run steps = .ok () ↔ ∀ step ∈ steps, step.outcome = .ok () := by
  induction steps with
  | nil => exact iff_of_true rfl (List.forall_mem_nil _)
  | cons step steps ih =>
    rw [run, Outcome.bind_eq_ok, List.forall_mem_cons, ih]
    constructor
    · rintro ⟨_, h, hs⟩
      exact ⟨h, hs⟩
    · rintro ⟨h, hs⟩
      exact ⟨(), h, hs⟩

theorem run_failsOnly {P : Failure → Prop} {steps : List Step}
    (h : ∀ step ∈ steps, step.outcome.FailsOnly P) : (run steps).FailsOnly P := by
  induction steps with
  | nil => exact Outcome.failsOnly_ok ()
  | cons step steps ih =>
    obtain ⟨hstep, hsteps⟩ := List.forall_mem_cons.mp h
    exact hstep.bind fun _ _ => ih hsteps

theorem run_append_of_ok {steps rest : List Step} (h : run rest = .ok ()) :
    run (steps ++ rest) = run steps := by
  rw [run_append, h]
  cases run steps <;> rfl

end Step

theorem Outcome.done_eq_ok_iff {α : Type} {r : Outcome α} : r.done = .ok () ↔ ∃ a, r = .ok a := by
  cases r <;> simp [Outcome.done, Except.map]

theorem Outcome.done_unit (r : Outcome Unit) : r.done = r := by
  cases r <;> rfl

theorem Outcome.done_eq_error_iff {α : Type} {r : Outcome α} {f : Failure} :
    r.done = .error f ↔ r = .error f := by
  cases r <;> simp [Outcome.done, Except.map]

theorem Text.isSome_position_iff (names : List String) (name : String) :
    (Text.position names name).isSome = true ↔ ∃ n ∈ names, Text.sameName n name = true := by
  rw [Text.position, List.findIdx?_isSome, List.any_eq_true]

namespace Context

variable {ctx : Context} {j : Join} {x : SourceId} {table : String} {aliasName : Option String}

theorem checkKeyColumns_eq_ok_iff (hx : ctx.sources.node x = .ok (.leaf (.table table aliasName)))
    (columns : List String) :
    ctx.checkKeyColumns j x columns = .ok () ↔ ctx.schema.HasColumns table columns := by
  rw [checkKeyColumns, hx, Schema.HasColumns]
  show (Outcome.ofRefusable (ctx.schema.columns table) >>= fun known => _) = _ ↔ _
  rw [Outcome.bind_eq_ok]
  refine exists_congr fun known => ?_
  rw [Outcome.ofRefusable_eq_ok]
  refine and_congr_right fun _ => ?_
  have hfound : ∀ column, (Text.position known column).isNone = true ↔
      ¬∃ name ∈ known, Text.sameName name column = true := by
    intro column
    rw [← Text.isSome_position_iff, Bool.not_eq_true, Option.isSome_eq_false_iff]
  cases hmissing : columns.find? fun column => (Text.position known column).isNone with
  | none =>
    refine ⟨fun _ column hmem => ?_, fun _ => rfl⟩
    have hnot := List.find?_eq_none.mp hmissing column hmem
    rw [hfound] at hnot
    exact not_not.mp hnot
  | some column =>
    have hnone : (Text.position known column).isNone = true := by
      simpa using List.find?_some hmissing
    refine iff_of_false (fun h => ?_) fun hall => ?_
    · cases h
    · exact (hfound column).mp hnone (hall column (List.mem_of_find?_eq_some hmissing))

theorem checkKeyColumns_mismatches (hs : ctx.schema.MismatchesOnly)
    (hx : ctx.sources.node x = .ok (.leaf (.table table aliasName))) (columns : List String) :
    (ctx.checkKeyColumns j x columns).FailsOnly Failure.IsMismatch := by
  have hcolumns :
      (Outcome.ofRefusable (ctx.schema.columns table)).FailsOnly Failure.IsMismatch := by
    rcases hknown : ctx.schema.columns table with cause | known
    · obtain ⟨mismatch, rfl⟩ := hs table cause hknown
      exact Outcome.failsOnly_error ⟨mismatch, rfl⟩
    · exact Outcome.failsOnly_ok known
  rw [checkKeyColumns, hx]
  refine hcolumns.bind fun known _ => ?_
  split
  · exact Outcome.failsOnly_error ⟨_, rfl⟩
  · exact Outcome.failsOnly_ok ()

theorem of_eq_ok {schema : Schema} {a : Arena Source} (h : Context.of schema a = .ok ctx) :
    ctx.schema = schema ∧ ctx.sources = a := by
  obtain ⟨names, -, rfl⟩ := Outcome.map_eq_ok.mp h
  exact ⟨rfl, rfl⟩

variable {parent : String} {parentAlias : Option String}

theorem checkForeignKey_eq_ok_iff
    (ho : ctx.sources.node j.origin = .ok (.leaf (.table parent parentAlias)))
    (ht : ctx.sources.node j.target = .ok (.leaf (.table table aliasName))) :
    ctx.checkForeignKey j = .ok () ↔ j.foreignKey ≠ [] ∧
      ctx.schema.HasColumns parent (j.foreignKey.map (·.1)) ∧
      ctx.schema.HasColumns table (j.foreignKey.map (·.2)) := by
  rw [← checkKeyColumns_eq_ok_iff (j := j) ho, ← checkKeyColumns_eq_ok_iff (j := j) ht,
    checkForeignKey]
  cases hkey : j.foreignKey with
  | nil =>
    refine iff_of_false (fun h => ?_) fun h => h.1 rfl
    cases h
  | cons pair pairs =>
    show (_ >>= fun _ => _) = _ ↔ _
    rw [Outcome.bind_eq_ok]
    constructor
    · rintro ⟨_, h⟩
      exact ⟨List.cons_ne_nil _ _, h⟩
    · rintro ⟨-, h⟩
      exact ⟨(), h⟩

theorem checkForeignKey_mismatches (hs : ctx.schema.MismatchesOnly)
    (ho : ctx.sources.node j.origin = .ok (.leaf (.table parent parentAlias)))
    (ht : ctx.sources.node j.target = .ok (.leaf (.table table aliasName))) :
    (ctx.checkForeignKey j).FailsOnly Failure.IsMismatch := by
  rw [checkForeignKey]
  split
  · exact Outcome.failsOnly_error ⟨_, rfl⟩
  · exact (checkKeyColumns_mismatches hs ho _).bind fun _ _ => checkKeyColumns_mismatches hs ht _

end Context

section Chain

variable {scope : Nat} {first : Source} {links : List Link} {table : String}
  {aliasName : Option String}

def Arena.tableAt (first : String) (links : List Link) : Nat → String
  | 0 => first
  | i + 1 => (links[i]?.map Link.table).getD ""

theorem Arena.node_sourceAt (scope : Nat) (table : String) (aliasName : Option String) {i : Nat}
    (hi : i ≤ links.length) :
    ∃ aliasName', (chain scope (.table table aliasName) links).node (sourceAt scope i) =
      .ok (.leaf (.table (tableAt table links i) aliasName')) := by
  cases i with
  | zero => exact ⟨aliasName, rfl⟩
  | succ i =>
    have hl : links[i]? = some links[i] := List.getElem?_eq_getElem hi
    refine ⟨links[i].aliasName, ?_⟩
    rw [sourceAt, tableId, node_table scope _ hl, tableAt, hl]
    rfl

theorem Arena.begins_sourceAt {i k : Nat} (hi : i ≤ k) : Begins scope k (sourceAt scope i) := by
  cases i with
  | zero => exact .inl rfl
  | succ i => exact .inr ⟨i, hi, rfl⟩

theorem Context.exists_sourceName (hl : Linked scope links) {schema : Schema} {ctx : Context}
    (hctx : Context.of schema (chain scope first links) = .ok ctx) {x : SourceId}
    (hx : Begins scope links.length x)
    (hnode : (chain scope first links).node x = .ok (.leaf (.table table aliasName))) :
    ∃ name, ctx.sourceName x = .ok name := by
  obtain ⟨names, hnames, hrule⟩ := names_by_rule (reachable_chain first hl)
    (leaf_of_mem_sourceIds first links) (nodup_index_sourceIds scope links.length)
  rw [Context.of, hnames] at hctx
  cases hctx
  obtain ⟨name, hname⟩ := (hrule.named x.index).mpr
    ⟨x, mem_sourceIds.mpr hx, rfl, .inl ⟨table, aliasName, hnode⟩⟩
  exact ⟨name, sourceName_eq_ok.mpr ⟨(leaf_chain_iff.mpr hx).1, hname⟩⟩

/-- The checks of a FROM clause over a table: those of the keys, the last one first. Nothing else in
it fails. -/
theorem Context.run_fromSteps_chain (schema : Schema) (table : String) (aliasName : Option String)
    {ctx : Context} (hl : Linked scope links)
    (hnamed : ∀ i ≤ links.length, ∃ name, ctx.sourceName (sourceAt scope i) = .ok name)
    (horigin : ∀ l ∈ links, ∃ i ≤ links.length, l.join.origin = sourceAt scope i)
    {k n : Nat} (hk : k ≤ links.length) (hn : k < n) :
    Step.run (ctx.fromStepsWithin ((chain scope (.table table aliasName) links).steps schema) n
        ⟨scope, 2 * k⟩) =
      Step.run ((links.take k).reverse.map fun l => .check (ctx.checkForeignKey l.join).done) := by
  have hname : ∀ i ≤ links.length,
      Step.run [.check (ctx.sourceName (sourceAt scope i)).done] = .ok () := by
    intro i hi
    rw [Step.run_eq_ok_iff, List.forall_mem_singleton]
    exact Outcome.done_eq_ok_iff.mpr (hnamed i hi)
  induction k generalizing n with
  | zero =>
    obtain ⟨n, rfl⟩ : ∃ m, n = m + 1 := ⟨n - 1, by omega⟩
    rw [fromStepsWithin, node_steps, node_first]
    exact hname 0 hk
  | succ k ih =>
    obtain ⟨n, rfl⟩ : ∃ m, n = m + 1 := ⟨n - 1, by omega⟩
    obtain ⟨n, rfl⟩ : ∃ m, n = m + 1 := ⟨n - 1, by omega⟩
    have hi : links[k]? = some links[k] := List.getElem?_eq_getElem hk
    have htarget : Step.run (ctx.fromStepsWithin
        ((chain scope (.table table aliasName) links).steps schema) (n + 1) (tableId scope k)) =
          .ok () := by
      rw [fromStepsWithin, node_steps, tableId, node_table scope _ hi]
      exact hname (k + 1) hk
    have hcondition : Step.run [.check (ctx.joinCondition links[k].join).done] = .ok () := by
      obtain ⟨i, hle, ho⟩ := horigin links[k] (List.getElem_mem hk)
      obtain ⟨target, ht⟩ := hnamed (k + 1) hk
      obtain ⟨origin, ho'⟩ := hnamed i hle
      rw [Step.run_eq_ok_iff, List.forall_mem_singleton]
      refine Outcome.done_eq_ok_iff.mpr ⟨_, Outcome.bind_eq_ok.mpr ⟨target, ?_,
        Outcome.bind_eq_ok.mpr ⟨origin, ?_, rfl⟩⟩⟩
      · rw [hl.target k _ hi]
        exact ht
      · rw [ho]
        exact ho'
    have hlast : Step.run (ctx.fromStepsWithin
        ((chain scope (.table table aliasName) links).steps schema) (n + 1) (tableId scope k) ++
          [.check (ctx.joinCondition links[k].join).done]) = .ok () := by
      rw [Step.run_append_of_ok hcondition, htarget]
    rw [fromStepsWithin, node_steps, node_join scope _ hi]
    show Step.run ([.check (ctx.checkForeignKey links[k].join).done] ++
      ctx.fromStepsWithin _ (n + 1) links[k].join.base ++
      ctx.fromStepsWithin _ (n + 1) links[k].join.target ++
      [.check (ctx.joinCondition links[k].join).done]) = _
    rw [hl.base k _ hi, hl.target k _ hi, List.append_assoc, Step.run_append_of_ok hlast,
      List.take_add_one, hi, Option.toList_some, List.reverse_append, List.map_append,
      Step.run_append, Step.run_append, ih (by omega) (by omega)]
    rfl

theorem Arena.exists_parent (hl : Linked scope links) {l : Link} (hmem : l ∈ links) :
    ∃ i ≤ links.length, l.join.origin = sourceAt scope i := by
  obtain ⟨k, hk⟩ := List.mem_iff_getElem?.mp hmem
  have hlt := (List.getElem?_eq_some_iff.mp hk).1
  rcases hl.origin k l hk with ho | ⟨i, hi, ho⟩
  · exact ⟨0, Nat.zero_le _, ho⟩
  · exact ⟨i + 1, by omega, ho⟩

theorem Context.run_fromSteps {schema : Schema} {ctx : Context} (hl : Linked scope links)
    (hctx : Context.of schema (chain scope (.table table aliasName) links) = .ok ctx) :
    Step.run (ctx.fromSteps ((chain scope (.table table aliasName) links).steps schema)) =
      Step.run (links.reverse.map fun l => .check (ctx.checkForeignKey l.join).done) := by
  have hnamed : ∀ i ≤ links.length, ∃ name, ctx.sourceName (sourceAt scope i) = .ok name := by
    intro i hi
    obtain ⟨aliasName', hnode⟩ := node_sourceAt scope table aliasName hi
    exact exists_sourceName hl hctx (begins_sourceAt hi) hnode
  have hdepth :
      links.length < ((chain scope (.table table aliasName) links).steps schema).depth := by
    rw [Arena.depth, Arena.steps, Source.nodeSteps_eq, List.length_map, length_chain]
    omega
  have hall := run_fromSteps_chain schema table aliasName hl hnamed (fun l => exists_parent hl)
    (Nat.le_refl _) hdepth
  rwa [List.take_length] at hall

end Chain

section Attached

variable {scope : Nat} {table : String} {aliasName : Option String} {links : List Link}
  {xs : List Attachment} {ctx : Context}

theorem Context.key_checked (hsources : ctx.sources = chain scope (.table table aliasName) links)
    (hl : Linked scope links) {i : Nat} {l : Link} (hi : links[i]? = some l) {x : Attachment}
    (hx : l.Attaches scope x) :
    (ctx.checkForeignKey l.join = .ok () ↔
      x.association.KeyFits ctx.schema (tableAt table links x.parent)) ∧
    (ctx.schema.MismatchesOnly → (ctx.checkForeignKey l.join).FailsOnly Failure.IsMismatch) := by
  have hlt := (List.getElem?_eq_some_iff.mp hi).1
  have hbegins := hl.origin i l hi
  rw [hx.origin] at hbegins
  obtain ⟨parentAlias, ho⟩ := node_sourceAt scope table aliasName
    (Nat.le_trans (le_of_begins hbegins) (Nat.le_of_lt hlt))
  have ht := node_table scope (.table table aliasName) hi scope
  rw [← tableId, ← hl.target i l hi, ← hsources] at ht
  rw [← hx.origin, ← hsources] at ho
  refine ⟨?_, fun hs => checkForeignKey_mismatches hs ho ht⟩
  rw [checkForeignKey_eq_ok_iff ho ht, hx.foreignKey, hx.table]
  exact ⟨fun ⟨hne, hp, hc⟩ => ⟨hne, hp, hc⟩, fun ⟨hne, hp, hc⟩ => ⟨hne, hp, hc⟩⟩

theorem Context.keys_checked (hsources : ctx.sources = chain scope (.table table aliasName) links)
    (hl : Linked scope links) (hxs : List.Forall₂ (Link.Attaches scope) xs links) :
    (∀ l ∈ links, ctx.checkForeignKey l.join = .ok ()) ↔
      ∀ x ∈ xs, x.association.KeyFits ctx.schema (tableAt table links x.parent) := by
  have hlen := hxs.length_eq
  have hat : ∀ (i : Nat) (hx : i < xs.length) (hi : i < links.length),
      links[i].Attaches scope xs[i] := fun i hx hi => hxs.get hx hi
  constructor
  · intro h x hx
    obtain ⟨i, hlt, rfl⟩ := List.mem_iff_getElem.mp hx
    have hi : i < links.length := hlen ▸ hlt
    exact (key_checked hsources hl (List.getElem?_eq_getElem hi) (hat i hlt hi)).1.mp
      (h _ (List.getElem_mem hi))
  · intro h l hl'
    obtain ⟨i, hi, rfl⟩ := List.mem_iff_getElem.mp hl'
    have hlt : i < xs.length := hlen ▸ hi
    exact (key_checked hsources hl (List.getElem?_eq_getElem hi) (hat i hlt hi)).1.mpr
      (h _ (List.getElem_mem hlt))

theorem Context.keys_mismatch (hsources : ctx.sources = chain scope (.table table aliasName) links)
    (hl : Linked scope links) (hxs : List.Forall₂ (Link.Attaches scope) xs links)
    (hs : ctx.schema.MismatchesOnly) {l : Link} (hmem : l ∈ links) :
    (ctx.checkForeignKey l.join).FailsOnly Failure.IsMismatch := by
  obtain ⟨i, hi, rfl⟩ := List.mem_iff_getElem.mp hmem
  have hlt : i < xs.length := hxs.length_eq ▸ hi
  exact (key_checked hsources hl (List.getElem?_eq_getElem hi) (hxs.get hlt hi)).2 hs

theorem Association.rootedAll_joined {as : List Association}
    (hxs : List.Forall₂ (Link.Attaches scope) (joined as) links) :
    (joined as).map (fun x => (tableAt table links x.parent, x.association)) =
      rootedAll table as := by
  refine rootedAll_attachments as 0 1 fun i x hx => ?_
  obtain ⟨hlt, rfl⟩ := List.getElem?_eq_some_iff.mp hx
  have hi : i < links.length := hxs.length_eq ▸ hlt
  rw [Nat.add_comm, tableAt, List.getElem?_eq_getElem hi]
  exact (hxs.get hlt hi).table

end Attached

namespace Query

/-- The table that a query is over, if its first source is one. -/
def firstTable? (q : Query) : Option String :=
  q.source?.bind fun id =>
    match q.sources.node id with
    | .ok (.leaf (.table table _)) => some table
    | _ => none

theorem first_of_firstTable {q : Query} {scope : Nat} {first : Source} {links : List Link}
    (hq : q.sources = chain scope first links) (hl : Linked scope links) {table : String}
    (h : q.firstTable? = some table) : ∃ aliasName, first = .table table aliasName := by
  rw [firstTable?, source?_chain hq hl, hq] at h
  cases first with
  | table name aliasName =>
    cases h
    exact ⟨aliasName, rfl⟩
  | query r aliasName => cases h

theorem exists_selectsBareStar {q : Query} {root : SourceId} (hroot : q.sources.root = some root)
    (hnode : ∃ node, q.sources.node root = .ok node) :
    ∃ bare, selectsBareStar q.selection q.sources = .ok bare := by
  obtain ⟨node, hnode⟩ := hnode
  rw [selectsBareStar, hroot]
  simp only
  split
  · exact ⟨true, rfl⟩
  · rename_i id
    split
    · rw [hnode]
      exact ⟨_, rfl⟩
    · exact ⟨false, rfl⟩
  · exact ⟨false, rfl⟩

theorem exists_clause {ctx : Context} {leaves : Arena SourceSql} {root : SourceId}
    (hroot : leaves.root = some root) {b : Bindings} {clause : Option String}
    (h : ((ctx.fromClause leaves).runFrom b).1 = .ok clause) : ∃ sql, clause = some sql := by
  rw [Context.fromClause, hroot] at h
  obtain ⟨sql, -, rfl⟩ := Rendering.runFrom_map_eq_ok.mp (Prod.ext h rfl)
  exact ⟨sql, rfl⟩

/-- A failure of the FROM clause is that of the query, unless a selected item fails before it. -/
theorem failsWith_of_fromClause {q : Query} {schema : Schema} {ctx : Context} {root : SourceId}
    (hroot : q.sources.root = some root) (hnode : ∃ node, q.sources.node root = .ok node)
    (hctx : Context.of schema q.sources = .ok ctx)
    {f : Failure} (h : Step.run (ctx.fromSteps (q.sources.steps schema)) = .error f) :
    q.FailsWith schema f ∨ ∃ g, q.FailsWith schema g ∧
      ∀ b : Bindings, ((Item.renderAll ctx q.selection).runFrom b).1 = .error g := by
  obtain ⟨bare, hbare⟩ := exists_selectsBareStar hroot hnode
  have hsteps : Step.run (q.steps schema) =
      Step.run (if bare then [] else Item.stepsAll ctx q.selection) >>= fun _ =>
        .error f := by
    rw [steps_eq, hroot, Option.isNone_some, Bool.and_false, hctx, hbare]
    simp only [Bool.false_eq_true, if_false, List.append_assoc, Step.run_append, h]
    rfl
  rcases hitems : Step.run (if bare then [] else Item.stepsAll ctx q.selection) with g | _
  · have hfails : q.FailsWith schema g := failsWith_iff.mpr (by rw [hsteps, hitems]; rfl)
    cases bare with
    | true => cases hitems
    | false =>
      refine .inr ⟨g, hfails, fun b => ?_⟩
      have hfollows := Item.renderAll_follows ctx q.selection b
      rw [show Step.run (Item.stepsAll ctx q.selection) = .error g from hitems] at hfollows
      exact Outcome.done_eq_error_iff.mp hfollows
  · exact .inl (failsWith_iff.mpr (by rw [hsteps, hitems]; rfl))

/-- The FROM clause of a built query over a table is written exactly if the keys of all associations
fit, at any depth. Otherwise it is refused as a mismatch, and so is the query, unless one of its
items fails before the clause is reached. -/
theorem foreign_keys_checked {start : Query} (hstart : Start start) (calls : List Call)
    {schema : Schema} (hs : schema.MismatchesOnly) {table : String}
    (hfirst : (start.afterAll calls).firstTable? = some table) :
    ∃ ctx, Context.of schema (start.afterAll calls).sources = .ok ctx ∧
      ((∀ p ∈ Association.rootedAll table (included calls), p.2.KeyFits schema p.1) →
        ∀ b : Bindings, ∃ (clause : String) (b' : Bindings),
          (ctx.fromClause ((start.afterAll calls).sources.sqls schema)).runFrom b =
            (.ok (some clause), b')) ∧
      (¬(∀ p ∈ Association.rootedAll table (included calls), p.2.KeyFits schema p.1) →
        ∃ mismatch, (∀ b : Bindings,
            ((ctx.fromClause ((start.afterAll calls).sources.sqls schema)).runFrom b).1 =
              .error (.refused (.mismatch mismatch))) ∧
          ((start.afterAll calls).FailsWith schema (.refused (.mismatch mismatch)) ∨
            ∃ f, (start.afterAll calls).FailsWith schema f ∧ ∀ b : Bindings,
              ((Item.renderAll ctx (start.afterAll calls).selection).runFrom b).1 = .error f)) := by
  rcases joined_afterAll hstart calls with ⟨scope, hq⟩ | ⟨scope, first, links, hq, hl, hxs⟩
  · rw [firstTable?, source?_empty hq] at hfirst
    cases hfirst
  obtain ⟨aliasName, rfl⟩ := first_of_firstTable hq hl hfirst
  generalize start.afterAll calls = q at hq
  obtain ⟨ctx, hctx⟩ := context_chain (.table table aliasName) hl schema
  obtain ⟨hschema, hsources⟩ := Context.of_eq_ok hctx
  have hrun := Context.run_fromSteps hl hctx
  rw [← hq] at hctx hrun
  have hkeys : (∀ l ∈ links, ctx.checkForeignKey l.join = .ok ()) ↔
      ∀ p ∈ Association.rootedAll table (included calls), p.2.KeyFits schema p.1 := by
    rw [Context.keys_checked hsources hl hxs, ← Association.rootedAll_joined hxs,
      List.forall_mem_map, hschema]
  have hfits : Step.run (ctx.fromSteps (q.sources.steps schema)) = .ok () ↔
      ∀ p ∈ Association.rootedAll table (included calls), p.2.KeyFits schema p.1 := by
    rw [← hkeys, hrun, Step.run_eq_ok_iff, List.forall_mem_map]
    simp only [List.mem_reverse, Step.outcome, Outcome.done_unit]
  have hmismatch : (Step.run (ctx.fromSteps (q.sources.steps schema))).FailsOnly
      Failure.IsMismatch := by
    rw [hrun]
    refine Step.run_failsOnly (List.forall_mem_map.mpr fun l hmem => ?_)
    rw [Step.outcome, Outcome.done_unit]
    exact Context.keys_mismatch hsources hl hxs (hschema ▸ hs) (List.mem_reverse.mp hmem)
  have hroot : q.sources.root = some ⟨scope, 2 * links.length⟩ := by rw [hq]; rfl
  have hnode : ∃ node, q.sources.node ⟨scope, 2 * links.length⟩ = .ok node := by
    rw [hq]
    exact exists_node (contains_iff.mpr ⟨rfl, by rw [length_chain]; exact Nat.lt_succ_self _⟩)
  have hfollows := ctx.fromClause_follows (Source.leaves_follow schema q.sources.nodes)
  refine ⟨ctx, hctx, fun hfit b => ?_, fun hnot => ?_⟩
  · obtain ⟨clause, hclause⟩ := Outcome.done_eq_ok_iff.mp ((hfollows b).trans (hfits.mpr hfit))
    obtain ⟨sql, rfl⟩ := exists_clause hroot hclause
    exact ⟨sql, _, Prod.ext hclause rfl⟩
  · rcases hfailure : Step.run (ctx.fromSteps (q.sources.steps schema)) with f | _
    · obtain ⟨mismatch, rfl⟩ := hmismatch f hfailure
      refine ⟨mismatch, fun b => ?_, failsWith_of_fromClause hroot hnode hctx hfailure⟩
      exact Outcome.done_eq_error_iff.mp ((hfollows b).trans hfailure)
    · exact absurd (hfits.mp hfailure) hnot

/-- The columns of some tables, of which that of agents has no column for the author. -/
def agentlessSchema : Schema where
  columns := fun table =>
    match table with
    | "books" => .ok ["id", "Author_ID"]
    | "authors" => .ok ["ID", "name"]
    | "agents" => .ok ["id", "name"]
    | "reviews" => .ok ["id", "book_id"]
    | _ => .error (.mismatch (.noSuchTable table))
  hasRowId := fun _ => .ok true
  quote := Text.quoteIdentifier

theorem mismatchesOnly_agentless : agentlessSchema.MismatchesOnly := by
  intro table cause h
  unfold agentlessSchema at h
  simp only at h
  split at h
  · cases h
  · cases h
  · cases h
  · cases h
  · cases h
    exact ⟨_, rfl⟩

/-- The key of an association inside of another one is at fault, and no clause is written. -/
theorem agents_refused :
    Start (table 0 "books") ∧ agentlessSchema.MismatchesOnly ∧
    ((table 0 "books").afterAll withReviews).firstTable? = some "books" ∧
    ∃ (ctx : Context) (mismatch : Mismatch),
      Context.of agentlessSchema ((table 0 "books").afterAll withReviews).sources = .ok ctx ∧
      ∀ b : Bindings, ((ctx.fromClause
        (((table 0 "books").afterAll withReviews).sources.sqls agentlessSchema)).runFrom b).1 =
          .error (.refused (.mismatch mismatch)) := by
  have hfirst : ((table 0 "books").afterAll withReviews).firstTable? = some "books" := rfl
  obtain ⟨ctx, hctx, -, hrefused⟩ :=
    foreign_keys_checked (.table 0 "books") withReviews mismatchesOnly_agentless hfirst
  have hagent : ("authors", Association.hasOne "agent" "agents" [("id", "author_id")]) ∈
      Association.rootedAll "books" (included withReviews) := .tail _ (.head _)
  obtain ⟨mismatch, hclause, -⟩ := hrefused fun hfit => by
    obtain ⟨-, -, known, hknown, hcolumns⟩ := hfit _ hagent
    cases hknown
    exact absurd (hcolumns "author_id" (.head _)) (by decide)
  exact ⟨.table 0 "books", mismatchesOnly_agentless, hfirst, ctx, mismatch, hctx, hclause⟩

end Query

end RelQuery
