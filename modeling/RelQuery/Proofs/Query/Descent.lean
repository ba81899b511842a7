import RelQuery.Proofs.Query.RecastWidth
import RelQuery.Proofs.Query.SourceNames
import RelQuery.Proofs.Query.Steps
import RelQuery.Proofs.Query.VariantPaths

/-!
# Recursion over an arena

Where every join is made of sources before it, each recursion over the nodes goes down, so that it
comes to an end and meets no index outside the arena. What is left to fail is a refusal, or a
subquery among the leaves.
-/

set_option autoImplicit false

namespace RelQuery

namespace Arena

variable {α β : Type} {a : Arena α} {x : SourceId}

def Before (a : Arena α) (i : Nat) (x : SourceId) : Prop :=
  x.scope = a.scope ∧ x.index < i

theorem contains_iff : a.contains x = true ↔ a.Before a.nodes.length x := by
  simp [contains, Before]

theorem exists_node (hx : a.contains x = true) : ∃ node, a.node x = .ok node := by
  have hlt := (contains_iff.mp hx).2
  exact ⟨a.nodes[x.index], Outcome.element_eq_ok.mpr (List.getElem?_eq_getElem hlt)⟩

theorem lt_length_of_node {node : Node α} (hx : a.node x = .ok node) : x.index < a.nodes.length :=
  (List.getElem?_eq_some_iff.mp (Outcome.element_eq_ok.mp hx)).1

/-- Every join is made of sources before it, and starts from a source before its target. -/
structure Descending (a : Arena α) : Prop where
  base : ∀ {x : SourceId} {j : Join}, a.node x = .ok (.join j) → a.Before x.index j.base
  target : ∀ {x : SourceId} {j : Join}, a.node x = .ok (.join j) → a.Before x.index j.target
  origin : ∀ {x : SourceId} {j : Join}, a.node x = .ok (.join j) →
    a.Before j.target.index j.origin

theorem Descending.recast (h : a.Descending) (f : α → β) : (a.recast id f).Descending := by
  have hjoin : ∀ {x : SourceId} {j : Join}, (a.recast id f).node x = .ok (.join j) →
      a.node x = .ok (.join j) := by
    intro x j hx
    rw [show (a.recast id f).node x = (a.node x).map (Node.recast id f) from node_recast a x,
      Outcome.map_eq_ok] at hx
    obtain ⟨node, hnode, hj⟩ := hx
    cases node with
    | leaf source => cases hj
    | join k =>
      cases hj
      exact hnode
  constructor
  · exact fun hx => h.base (hjoin hx)
  · exact fun hx => h.target (hjoin hx)
  · exact fun hx => h.origin (hjoin hx)

theorem contains_recast_id (f : α → β) : (a.recast id f).contains x = a.contains x :=
  contains_recast Function.injective_id a x

namespace Descending

variable (h : a.Descending)

include h

theorem contains_base {j : Join} (hx : a.node x = .ok (.join j)) : a.contains j.base = true :=
  contains_iff.mpr ⟨(h.base hx).1, Nat.lt_trans (h.base hx).2 (lt_length_of_node hx)⟩

theorem contains_target {j : Join} (hx : a.node x = .ok (.join j)) : a.contains j.target = true :=
  contains_iff.mpr ⟨(h.target hx).1, Nat.lt_trans (h.target hx).2 (lt_length_of_node hx)⟩

theorem origin_lt {j : Join} (hx : a.node x = .ok (.join j)) : j.origin.index < x.index :=
  Nat.lt_trans (h.origin hx).2 (h.target hx).2

theorem contains_origin {j : Join} (hx : a.node x = .ok (.join j)) : a.contains j.origin = true :=
  contains_iff.mpr ⟨(h.origin hx).1, Nat.lt_trans (h.origin_lt hx) (lt_length_of_node hx)⟩

/-- What holds of the leaves, and of a join when it holds of its sources, holds of every id of the
arena that has a fuel above its index. -/
theorem descend {P : Nat → SourceId → Prop}
    (leaf : ∀ (n : Nat) (x : SourceId) (source : α), a.contains x = true →
      a.node x = .ok (.leaf source) → P (n + 1) x)
    (join : ∀ (n : Nat) (x : SourceId) (j : Join), a.node x = .ok (.join j) → P n j.base →
      P n j.target → P n j.origin → P (n + 1) x)
    (n : Nat) (x : SourceId) (hx : a.contains x = true) (hn : x.index < n) : P n x := by
  induction n generalizing x with
  | zero => omega
  | succ n ih =>
    obtain ⟨node, hnode⟩ := exists_node hx
    cases node with
    | leaf source => exact leaf n x source hx hnode
    | join j =>
      have hbase := (h.base hnode).2
      have htarget := (h.target hnode).2
      have horigin := h.origin_lt hnode
      exact join n x j hnode (ih j.base (h.contains_base hnode) (by omega))
        (ih j.target (h.contains_target hnode) (by omega))
        (ih j.origin (h.contains_origin hnode) (by omega))

theorem visitWithin_ok (n : Nat) (x : SourceId) (hx : a.contains x = true) (hn : x.index < n) :
    ∀ seen, ∃ ids, a.visitWithin n x seen = .ok ids := by
  refine h.descend (P := fun n x => ∀ seen, ∃ ids, a.visitWithin n x seen = .ok ids)
    ?leaf ?join n x hx hn
  case leaf => exact fun n x source _ hnode seen => ⟨_, visitWithin_leaf hnode (by omega) seen⟩
  case join =>
    intro n x j hnode hbase htarget horigin seen
    obtain ⟨ids, hids⟩ := hbase seen
    obtain ⟨ids', hids'⟩ := horigin ids
    obtain ⟨ids'', hids''⟩ := htarget ids'
    refine ⟨ids'', ?_⟩
    rw [visitWithin]
    exact Outcome.bind_eq_ok.mpr ⟨.join j, hnode, Outcome.bind_eq_ok.mpr ⟨ids, hids,
      Outcome.bind_eq_ok.mpr ⟨ids', hids', hids''⟩⟩⟩

end Descending

theorem Descending.widthWithin_failsOnly {a : Arena (Outcome Nat)} (h : a.Descending)
    {P : Failure → Prop}
    (hleaf : ∀ (x : SourceId) (width : Outcome Nat), a.node x = .ok (.leaf width) →
      width.FailsOnly P)
    (n : Nat) (x : SourceId) (hx : a.contains x = true) (hn : x.index < n) :
    (a.widthWithin n x).FailsOnly P := by
  refine h.descend (P := fun n x => (a.widthWithin n x).FailsOnly P) ?leaf ?join n x hx hn
  case leaf =>
    intro n x width _ hnode
    rw [widthWithin, hnode]
    exact hleaf x width hnode
  case join =>
    intro n x j hnode hbase htarget _
    rw [widthWithin, hnode]
    exact hbase.bind fun base _ => htarget.bind fun target _ => Outcome.failsOnly_ok _

end Arena

/-- A context whose sources descend and all have a place among the names. -/
structure Context.Sound (ctx : Context) : Prop where
  descending : ctx.sources.Descending
  names : ctx.names.length = ctx.sources.nodes.length

theorem Arena.length_assign (names : List (Option String)) (members : List (SourceId × String)) :
    (assign names members).length = names.length := by
  induction members generalizing names with
  | nil => rfl
  | cons member members ih => rw [assign, ih, List.length_set]

namespace Context

theorem sound_of {schema : Schema} {a : Arena Source} {ctx : Context}
    (h : Context.of schema a = .ok ctx) (ha : a.Descending) : ctx.Sound ∧ ctx.sources = a := by
  obtain ⟨names, hnames, rfl⟩ := Outcome.map_eq_ok.mp h
  obtain ⟨ids, -, hnames⟩ := Outcome.bind_eq_ok.mp hnames
  obtain ⟨groups, -, hnames⟩ := Outcome.bind_eq_ok.mp hnames
  cases hnames
  refine ⟨⟨ha, ?_⟩, rfl⟩
  rw [Arena.length_assign, List.length_map]

variable {ctx : Context} {x : SourceId} {P : Failure → Prop}

theorem Sound.sourceName_failsOnly (h : ctx.Sound) (hx : ctx.sources.contains x = true) :
    (ctx.sourceName x).FailsOnly Failure.IsRefusal := by
  have hlt : x.index < ctx.names.length := by
    rw [h.names]
    exact (Arena.contains_iff.mp hx).2
  rw [sourceName, if_pos hx, List.getElem?_eq_getElem hlt]
  cases ctx.names[x.index] with
  | none => exact Outcome.failsOnly_error (Failure.isRefusal_refused _)
  | some name => exact Outcome.failsOnly_ok name

theorem Sound.starWithin_failsOnly (h : ctx.Sound) (n : Nat) (x : SourceId)
    (hx : ctx.sources.contains x = true) (hn : x.index < n) :
    (ctx.starWithin n x).FailsOnly Failure.IsRefusal := by
  refine h.descending.descend (P := fun n x => (ctx.starWithin n x).FailsOnly Failure.IsRefusal)
    ?leaf ?join n x hx hn
  case leaf =>
    intro n x source hx hnode
    rw [starWithin, hnode]
    exact (h.sourceName_failsOnly hx).bind fun name _ => Outcome.failsOnly_ok _
  case join =>
    intro n x j hnode hbase htarget _
    rw [starWithin, hnode]
    exact hbase.bind fun base _ => htarget.bind fun target _ => Outcome.failsOnly_ok _

theorem checkKeyColumns_failsOnly (j : Join) (hx : ctx.sources.contains x = true)
    (columns : List String) : (ctx.checkKeyColumns j x columns).FailsOnly Failure.IsRefusal := by
  obtain ⟨node, hnode⟩ := Arena.exists_node hx
  rw [checkKeyColumns, hnode]
  rcases node with (⟨table, aliasName⟩ | _) | _
  · refine (Outcome.failsOnly_ofRefusable Failure.isRefusal_refused).bind fun known _ => ?_
    split
    · exact Outcome.failsOnly_error (Failure.isRefusal_refused _)
    · exact Outcome.failsOnly_ok ()
  · exact Outcome.failsOnly_ok ()
  · exact Outcome.failsOnly_ok ()

theorem checkForeignKey_failsOnly {j : Join} (ho : ctx.sources.contains j.origin = true)
    (ht : ctx.sources.contains j.target = true) :
    (ctx.checkForeignKey j).FailsOnly Failure.IsRefusal := by
  rw [checkForeignKey]
  split
  · exact Outcome.failsOnly_error (Failure.isRefusal_refused _)
  · exact (checkKeyColumns_failsOnly j ho _).bind fun _ _ => checkKeyColumns_failsOnly j ht _

theorem Sound.joinCondition_failsOnly (h : ctx.Sound) {j : Join}
    (ho : ctx.sources.contains j.origin = true) (ht : ctx.sources.contains j.target = true) :
    (ctx.joinCondition j).FailsOnly Failure.IsRefusal :=
  (h.sourceName_failsOnly ht).bind fun _ _ => (h.sourceName_failsOnly ho).bind fun _ _ =>
    Outcome.failsOnly_ok _

theorem Sound.fromSteps_failsOnly (h : ctx.Sound) {schema : Schema}
    (hrefused : ∀ f, f.IsRefusal → P f)
    (hleaf : ∀ (q : Query) (aliasName : Option String) (f : Failure),
      .leaf (.query q aliasName) ∈ ctx.sources.nodes → q.FailsWith schema f → P f)
    (n : Nat) (x : SourceId) (hx : ctx.sources.contains x = true) (hn : x.index < n) :
    (Step.run (ctx.fromStepsWithin (ctx.sources.steps schema) n x)).FailsOnly P := by
  have hdone : ∀ {α : Type} {o : Outcome α}, o.FailsOnly Failure.IsRefusal →
      (Step.run [.check o.done]).FailsOnly P := by
    intro α o ho
    rcases o with f | a
    · exact Outcome.failsOnly_error (hrefused f (ho f rfl))
    · exact Outcome.failsOnly_ok ()
  refine h.descending.descend
    (P := fun n x => (Step.run (ctx.fromStepsWithin (ctx.sources.steps schema) n x)).FailsOnly P)
    ?leaf ?join n x hx hn
  case leaf =>
    intro n x source hx hnode
    rw [fromStepsWithin, Arena.node_steps, hnode]
    cases source with
    | table name aliasName => exact hdone (h.sourceName_failsOnly hx)
    | query q aliasName =>
      have hmem : .leaf (.query q aliasName) ∈ ctx.sources.nodes :=
        List.mem_of_getElem? (Outcome.element_eq_ok.mp hnode)
      exact fun f hf => hleaf q aliasName f hmem (Query.failsWith_iff.mpr hf)
  case join =>
    intro n x j hnode hbase htarget _
    have ho := h.descending.contains_origin hnode
    have ht := h.descending.contains_target hnode
    have hcheck := hdone (checkForeignKey_failsOnly ho ht)
    rw [fromStepsWithin, Arena.node_steps, hnode]
    show (Step.run ([.check (ctx.checkForeignKey j).done] ++ _ ++ _ ++ [.check _])).FailsOnly P
    rw [Step.run_append, Step.run_append, Step.run_append]
    exact ((hcheck.bind fun _ _ => hbase).bind fun _ _ => htarget).bind fun _ _ =>
      hdone (h.joinCondition_failsOnly ho ht)

theorem Sound.fromSql_failsOnly (h : ctx.Sound) {schema : Schema}
    (hrefused : ∀ f, f.IsRefusal → P f)
    (hleaf : ∀ (q : Query) (aliasName : Option String) (f : Failure),
      .leaf (.query q aliasName) ∈ ctx.sources.nodes → q.FailsWith schema f → P f)
    (hx : ctx.sources.contains x = true) (b : Bindings) :
    ((ctx.fromSql (ctx.sources.sqls schema) x).runFrom b).1.FailsOnly P := by
  have hdepth : (ctx.sources.sqls schema).depth = ctx.sources.depth := by
    simp [Arena.depth, Arena.sqls, Source.nodesSql_eq]
  have hfollows := ctx.fromWithin_follows (Source.leaves_follow schema ctx.sources.nodes)
    ctx.sources.depth x b
  have hsteps := h.fromSteps_failsOnly hrefused hleaf ctx.sources.depth x hx
    (Nat.lt_succ_of_lt (Arena.contains_iff.mp hx).2)
  rw [fromSql, hdepth]
  intro f hf
  rw [hf] at hfollows
  exact hsteps f hfollows.symm

end Context

namespace Query

variable {q : Query} {sources : Arena (Outcome Nat)} {offsets : List Nat}

theorem length_offsets {items : List Item} {start : Nat}
    (h : offsetsFrom sources items start = .ok offsets) : offsets.length = items.length := by
  induction items generalizing start offsets with
  | nil =>
    cases h
    rfl
  | cons item items ih =>
    obtain ⟨width, -, h⟩ := Outcome.bind_eq_ok.mp h
    obtain ⟨rest, hrest, h⟩ := Outcome.bind_eq_ok.mp h
    cases h
    rw [List.length_cons, List.length_cons, ih hrest]

theorem lt_of_stillSelects {j : Join} (h : q.stillSelects j = true) :
    j.selectionIndex < q.selection.length := by
  rw [stillSelects] at h
  split at h
  · rename_i hi
    exact (List.getElem?_eq_some_iff.mp hi).1
  · cases h

theorem variantsOfJoins_failsOnly {P : Failure → Prop}
    {inner : SourceId → Outcome (List (String × Shape))} {js : List Join}
    (hindex : ∀ j ∈ js, j.selectionIndex < offsets.length)
    (hwidth : ∀ j ∈ js, (sources.width j.target).FailsOnly P)
    (hinner : ∀ j ∈ js, (inner j.target).FailsOnly P) :
    (variantsOfJoins sources offsets inner js).FailsOnly P := by
  induction js with
  | nil => exact Outcome.failsOnly_ok []
  | cons j js ih =>
    have hrest := ih (fun k hk => hindex k (List.mem_cons_of_mem j hk))
      (fun k hk => hwidth k (List.mem_cons_of_mem j hk))
      (fun k hk => hinner k (List.mem_cons_of_mem j hk))
    have hstart : ∃ start, Outcome.element offsets j.selectionIndex = .ok start :=
      ⟨_, Outcome.element_eq_ok.mpr (List.getElem?_eq_getElem (hindex j List.mem_cons_self))⟩
    rw [variantsOfJoins]
    exact (Outcome.failsOnly_of_exists hstart).bind fun start _ =>
      (hwidth j List.mem_cons_self).bind fun width _ => (hinner j List.mem_cons_self).bind
        fun nested _ => hrest.bind fun rest _ => Outcome.failsOnly_ok _

/-- Each association leads from a source to a later one, so that its variants come to an end. -/
theorem variantsOf_failsOnly {P : Failure → Prop} (h : q.sources.Descending)
    (hoffsets : offsetsFrom sources q.selection 0 = .ok offsets)
    (hwidth : ∀ j ∈ q.sources.joins, (sources.width j.target).FailsOnly P)
    (n : Nat) (x : SourceId) (hx : x.index < q.sources.nodes.length)
    (hn : q.sources.nodes.length ≤ n + x.index) :
    (q.variantsOf sources offsets n x).FailsOnly P := by
  have hjoins : ∀ j ∈ q.sources.joins, ∃ y, q.sources.node y = .ok (.join j) := by
    intro j hj
    obtain ⟨node, hnode, hsome⟩ := List.mem_filterMap.mp hj
    obtain ⟨i, hi⟩ := List.mem_iff_getElem?.mp hnode
    cases node with
    | leaf source => cases hsome
    | join k =>
      cases hsome
      exact ⟨⟨0, i⟩, Outcome.element_eq_ok.mpr hi⟩
  induction n generalizing x with
  | zero => omega
  | succ n ih =>
    rw [variantsOf]
    apply variantsOfJoins_failsOnly
    · intro j hj
      rw [length_offsets hoffsets]
      exact lt_of_stillSelects (mem_selected.mp hj).2.2
    · exact fun j hj => hwidth j (mem_selected.mp hj).1
    · intro j hj
      obtain ⟨hmem, ho, -⟩ := mem_selected.mp hj
      obtain ⟨y, hy⟩ := hjoins j hmem
      have hlt := (h.origin hy).2
      rw [ho] at hlt
      have htarget := (Arena.contains_iff.mp (h.contains_target hy)).2
      exact ih j.target htarget (by omega)

end Query

end RelQuery
