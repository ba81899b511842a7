import RelQuery.Proofs.Condition.Reader
import RelQuery.Proofs.Query.ArgumentOrder

/-!
# Texts of operands

The text of an operand can be told from the text around it. Most expressions are written in
parentheses, as a name or as one word; a sign, a collation and a function name stand in the open
and must not look like the words around an operand.
-/

set_option autoImplicit false

namespace RelQuery

namespace Text

theorem Plain.flat {s : String} (h : Plain s) : Flat s.toList :=
  fun c hc => (h c hc).2

theorem Plain.unquoted {s : String} (h : Plain s) : Unquoted s :=
  fun c hc => ⟨(h c hc).1, (h c hc).2.1⟩

end Text

def MeasuredText (w : Value → String) (s : String) (vs : List Value) (s' : String) : Prop :=
  FilledText w s vs s' ∧ Text.Balanced s.toList

variable {w : Value → String} {schema : Schema}

theorem measuredText_relation (hw : Written w) :
    TextRelation Text.quoteIdentifier Text.Plain (MeasuredText w) where
  plain := fun hs => ⟨(filledText_relation hw).plain hs, .flat hs.1.flat⟩
  raw := fun hs => ⟨(filledText_relation hw).raw hs.unquoted, .flat hs.flat⟩
  quoted := fun name => ⟨(filledText_relation hw).quoted name, .identifier name⟩
  append := fun hs ht =>
    ⟨(filledText_relation hw).append hs.1 ht.1, Text.balanced_append hs.2 ht.2⟩
  group := fun hs => ⟨(filledText_relation hw).group hs.1, Text.balanced_group hs.2⟩
  collate := fun hc hs =>
    ⟨(filledText_relation hw).collate hc.unquoted hs.1, hs.2.collate hc.flat⟩
  empty_iff := fun hs => (filledText_relation hw).empty_iff hs.1

theorem Recast.inline_measured (hw : Written w) (hq : schema.quote = Text.quoteIdentifier) :
    (Recast.inline w).Faithful schema Text.Plain (MeasuredText w) (fun _ => []) where
  text := hq ▸ measuredText_relation hw
  scope := Function.injective_id
  null := rfl
  kept := (Recast.inline_faithful hw hq).kept
  leaf := by
    intro v hv
    obtain ⟨s, hs, hr⟩ := (Recast.inline_faithful hw hq).leaf v hv
    exact ⟨s, ⟨hs, by decide⟩, hr⟩

theorem written_zero : Written fun _ => "0" := by
  have h0 : ("0" : String) ≠ "" ∧ "0".toList.getLast? ≠ some ')' := by decide
  exact fun _ => h0

theorem measured_of_writes {vs us : List Value} {r r' : Rendering String} {s : String}
    (h : Writes (MeasuredText w) (fun _ => []) us r r') (hr : r.Appends (.ok s) vs) :
    Text.Balanced s.toList ∧ Text.placeholders s = vs.length := by
  rcases h with ⟨left, -, related⟩ | ⟨-, left, -⟩
  · obtain ⟨hs, rfl⟩ := hr.unique left
    cases hs
    exact ⟨related.2, related.1.count.trans (List.length_map _)⟩
  · cases (hr.unique left).1

variable {ctx : Context}

theorem Expr.render_measured (hq : ctx.schema.quote = Text.quoteIdentifier) {e : Expr}
    (he : ∀ s ∈ e.rawParts, Text.Plain s) {p : Polarity} {s : String} {vs : List Value}
    (h : (e.render ctx p).Appends (.ok s) vs) :
    Text.Balanced s.toList ∧ Text.placeholders s = vs.length :=
  measured_of_writes (e.render_writes (Recast.inline_measured written_zero hq) rfl ctx.alike_self
    he p) h

theorem Query.render_measured (hq : schema.quote = Text.quoteIdentifier) {q : Query}
    (he : ∀ s ∈ q.rawParts, Text.Plain s) {x : Fragment} (h : q.LowersTo schema x) :
    Text.Balanced x.text.toList ∧ Text.placeholders x.text = x.arguments.length :=
  measured_of_writes (q.render_writes (Recast.inline_measured written_zero hq) he) h

theorem Query.selecting (hq : schema.quote = Text.quoteIdentifier) {q : Query}
    (he : ∀ s ∈ q.rawParts, Text.Plain s) {x : Fragment} (h : q.LowersTo schema x) :
    Text.Selecting x.text := by
  refine ⟨(Query.render_measured hq he h).1, ?_⟩
  have hr : (q.clauses schema >>= fun c => pure c.sql).Appends (.ok x.text) x.arguments := by
    have hm := h
    rwa [Query.LowersTo, Query.render, map_eq_pure_bind] at hm
  obtain ⟨c, -, hc⟩ := hr.of_bind_pure (q.clauses_uniform schema)
  obtain ⟨rest, hrest⟩ : ∃ rest, c.sql = "SELECT" ++ " " ++ rest := by
    have hs : "SELECT " = "SELECT" ++ " " := rfl
    refine ⟨(if c.distinct then "DISTINCT " else "") ++ (commaSeparated c.items ++ (c.sourceSql ++
      (c.condition ++ (c.groupSql ++ (c.having ++ (c.orderSql ++ c.limitSql)))))), ?_⟩
    rw [Clauses.sql, hs]
    simp only [String.append_assoc]
  rw [hc, hrest, Text.words_append (by decide)]
  rfl

/-- What stands in the open is a sign, a collation that is no keyword, or a function name. -/
def Expr.Tidy : Expr → Prop
  | .literal _ => False
  | .collate e collation => e.Tidy ∧ Text.Word collation ∧ collation ∉ Text.keywords
  | .not e => e.Tidy
  | .prefixOp op e => (∀ c ∈ op.toList, c ∈ ['+', '-', '~']) ∧ e.Tidy
  | .function name _ => Text.Word (Text.capitals name)
  | _ => True

namespace Text.Legible

theorem null : Legible "NULL" :=
  .of_word (by decide) (by decide) (by decide)

theorem wrap {s : String} (h : Legible s) (p : Polarity) : Legible (p.wrap s) := by
  cases p with
  | plain => exact h
  | negated =>
    rw [Polarity.wrap, group_negation]
    exact .group (balanced_append (by decide) h.balanced)

end Text.Legible

theorem Context.columnSql_legible (hq : ctx.schema.quote = Text.quoteIdentifier)
    {qualifier : Option Qualifier} {name sql : String}
    (h : ctx.columnSql qualifier name = .ok sql) : Text.Legible sql := by
  have hquoted : ∀ source, Text.Legible (ctx.quote source ++ "." ++ ctx.quote name) := by
    intro source
    rw [Context.quote, Context.quote, hq]
    exact .qualified source name
  rcases qualifier with _ | x | source
  · cases h
    rw [Context.quote, hq]
    exact .identifier name
  · obtain ⟨source, -, hs⟩ := Outcome.bind_eq_ok.mp h
    cases hs
    exact hquoted source
  · cases h
    exact hquoted source

theorem Expr.all_balanced (hq : ctx.schema.quote = Text.quoteIdentifier) {es : List Expr}
    {xs : List Fragment} (he : ∀ s ∈ Expr.rawPartsAll es, Text.Plain s)
    (h : List.Forall₂ (Expr.LowersTo ctx) es xs) :
    Text.Balanced (commaSeparated (xs.map Fragment.text)).toList := by
  apply Text.balanced_commaSeparated
  intro s hs
  obtain ⟨x, hx, rfl⟩ := List.mem_map.mp hs
  obtain ⟨e, hmem, hlowers⟩ := Expr.lowered_of_mem h hx
  exact (Expr.render_measured hq (fun s hs => he s (Expr.rawParts_of_mem hmem hs)) hlowers).1

namespace Expr

section

variable (hq : ctx.schema.quote = Text.quoteIdentifier) {p : Polarity} {s : String}
  {vs : List Value}

theorem value_legible {v : Value} (h : ((Expr.value v).render ctx p).Appends (.ok s) vs) :
    Text.Legible s := by
  have hplace : Text.Legible "?" := .of_word (by decide) (by decide) (by decide)
  cases v with
  | null =>
    cases (h.unique (Rendering.appends_pure (p.wrap "NULL"))).1
    exact Text.Legible.null.wrap p
  | _ =>
    obtain ⟨a, ha, rfl⟩ := Rendering.Appends.of_bind_pure ⟨_, _, Rendering.appends_bindValue _⟩ h
    cases (ha.unique (Rendering.appends_bindValue _)).1
    exact hplace.wrap p

include hq

theorem column_legible {qualifier : Option Qualifier} {name : String}
    (h : ((Expr.column qualifier name).render ctx p).Appends (.ok s) vs) : Text.Legible s := by
  obtain ⟨a, ha, rfl⟩ := Rendering.Appends.of_bind_pure ⟨_, _, Rendering.appends_ofOutcome _⟩ h
  have hok := (ha.unique (Rendering.appends_ofOutcome _)).1
  exact (Context.columnSql_legible hq hok.symm).wrap p

theorem compare_legible {c : Comparison} {left right : Expr}
    (he : ∀ s ∈ (Expr.compare c left right).rawParts, Text.Plain s)
    (h : ((Expr.compare c left right).render ctx p).Appends (.ok s) vs) : Text.Legible s := by
  obtain ⟨hel, her⟩ := List.forall_mem_append.mp he
  have htest : ∀ {e : Expr} {x : Fragment}, (∀ s ∈ e.rawParts, Text.Plain s) →
      e.LowersTo ctx x →
      Text.Legible ("(" ++ x.text ++ " " ++ (p.comparison c).nullTest ++ ")") := by
    intro e x he hx
    rw [Text.group_after]
    exact .group (Text.balanced_append (Text.balanced_append (render_measured hq he hx).1
      (by decide)) (by cases p <;> cases c <;> decide))
  rw [Expr.render] at h
  split at h
  · obtain ⟨x, hx, rfl, rfl⟩ := lowers_one h
    exact htest hel hx
  split at h
  · obtain ⟨x, hx, rfl, rfl⟩ := lowers_one h
    exact htest her hx
  · obtain ⟨x, y, hx, hy, rfl, rfl⟩ := lowers_two h
    rw [Text.group_between]
    exact .group (Text.balanced_between (render_measured hq hel hx).1
      (Form.operator_comparison _).balanced (render_measured hq her hy).1)

theorem infixOp_legible {op : String} {left right : Expr}
    (he : ∀ s ∈ (Expr.infixOp op left right).rawParts, Text.Plain s)
    (h : ((Expr.infixOp op left right).render ctx p).Appends (.ok s) vs) : Text.Legible s := by
  obtain ⟨hel, her⟩ := List.forall_mem_append.mp he
  obtain ⟨hop, her⟩ := List.forall_mem_cons.mp her
  obtain ⟨x, y, hx, hy, rfl, rfl⟩ := lowers_two h
  rw [Text.group_between]
  exact Text.Legible.wrap (.group (Text.balanced_between (render_measured hq hel hx).1
    (.flat hop.flat) (render_measured hq her hy).1)) p

theorem inList_legible {e : Expr} {candidates : List Expr}
    (he : ∀ s ∈ (Expr.inList e candidates).rawParts, Text.Plain s)
    (h : ((Expr.inList e candidates).render ctx p).Appends (.ok s) vs) : Text.Legible s := by
  obtain ⟨he, hes⟩ := List.forall_mem_append.mp he
  rw [Expr.render] at h
  split at h
  · cases (h.unique (Rendering.appends_pure _)).1
    exact .of_word (by cases p <;> decide) (by cases p <;> decide) (by cases p <;> decide)
  · obtain ⟨x, xs, hx, hxs, rfl, rfl⟩ := lowers_members h
    rw [Text.group_members]
    exact .group (Text.balanced_between (render_measured hq he hx).1
      (Form.operator_membership p).balanced (Text.balanced_group (all_balanced hq hes hxs)))

theorem inQuery_legible {e : Expr} {q : Query}
    (he : ∀ s ∈ (Expr.inQuery e q).rawParts, Text.Plain s)
    (h : ((Expr.inQuery e q).render ctx p).Appends (.ok s) vs) : Text.Legible s := by
  obtain ⟨he, heq⟩ := List.forall_mem_append.mp he
  obtain ⟨x, c, us, hx, hc, rfl, rfl⟩ := lowers_subquery h
  rw [Text.group_members]
  exact .group (Text.balanced_between (render_measured hq he hx).1
    (Form.operator_membership p).balanced
    (Text.balanced_group (Query.render_measured hq heq hc).1))

theorem existsIn_legible {q : Query} (he : ∀ s ∈ (Expr.existsIn q).rawParts, Text.Plain s)
    (h : ((Expr.existsIn q).render ctx p).Appends (.ok s) vs) : Text.Legible s := by
  obtain ⟨c, hc, rfl⟩ := Query.lowers h
  rw [Text.group_existence]
  exact .group (Text.balanced_append
    (Text.balanced_append (Form.operator_existence p).balanced (by decide))
    (Text.balanced_group (Query.render_measured hq he hc).1))

theorem between_legible {e low high : Expr}
    (he : ∀ s ∈ (Expr.between e low high).rawParts, Text.Plain s)
    (h : ((Expr.between e low high).render ctx p).Appends (.ok s) vs) : Text.Legible s := by
  obtain ⟨he, hhigh⟩ := List.forall_mem_append.mp he
  obtain ⟨he, hlow⟩ := List.forall_mem_append.mp he
  obtain ⟨x, y, z, hx, hy, hz, rfl, rfl⟩ := lowers_three h
  rw [Text.group_range]
  exact Text.Legible.wrap (.group (Text.balanced_range (render_measured hq he hx).1
    (render_measured hq hlow hy).1 (render_measured hq hhigh hz).1)) p

theorem function_legible {name : String} {arguments : List Expr}
    (he : ∀ s ∈ (Expr.function name arguments).rawParts, Text.Plain s)
    (ht : Text.Word (Text.capitals name))
    (h : ((Expr.function name arguments).render ctx p).Appends (.ok s) vs) : Text.Legible s := by
  obtain ⟨hn, he⟩ := List.forall_mem_cons.mp he
  obtain ⟨xs, hxs, rfl, rfl⟩ := lowers_list h
  rw [Text.call_group]
  exact (Text.Legible.call hn.flat ht (all_balanced hq he hxs)).wrap p

theorem count_legible {e : Expr} (he : ∀ s ∈ (Expr.count e).rawParts, Text.Plain s)
    (h : ((Expr.count e).render ctx p).Appends (.ok s) vs) : Text.Legible s := by
  obtain ⟨x, hx, rfl, rfl⟩ := lowers_one h
  have hc : "COUNT(" = "COUNT" ++ "(" := rfl
  rw [hc, Text.call_group]
  exact (Text.Legible.call (by decide) (by decide) (render_measured (e := e) hq he hx).1).wrap p

theorem countDistinct_legible {e : Expr}
    (he : ∀ s ∈ (Expr.countDistinct e).rawParts, Text.Plain s)
    (h : ((Expr.countDistinct e).render ctx p).Appends (.ok s) vs) : Text.Legible s := by
  obtain ⟨x, hx, rfl, rfl⟩ := lowers_one h
  have hc : "COUNT(DISTINCT " = "COUNT" ++ "(" ++ "DISTINCT " := rfl
  have hd : "COUNT" ++ "(" ++ "DISTINCT " ++ x.text ++ ")" =
      "COUNT" ++ "(" ++ ("DISTINCT " ++ x.text) ++ ")" := by
    simp only [String.append_assoc]
  rw [hc, hd, Text.call_group]
  exact (Text.Legible.call (by decide) (by decide)
    (Text.balanced_append (by decide) (render_measured (e := e) hq he hx).1)).wrap p

end

/-- The text of a tidy expression, negated or not, can be told from the text around it. -/
theorem render_legible (hq : ctx.schema.quote = Text.quoteIdentifier) :
    (e : Expr) → (∀ s ∈ e.rawParts, Text.Plain s) → e.Tidy → (p : Polarity) →
      ∀ {s : String} {vs : List Value}, (e.render ctx p).Appends (.ok s) vs → Text.Legible s
  | .literal _, _, ht, _, _, _, _ => ht.elim
  | .value _, _, _, _, _, _, h => value_legible h
  | .column _ _, _, _, _, _, _, h => column_legible hq h
  | .collate e collation, he, ht, p, _, _, h => by
    obtain ⟨he, hc⟩ := List.forall_mem_append.mp he
    obtain ⟨x, hx, rfl, rfl⟩ := lowers_one h
    have hl := render_legible hq e he ht.1 .plain hx
    exact (hl.collate (hc collation List.mem_cons_self).flat ht.2.1 ht.2.2).wrap p
  | .not e, he, ht, p, _, _, h => render_legible hq e he ht p.flip h
  | .compare _ _ _, he, _, _, _, _, h => compare_legible hq he h
  | .prefixOp _ e, he, ht, p, _, _, h => by
    obtain ⟨x, hx, rfl, rfl⟩ := lowers_one h
    have hl := render_legible hq e (List.forall_mem_cons.mp he).2 ht.2 .plain hx
    exact (hl.signed ht.1).wrap p
  | .infixOp _ _ _, he, _, _, _, _, h => infixOp_legible hq he h
  | .inList _ _, he, _, _, _, _, h => inList_legible hq he h
  | .inQuery _ _, he, _, _, _, _, h => inQuery_legible hq he h
  | .existsIn _, he, _, _, _, _, h => existsIn_legible hq he h
  | .between _ _ _, he, _, _, _, _, h => between_legible hq he h
  | .function _ _, he, ht, _, _, _, h => function_legible hq he ht h
  | .countAll, _, _, p, _, _, h => by
    cases (h.unique (Rendering.appends_pure _)).1
    exact Text.Legible.wrap (.of_whole (by decide) (by decide) (by decide) (by decide)) p
  | .count _, he, _, _, _, _, h => count_legible hq he h
  | .countDistinct _, he, _, _, _, _, h => countDistinct_legible hq he h

end Expr

end RelQuery
