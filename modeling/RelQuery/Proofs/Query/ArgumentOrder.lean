import RelQuery.Proofs.Query.Calls
import RelQuery.Proofs.Query.Correspondence
import RelQuery.Proofs.Text.Placeholders

/-!
# Placeholders and arguments

The arguments of a query are its placeholders in the order of the text. To say which placeholder
belongs to which argument, the query is compared with the one that has its values written in the
text: filling the placeholders with the written arguments gives the text of that one.
-/

set_option autoImplicit false

namespace RelQuery

/-- Text that neither holds a question mark nor opens an identifier. -/
def Text.Unquoted (s : String) : Prop :=
  Text.Bare s.toList

instance (s : String) : Decidable (Text.Unquoted s) :=
  inferInstanceAs (Decidable (Text.Bare s.toList))

/-- A way to write values: never as nothing, and with no closing parenthesis at the end, which a
collation would be put before. -/
def Written (w : Value → String) : Prop :=
  ∀ v, w v ≠ "" ∧ (w v).toList.getLast? ≠ some ')'

def Recast.inline (w : Value → String) : Recast where
  value := fun v => if v.isNull then .value v else .literal (w v)
  scope := id

def Expr.inlined (w : Value → String) (e : Expr) : Expr := e.recast (.inline w)

def Query.inlined (w : Value → String) (q : Query) : Query := q.recast (.inline w)

/-- A rendering binds the same values after any others and gives the same text. A text has one
placeholder for each argument, and filled with the written arguments it is the text with the
values written in it. A failure comes after some of the arguments and none is taken back. -/
def Rendering.Aligned (arguments : List Value) (r : Rendering String)
    (inlined : (Value → String) → Rendering String) : Prop :=
  ∃ (o : Outcome String) (us : List Value), r.Appends o us ∧ us <+: arguments ∧
    (∀ sql, o = .ok sql → us = arguments ∧ Text.placeholders sql = us.length) ∧
    ∀ w, Written w → (inlined w).Appends (o.map fun sql => Text.fill sql (us.map w)) []

def FilledText (w : Value → String) (s : String) (vs : List Value) (s' : String) : Prop :=
  Text.Fills s.toList (vs.map fun v => (w v).toList) s'.toList

variable {w : Value → String} {schema : Schema}

theorem Written.toList (hw : Written w) (vs : List Value) :
    ∀ cs ∈ vs.map fun v => (w v).toList, cs ≠ [] ∧ cs.getLast? ≠ some ')' := by
  intro cs hcs
  obtain ⟨v, -, rfl⟩ := List.mem_map.mp hcs
  exact ⟨fun h => (hw v).1 (String.toList_eq_nil_iff.mp h), (hw v).2⟩

theorem filledText_relation (hw : Written w) :
    TextRelation Text.quoteIdentifier Text.Unquoted (FilledText w) where
  plain := fun hs => .bare fun c hc => ⟨(hs.1 c hc).1, (hs.1 c hc).2.1⟩
  raw := fun hs => .bare hs
  quoted := fun name => .identifier name
  append := by
    intro s s' t t' vs us hs ht
    rw [FilledText, List.map_append, String.toList_append, String.toList_append]
    exact Text.Fills.append hs ht
  group := by
    intro s s' vs hs
    have ho : Text.Fills ['('] [] ['('] := .bare (by decide)
    have hc : Text.Fills [')'] [] [')'] := .bare (by decide)
    have hg := (ho.append hs).append hc
    rw [List.append_nil, List.nil_append] at hg
    simpa [FilledText, String.toList_append] using hg
  collate := fun hc hs => hs.collate (hw.toList _) hc
  empty_iff := by
    intro s s' vs hs
    have he := hs.eq_nil_iff fun cs hcs => (hw.toList vs cs hcs).1
    rwa [String.toList_eq_nil_iff, String.toList_eq_nil_iff] at he

theorem Recast.inline_faithful (hw : Written w) (hq : schema.quote = Text.quoteIdentifier) :
    (Recast.inline w).Faithful schema Text.Unquoted (FilledText w) (fun _ => []) where
  text := hq ▸ filledText_relation hw
  scope := Function.injective_id
  null := rfl
  kept := by
    intro v hv
    show (if v.isNull then Expr.value v else .literal (w v)).isNull = false
    rw [hv]
    rfl
  leaf := by
    intro v hv
    refine ⟨w v, Text.Fills.placeholder _, fun ctx p => ?_⟩
    show ((if v.isNull then Expr.value v else .literal (w v)).render ctx p).Appends _ _
    rw [hv]
    exact Rendering.appends_pure _

namespace Rendering

theorem aligned_of_writes {arguments : List Value} {r : Rendering String}
    {inlined : (Value → String) → Rendering String}
    (h : ∀ w, Written w → Writes (FilledText w) (fun _ => []) arguments r (inlined w)) :
    Aligned arguments r inlined := by
  have hnil : ∀ vs : List Value, vs.flatMap (fun _ => ([] : List Value)) = [] := by simp
  have hzero : Written fun _ => "0" := by
    have h0 : ("0" : String) ≠ "" ∧ "0".toList.getLast? ≠ some ')' := by decide
    exact fun _ => h0
  rcases h _ hzero with ⟨left, right, related⟩ | ⟨before, left, right⟩
  · rename_i sql _
    refine ⟨.ok sql, arguments, left, List.prefix_rfl, ?_, fun w hw => ?_⟩
    · rintro _ ⟨⟩
      exact ⟨rfl, related.count.trans (List.length_map _)⟩
    · rcases h w hw with ⟨left', right', related'⟩ | ⟨-, left', -⟩
      · obtain ⟨hsql, -⟩ := left.unique left'
        cases hsql
        rename_i filled
        have hfill : Text.fill sql (arguments.map w) = filled := by
          rw [Text.fill, List.map_map]
          exact (congrArg String.ofList related'.filled).trans String.ofList_toList
        rw [hnil] at right'
        rwa [← hfill] at right'
      · cases (left.unique left').1
  · rename_i f us
    refine ⟨.error f, us, left, before, ?_, fun w hw => ?_⟩
    · rintro _ ⟨⟩
    · rcases h w hw with ⟨left', -, -⟩ | ⟨-, left', right'⟩
      · cases (left.unique left').1
      · obtain ⟨hf, -⟩ := left.unique left'
        cases hf
        rw [hnil] at right'
        exact right'

end Rendering

namespace Query

theorem rawParts_unordered {q : Query} {s : String} (h : s ∈ q.unordered.rawParts) :
    s ∈ q.rawParts := by
  rw [rawParts_eq] at h ⊢
  exact List.mem_append_left _ (by simpa [unordered, SortTerm.rawPartsAll] using h)

theorem rawParts_countWrapped {q : Query} {scope : Nat} {s : String}
    (h : s ∈ (q.countWrapped scope).rawParts) : s ∈ q.rawParts := by
  have hw : (q.countWrapped scope).rawParts = q.unordered.rawParts := by
    rw [rawParts_eq]
    show [] ++ (q.unordered.rawParts ++ []) ++ [] ++ [] ++ [] ++ [] = _
    simp
  exact rawParts_unordered (hw ▸ h)

theorem rawParts_countBy {q : Query} {e : Expr} {s : String} (h : s ∈ (q.countBy e).rawParts) :
    s ∈ e.rawParts ∨ s ∈ q.rawParts := by
  rw [rawParts_eq] at h
  rw [rawParts_eq]
  simp only [countBy, select, unordered, Item.rawPartsAll, Item.rawParts, List.append_nil,
    SortTerm.rawPartsAll, List.mem_append] at h ⊢
  grind

theorem rawParts_countQueryIn {q : Query} {scope : Nat} {s : String}
    (h : s ∈ (q.countQueryIn scope).rawParts) : s ∈ q.rawParts := by
  rcases q.countQueryIn_cases with hq | hq | ⟨e, aliasName, hselection, hq⟩
  · rw [hq] at h
    exact rawParts_countWrapped h
  · rw [hq] at h
    exact (rawParts_countBy h).resolve_left List.not_mem_nil
  · rw [hq] at h
    rcases rawParts_countBy h with h | h
    · rw [rawParts_eq, hselection]
      simp [Item.rawPartsAll, Item.rawParts, show s ∈ e.rawParts from h]
    · rw [rawParts_eq] at h ⊢
      exact h

end Query

/-- Every query, its count queries, and every expression in any context have their arguments in
the order of their placeholders. -/
theorem arguments_aligned (hq : schema.quote = Text.quoteIdentifier) :
    (∀ q : Query, (∀ s ∈ q.rawParts, Text.Unquoted s) →
      Rendering.Aligned q.arguments (q.render schema) (fun w => (q.inlined w).render schema) ∧
      ∀ scope : Nat, Rendering.Aligned (q.countQueryIn scope).arguments
        ((q.countQueryIn scope).render schema)
        (fun w => ((q.countQueryIn scope).inlined w).render schema)) ∧
    ∀ (ctx : Context) (e : Expr) (p : Polarity), ctx.schema = schema →
      (∀ s ∈ e.rawParts, Text.Unquoted s) →
      Rendering.Aligned e.arguments (e.render ctx p) (fun w => (e.inlined w).render ctx p) := by
  have hquery : ∀ q : Query, (∀ s ∈ q.rawParts, Text.Unquoted s) →
      Rendering.Aligned q.arguments (q.render schema) (fun w => (q.inlined w).render schema) :=
    fun q hr => Rendering.aligned_of_writes fun w hw =>
      Query.render_writes (Recast.inline_faithful hw hq) q hr
  refine ⟨fun q hr => ⟨hquery q hr, fun scope => ?_⟩, fun ctx e p hs hr => ?_⟩
  · exact hquery _ fun s h => hr s (Query.rawParts_countQueryIn h)
  · exact Rendering.aligned_of_writes fun w hw =>
      Expr.render_writes (Recast.inline_faithful hw hq) hs ctx.alike_self e hr p

/-- A table and a column with question marks in their names, a condition that binds, and a null
among candidates, which is not bound. -/
def markedQuery : Query :=
  ((Query.table 0 "t?").filter
    (.compare .equal (.column none "a?") (.value (.integer 7)))).filter
      (.inList (.collate (.column none "id") "NOCASE") [.value .null, .value (.text "x")])

def markedSchema : Schema where
  columns := fun _ => .ok ["id", "a?"]
  hasRowId := fun _ => .ok true
  quote := Text.quoteIdentifier

theorem markedQuery_aligned : markedSchema.quote = Text.quoteIdentifier ∧
    (∀ s ∈ markedQuery.rawParts, Text.Unquoted s) ∧
    Rendering.Aligned [.integer 7, .text "x"] (markedQuery.render markedSchema)
      (fun w => (markedQuery.inlined w).render markedSchema) :=
  ⟨rfl, by decide, ((arguments_aligned rfl).1 markedQuery (by decide)).1⟩

end RelQuery
