import RelQuery.Proofs.Query.Comments
import RelQuery.Proofs.Query.Containment
import RelQuery.Proofs.Text.Endings

/-!
# Collations of expressions

A collation is written after a name or a placeholder and inside the parentheses of an operator. The
parentheses of a call are not those of a group, and neither are those of an operand with a prefix
before it; a collation of such an expression is written in them all the same, at what the function
is applied to.
-/

set_option autoImplicit false

namespace RelQuery

open Rendering

def Polarity.ending : Polarity → Text.Ending → Text.Ending
  | .plain, k => k
  | .negated, _ => .group

def Expr.ending : Polarity → Expr → Text.Ending
  | p, .not e => e.ending p.flip
  | p, .literal _ => p.ending .plain
  | p, .value _ => p.ending .plain
  | p, .column _ _ => p.ending .plain
  | p, .collate e _ => p.ending (e.ending .plain)
  | p, .prefixOp op e => p.ending ((e.ending .plain).prefixed op)
  | p, .function name _ => p.ending (Text.Ending.group.prefixed name)
  | p, .countAll => p.ending .call
  | p, .count _ => p.ending .call
  | p, .countDistinct _ => p.ending .call
  | _, .inList _ [] => .plain
  | _, _ => .group

namespace Text.EndsAs

variable {s t u op : String} {k : Ending}

theorem wrap (p : Polarity) (h : EndsAs k s) : EndsAs (p.ending k) (p.wrap s) := by
  have hword : Balanced "NOT ".toList := by decide
  cases p with
  | plain => exact h
  | negated =>
    rw [Polarity.wrap, group_negation]
    exact .group (balanced_append hword h.balanced)

theorem operation (hs : Balanced s.toList) (hop : Flat op.toList) (ht : Balanced t.toList) :
    EndsAs .group ("(" ++ s ++ " " ++ op ++ " " ++ t ++ ")") := by
  rw [group_between]
  exact .group (balanced_between hs (.flat hop) ht)

theorem test (hs : Balanced s.toList) (hop : Flat op.toList) :
    EndsAs .group ("(" ++ s ++ " " ++ op ++ ")") := by
  have hspace : Balanced " ".toList := by decide
  rw [group_after]
  exact .group (balanced_append (balanced_append hs hspace) (.flat hop))

theorem range (hs : Balanced s.toList) (ht : Balanced t.toList) (hu : Balanced u.toList) :
    EndsAs .group ("(" ++ s ++ " BETWEEN " ++ t ++ " AND " ++ u ++ ")") := by
  rw [group_range]
  exact .group (balanced_range hs ht hu)

theorem members (hs : Balanced s.toList) (hop : Flat op.toList) (ht : Balanced t.toList) :
    EndsAs .group ("(" ++ s ++ " " ++ op ++ " (" ++ t ++ "))") := by
  rw [group_members]
  exact .group (balanced_between hs (.flat hop) (balanced_group ht))

theorem existence (hop : Flat op.toList) (ht : Balanced t.toList) :
    EndsAs .group ("(" ++ op ++ " (" ++ t ++ "))") := by
  have hspace : Balanced " ".toList := by decide
  rw [group_existence]
  exact .group (balanced_append (balanced_append (.flat hop) hspace) (balanced_group ht))

theorem applied {name : String} (hname : Flat name.toList) (hs : Balanced s.toList) :
    EndsAs (Ending.group.prefixed name) (name ++ "(" ++ s ++ ")") := by
  rw [call_group]
  exact (EndsAs.group hs).before hname

end Text.EndsAs

theorem Text.flat_count : Text.Flat "COUNT".toList := by
  decide

theorem Polarity.ending_group (p : Polarity) : p.ending .group = .group := by
  cases p <;> rfl

theorem Polarity.flat_comparison (p : Polarity) (c : Comparison) :
    Text.Flat (p.comparison c).sql.toList ∧ Text.Flat (p.comparison c).nullTest.toList := by
  cases p <;> cases c <;> decide

theorem Context.columnSql_endsAs {ctx : Context} (hq : ctx.schema.quote = Text.quoteIdentifier)
    {qualifier : Option Qualifier} {name sql : String}
    (h : ctx.columnSql qualifier name = .ok sql) : Text.EndsAs .plain sql := by
  have hqualified (source : String) :
      Text.EndsAs .plain (ctx.quote source ++ "." ++ ctx.quote name) := by
    have hdot : Text.Balanced ".".toList := by decide
    rw [quote, quote, hq]
    exact .identifier (Text.balanced_append (.identifier source) hdot) name
  rcases qualifier with _ | x | source
  · cases h
    have hname := Text.EndsAs.identifier (t := "") (.flat (by decide)) name
    rwa [String.empty_append, ← hq] at hname
  · obtain ⟨source, -, h⟩ := Outcome.bind_eq_ok.mp h
    cases h
    exact hqualified source
  · cases h
    exact hqualified source

namespace Expr

variable {ctx : Context}

theorem render_balanced (hq : ctx.schema.quote = Text.quoteIdentifier) {e : Expr}
    (he : ∀ s ∈ e.rawParts, Text.Flat s.toList) :
    (e.render ctx .plain).Gives fun s => Text.Balanced s.toList :=
  ((Context.contains_of_quote hq).expression e .plain he).mono fun _ hs =>
    Text.scans_iff.mp (hs.scans 0)

theorem renderAll_balanced (hq : ctx.schema.quote = Text.quoteIdentifier) {es : List Expr}
    (hes : ∀ s ∈ rawPartsAll es, Text.Flat s.toList) :
    (renderAll ctx es).Gives fun ss => Text.Balanced (commaSeparated ss).toList := by
  have hall : (renderAll ctx es).Gives fun ss => ∀ s ∈ ss, Text.Balanced s.toList := by
    induction es with
    | nil => exact gives_pure nofun
    | cons e es ih =>
      obtain ⟨he, hes⟩ := List.forall_mem_append.mp hes
      exact (render_balanced hq he).bind fun s hs => (ih hes).bind fun ss hss =>
        gives_pure (List.forall_mem_cons.mpr ⟨hs, hss⟩)
  exact hall.mono fun _ => Text.balanced_commaSeparated

end Expr

theorem Query.clauses_balanced {schema : Schema} (hq : schema.quote = Text.quoteIdentifier)
    {q : Query} (h : ∀ s ∈ q.rawParts, Text.Flat s.toList) :
    (q.clauses schema).Gives fun c => Text.Balanced c.sql.toList := by
  intro b b' c hrun
  have hsql : (q.render schema).runFrom b = (.ok c.sql, b') := runFrom_map_eq_ok.mpr ⟨c, hrun, rfl⟩
  exact Text.scans_iff.mp ((Query.render_contained hq h b b' c.sql hsql).scans 0)

namespace Expr

variable {ctx : Context}

theorem render_endsAs (hq : ctx.schema.quote = Text.quoteIdentifier) :
    (e : Expr) → (∀ s ∈ e.rawParts, Text.Flat s.toList) → (p : Polarity) →
      (e.render ctx p).Gives (Text.EndsAs (e.ending p))
  | .literal sql, he, p => gives_pure (.wrap p (.of_flat (he sql List.mem_cons_self)))
  | .value v, _, p => by
    have hplaceholder : Text.EndsAs .plain "?" := .of_flat (by decide)
    cases v with
    | null => exact gives_pure (.wrap p (.of_flat (by decide)))
    | _ => exact (gives_bindValue _).bind fun s hs => gives_pure (.wrap p (hs ▸ hplaceholder))
  | .column qualifier name, _, p => by
    rw [render]
    exact (gives_ofOutcome _).bind fun sql hsql =>
      gives_pure (.wrap p (Context.columnSql_endsAs hq hsql))
  | .collate e collation, he, p => by
    obtain ⟨he, hc⟩ := List.forall_mem_append.mp he
    rw [render]
    exact (e.render_endsAs hq he .plain).bind fun s hs =>
      gives_pure (.wrap p (hs.collate (hc collation List.mem_cons_self)))
  | .not e, he, p => by
    rw [render]
    exact e.render_endsAs hq he p.flip
  | .compare c left right, he, p => by
    obtain ⟨hleft, hright⟩ := List.forall_mem_append.mp he
    obtain ⟨hsql, htest⟩ := p.flat_comparison c
    have hl := left.render_balanced hq hleft
    have hr := right.render_balanced hq hright
    rw [render]
    split
    · exact hl.bind fun s hs => gives_pure (.test hs htest)
    · split
      · exact hr.bind fun s hs => gives_pure (.test hs htest)
      · exact hl.bind fun s hs => hr.bind fun t ht => gives_pure (.operation hs hsql ht)
  | .prefixOp op e, he, p => by
    obtain ⟨hop, he⟩ := List.forall_mem_cons.mp he
    rw [render]
    exact (e.render_endsAs hq he .plain).bind fun s hs => gives_pure (.wrap p (hs.before hop))
  | .infixOp op left right, he, p => by
    obtain ⟨hleft, he⟩ := List.forall_mem_append.mp he
    obtain ⟨hop, hright⟩ := List.forall_mem_cons.mp he
    rw [render]
    refine (left.render_balanced hq hleft).bind fun s hs =>
      (right.render_balanced hq hright).bind fun t ht => gives_pure ?_
    have hwrapped := Text.EndsAs.wrap p (.operation hs hop ht)
    rwa [p.ending_group] at hwrapped
  | .inList e [], _, p => by
    rw [render]
    exact gives_pure (.of_flat (by cases p <;> decide))
  | .inList e (candidate :: candidates), he, p => by
    obtain ⟨he, hes⟩ := List.forall_mem_append.mp he
    rw [render]
    exact (e.render_balanced hq he).bind fun s hs =>
      (renderAll_balanced hq hes).bind fun ss hss =>
        gives_pure (.members hs (by cases p <;> decide) hss)
  | .inQuery e q, he, p => by
    obtain ⟨he, hinner⟩ := List.forall_mem_append.mp he
    rw [render]
    exact (e.render_balanced hq he).bind fun s hs =>
      (q.clauses_balanced hq hinner).bind fun c hc =>
        gives_pure (.members hs (by cases p <;> decide) hc)
  | .existsIn q, he, p => by
    rw [render]
    exact (q.clauses_balanced hq he).bind fun c hc =>
      gives_pure (.existence (by cases p <;> decide) hc)
  | .between e low high, he, p => by
    obtain ⟨he, hhigh⟩ := List.forall_mem_append.mp he
    obtain ⟨he, hlow⟩ := List.forall_mem_append.mp he
    rw [render]
    refine (e.render_balanced hq he).bind fun s hs => (low.render_balanced hq hlow).bind fun t ht =>
      (high.render_balanced hq hhigh).bind fun u hu => gives_pure ?_
    have hwrapped := Text.EndsAs.wrap p (.range hs ht hu)
    rwa [p.ending_group] at hwrapped
  | .function name arguments, he, p => by
    obtain ⟨hname, he⟩ := List.forall_mem_cons.mp he
    have hempty : Text.Ending.group.prefixed (Text.capitals name) =
        Text.Ending.group.prefixed name := by
      simp only [Text.Ending.prefixed, Text.capitals_eq_empty_iff]
    rw [render, ending, ← hempty]
    exact (renderAll_balanced hq he).bind fun ss hss => gives_pure (.wrap p (.applied hname hss))
  | .countAll, _, p =>
    have hstar : Text.Balanced "*".toList := by decide
    gives_pure (.wrap p (.applied Text.flat_count hstar))
  | .count e, he, p => by
    rw [render]
    exact (e.render_balanced hq he).bind fun s hs =>
      gives_pure (.wrap p (.applied Text.flat_count hs))
  | .countDistinct e, he, p => by
    have hword : Text.Balanced "DISTINCT ".toList := by decide
    rw [render]
    refine (e.render_balanced hq he).bind fun s hs => gives_pure (.wrap p ?_)
    have hcall := Text.EndsAs.applied Text.flat_count (Text.balanced_append hword hs)
    rwa [← String.append_assoc] at hcall

/-- What a collation of an expression is written as: the text of the expression with the collation
where its last character puts it. -/
theorem collate_lowers {e : Expr} {x : Fragment} (h : e.LowersTo ctx x) (collation : String) :
    (Expr.collate e collation).LowersTo ctx
      ⟨Text.insertCollation x.text collation, x.arguments⟩ := by
  have hbind := h.bind (k := fun s => pure (Text.insertCollation s collation)) (appends_pure _)
  rw [List.append_nil] at hbind
  rw [LowersTo, render]
  exact hbind

/-- A collation is at its place if the text of the expression is one group or does not end in a
parenthesis, and only then. Where no name that is written without quotes has a quote or a
parenthesis in it, these are all texts but those that end in the parentheses of a call; in such a
text the collation is written at the end of the last argument. -/
theorem collate_placed_iff {e : Expr} {x : Fragment} (h : e.LowersTo ctx x) (collation : String) :
    ∃ y : Fragment, (Expr.collate e collation).LowersTo ctx y ∧ y.arguments = x.arguments ∧
      (Text.Collated collation x.text y.text ↔
        (x.text.toList.getLast? = some ')' → Text.IsGroup x.text)) ∧
      (ctx.schema.quote = Text.quoteIdentifier → (∀ s ∈ e.rawParts, Text.Flat s.toList) →
        (Text.Collated collation x.text y.text ↔ e.ending .plain ≠ .call) ∧
        (e.ending .plain = .call → ∃ head inner : String, head ≠ "" ∧
          x.text = head ++ Text.group inner ∧
          y.text = head ++ Text.group (inner ++ " COLLATE " ++ collation))) := by
  refine ⟨_, collate_lowers h collation, rfl,
    Text.collated_insertCollation_iff x.text collation, ?_⟩
  intro hq he
  have hends : Text.EndsAs (e.ending .plain) x.text :=
    e.render_endsAs hq he .plain .empty _ _ (h .empty)
  refine ⟨hends.collated_iff collation, fun hcall => ?_⟩
  rw [hcall] at hends
  generalize x.text = sql at hends
  cases hends with
  | @call head inner c hfirst =>
    refine ⟨head, inner, ?_, rfl, Text.insertCollation_paren head inner collation⟩
    rintro rfl
    cases hfirst

def debt : Expr :=
  .minus (.binary .add (.column none "paid") (.value (.integer 5)))

/-- The collation is written in the sum. -/
theorem debt_collated :
    debt.LowersTo (.alone Query.plainSchema) ⟨"-(\"paid\" + ?)", [.integer 5]⟩ ∧
    ∃ y : Fragment,
      (Expr.collate debt "BINARY").LowersTo (.alone Query.plainSchema) y ∧
      ¬Text.Collated "BINARY" "-(\"paid\" + ?)" y.text := by
  have hlowers : debt.LowersTo (.alone Query.plainSchema) ⟨"-(\"paid\" + ?)", [.integer 5]⟩ :=
    fun _ => rfl
  obtain ⟨y, hy, -, -, hplace⟩ := collate_placed_iff hlowers "BINARY"
  refine ⟨hlowers, y, hy, ?_⟩
  rw [(hplace rfl (by decide)).1]
  decide

def lowerTitle : Expr :=
  .collate (.function "lower" [.column none "title"]) "NOCASE"

/-- The text of the function is no group, and its collation is not after it. -/
theorem lowerTitle_misplaced :
    (Expr.function "lower" [.column none "title"]).LowersTo (.alone Query.plainSchema)
      ⟨"LOWER(\"title\")", []⟩ ∧
    ¬Text.IsGroup "LOWER(\"title\")" ∧
    lowerTitle.LowersTo (.alone Query.plainSchema) ⟨"LOWER(\"title\" COLLATE NOCASE)", []⟩ ∧
    ¬Text.Collated "NOCASE" "LOWER(\"title\")" "LOWER(\"title\" COLLATE NOCASE)" := by
  have hcall : Text.EndsAs .call "LOWER(\"title\")" :=
    @Text.EndsAs.call "LOWER" "\"title\"" 'L' rfl (by decide) (by decide) (by decide)
  have hplace : Text.insertCollation "LOWER(\"title\")" "NOCASE" =
      "LOWER(\"title\" COLLATE NOCASE)" := rfl
  refine ⟨fun b => ?_, hcall.not_isGroup, fun b => ?_, ?_⟩
  · rw [List.append_nil]
    rfl
  · rw [List.append_nil]
    rfl
  · rw [← hplace, hcall.collated_iff]
    exact fun hne => hne rfl

end Expr

end RelQuery
