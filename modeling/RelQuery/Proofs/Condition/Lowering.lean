import RelQuery.Proofs.Condition.Operands

/-!
# Lowered conditions keep their truth

What is written for a condition, or for its negation, spells out a form with the truth of the
condition in three-valued logic. The opposite forms, the tests for null and the constants in the
place of empty lists are each seen to be the negation or the comparison that they stand for.
-/

set_option autoImplicit false

namespace RelQuery

namespace Assignment.Reads

variable {ctx : Context} {I : Assignment Fragment Fragment} {V : Assignment Expr Query}
  {e e' e'' : Expr} {x y z : Fragment}

theorem related (h : I.Reads ctx V) (hx : e.LowersTo ctx x) (hy : e'.LowersTo ctx y)
    (r : Relation) : I.related r x y = V.related r e e' := by
  rw [Assignment.related, Assignment.related, h.value hx, h.value hy, h.holds r hx hy]

theorem same (h : I.Reads ctx V) (hx : e.LowersTo ctx x) (hy : e'.LowersTo ctx y) :
    I.same x y = V.same e e' := by
  rw [Assignment.same, Assignment.same, h.value hx, h.value hy, h.holds .equal hx hy]

theorem compare (h : I.Reads ctx V) (hx : e.LowersTo ctx x) (hy : e'.LowersTo ctx y)
    (c : Comparison) : I.compare c x y = V.compare c e e' := by
  cases c <;> simp only [Assignment.compare, h.related hx hy, h.same hx hy]

theorem nullTest (h : I.Reads ctx V) (hx : e.LowersTo ctx x) (c : Comparison) :
    I.nullTest c x = V.nullTest c e := by
  cases c <;> simp only [Assignment.nullTest, h.value hx]

theorem between (h : I.Reads ctx V) (hx : e.LowersTo ctx x) (hy : e'.LowersTo ctx y)
    (hz : e''.LowersTo ctx z) : I.between x y z = V.between e e' e'' := by
  rw [Assignment.between, Assignment.between, h.related hx hy, h.related hx hz]

theorem inList (h : I.Reads ctx V) (hx : e.LowersTo ctx x) {es : List Expr}
    {xs : List Fragment} (hxs : List.Forall₂ (Expr.LowersTo ctx) es xs) :
    I.inList x xs = V.inList e es := by
  unfold Assignment.inList
  congr 1
  induction hxs with
  | nil => rfl
  | cons hy _ ih => rw [List.map_cons, List.map_cons, h.related hx hy, ih]

theorem inQuery (h : I.Reads ctx V) (hx : e.LowersTo ctx x) {q : Query}
    (hy : q.LowersTo ctx.schema y) : I.inQuery x y = V.inQuery e q := by
  rw [Assignment.inQuery, Assignment.inQuery, h.value hx, h.rows hy, h.found hx hy]

theorem existsIn (h : I.Reads ctx V) {q : Query} (hy : q.LowersTo ctx.schema y) :
    I.existsIn y = V.existsIn q := by
  rw [Assignment.existsIn, Assignment.existsIn, h.rows hy]

end Assignment.Reads

/-- The null-aware comparison that a comparison with a null literal is written as. -/
def Comparison.nullAware : Comparison → Comparison
  | .equal | .is => .is
  | .notEqual | .isNot => .isNot

theorem Comparison.nullTest_eq (c : Comparison) :
    c.nullTest = c.nullAware.sql ++ " " ++ "NULL" := by
  cases c <;> rfl

theorem Assignment.compare_nullAware {α κ : Type} (A : Assignment α κ) {y : α}
    (h : A.value y = .null) (c : Comparison) (x : α) :
    A.compare c.nullAware x y = A.nullTest c x := by
  have hs := A.same_of_null h x
  cases c <;> cases hx : (A.value x).isNull <;>
    simp [Comparison.nullAware, Assignment.compare, Assignment.nullTest, hs, hx, Truth.ofBool,
      Truth.not]

def Form.wrap : Polarity → Form → Form
  | .plain, t => t
  | .negated, t => .negation t

namespace Form

theorem text_wrap (p : Polarity) (t : Form) : (t.wrap p).text = p.wrap t.text := by
  cases p with
  | plain => rfl
  | negated => exact (Text.group_negation t.text).symm

theorem fragments_wrap (p : Polarity) (t : Form) : (t.wrap p).fragments = t.fragments := by
  cases p <;> rfl

theorem truth_wrap (I : Assignment Fragment Fragment) (p : Polarity) (t : Form) :
    (t.wrap p).truth I = p.truth (t.truth I) := by
  cases p <;> rfl

theorem legible_wrap (p : Polarity) {t : Form} (h : t.Legible) : (t.wrap p).Legible := by
  cases p <;> exact h

end Form

/-- All that is written as it is has no placeholder, quote or parenthesis in it, and what stands
in the open in an operand is no keyword. -/
structure Condition.Tidy (c : Condition) : Prop where
  plain : ∀ s ∈ c.expr.rawParts, Text.Plain s
  operands : ∀ e ∈ c.operands, e.Tidy

/-- The form has the text and the arguments, its truth is that of the condition with the polarity,
and it can be read if the condition is tidy. -/
structure Condition.Spells (ctx : Context) (p : Polarity) (c : Condition) (s : String)
    (vs : List Value) (t : Form) : Prop where
  text : t.text = s
  arguments : t.arguments = vs
  truth : ∀ {V : Assignment Expr Query} {I : Assignment Fragment Fragment}, I.Reads ctx V →
    t.truth I = p.truth (c.meaning V)
  legible : ctx.schema.quote = Text.quoteIdentifier → c.Tidy →
    t.Legible ∧ ∀ x ∈ t.fragments, x.Aligned

namespace Condition

variable {ctx : Context} {p : Polarity} {s : String} {vs : List Value}

theorem operand_legible (hq : ctx.schema.quote = Text.quoteIdentifier) {e : Expr}
    (he : ∀ s ∈ e.rawParts, Text.Plain s) (ht : e.Tidy) {x : Fragment} (hx : e.LowersTo ctx x) :
    Text.Legible x.text ∧ x.Aligned :=
  ⟨e.render_legible hq he ht .plain hx, (Expr.render_measured hq he hx).2⟩

theorem null_legible : Text.Legible "NULL" ∧ (Fragment.mk "NULL" []).Aligned :=
  ⟨.null, rfl⟩

theorem spells_wrap {c : Condition} {t : Form} (h : Spells ctx .plain c s vs t) :
    Spells ctx p c (p.wrap s) vs (t.wrap p) where
  text := by rw [Form.text_wrap, h.text]
  arguments := by rw [Form.arguments, Form.fragments_wrap]; exact h.arguments
  truth := by
    intro V I hr
    rw [Form.truth_wrap, h.truth hr]
    rfl
  legible := by
    intro hq ht
    rw [Form.fragments_wrap]
    exact ⟨Form.legible_wrap p (h.legible hq ht).1, (h.legible hq ht).2⟩

theorem spells_nullTest {c : Comparison} {e left right : Expr} {x : Fragment}
    (hx : e.LowersTo ctx x) (he : ∀ s ∈ e.rawParts, s ∈ (Expr.compare c left right).rawParts)
    (hop : e ∈ [left, right])
    (hm : ∀ V : Assignment Expr Query, (compare c left right).meaning V = V.nullTest c e) :
    Spells ctx p (.compare c left right) ("(" ++ x.text ++ " " ++ (p.comparison c).nullTest ++ ")")
      x.arguments (.compare (p.comparison c).nullAware x ⟨"NULL", []⟩) where
  text := by
    rw [Form.text, Comparison.nullTest_eq, Text.group]
    simp only [String.append_assoc]
  arguments := by simp [Form.arguments, Form.fragments]
  truth := by
    intro V I hr
    rw [Form.truth, I.compare_nullAware hr.null_written, I.nullTest_comparison, hr.nullTest hx, hm]
  legible := by
    intro hq ht
    obtain ⟨hl, ha⟩ := operand_legible hq (fun s hs => ht.plain s (he s hs)) (ht.operands e hop) hx
    exact ⟨⟨hl, null_legible.1⟩, by simp [Form.fragments, ha, null_legible.2]⟩

theorem spells_compare {c : Comparison} {left right : Expr}
    (h : ((Expr.compare c left right).render ctx p).Appends (.ok s) vs) :
    ∃ t, Spells ctx p (.compare c left right) s vs t := by
  rw [Expr.render] at h
  split at h
  · rename_i hn
    obtain ⟨x, hx, rfl, rfl⟩ := Expr.lowers_one h
    exact ⟨_, spells_nullTest hx (fun _ => List.mem_append_left _) (by simp)
      fun V => by simp [meaning, hn]⟩
  rename_i hright
  split at h
  · rename_i hn
    obtain ⟨x, hx, rfl, rfl⟩ := Expr.lowers_one h
    exact ⟨_, spells_nullTest hx (fun _ => List.mem_append_right _) (by simp)
      fun V => by simp [meaning, hn, hright]⟩
  rename_i hleft
  obtain ⟨x, y, hx, hy, rfl, rfl⟩ := Expr.lowers_two h
  refine ⟨.compare (p.comparison c) x y, (Text.group_between _ _ _).symm, ?_, ?_, ?_⟩
  · simp [Form.arguments, Form.fragments]
  · intro V I hr
    rw [Form.truth, I.compare_comparison, hr.compare hx hy]
    simp [meaning, hleft, hright]
  · intro hq ht
    obtain ⟨hel, her⟩ := List.forall_mem_append.mp ht.plain
    obtain ⟨hlx, hax⟩ := operand_legible hq hel (ht.operands left (by simp [operands])) hx
    obtain ⟨hly, hay⟩ := operand_legible hq her (ht.operands right (by simp [operands])) hy
    exact ⟨⟨hlx, hly⟩, by simp [Form.fragments, hax, hay]⟩

theorem spells_test {t : BinaryTest} {left right : Expr}
    (h : ((Expr.binary t.op left right).render ctx p).Appends (.ok s) vs) :
    ∃ u, Spells ctx p (.test t left right) s vs u := by
  obtain ⟨x, y, hx, hy, rfl, rfl⟩ := Expr.lowers_two h
  refine ⟨_, spells_wrap (t := .test t x y) ⟨(Text.group_between _ _ _).symm, ?_, ?_, ?_⟩⟩
  · simp [Form.arguments, Form.fragments]
  · exact fun hr => hr.related hx hy (.test t)
  · intro hq ht
    obtain ⟨hel, her⟩ := List.forall_mem_append.mp ht.plain
    obtain ⟨-, her⟩ := List.forall_mem_cons.mp her
    obtain ⟨hlx, hax⟩ := operand_legible hq hel (ht.operands left (by simp [operands])) hx
    obtain ⟨hly, hay⟩ := operand_legible hq her (ht.operands right (by simp [operands])) hy
    exact ⟨⟨hlx, hly⟩, by simp [Form.fragments, hax, hay]⟩

theorem spells_between {e low high : Expr}
    (h : ((Expr.between e low high).render ctx p).Appends (.ok s) vs) :
    ∃ t, Spells ctx p (.between e low high) s vs t := by
  obtain ⟨x, y, z, hx, hy, hz, rfl, rfl⟩ := Expr.lowers_three h
  refine ⟨_, spells_wrap (t := .between x y z) ⟨(Text.group_range _ _ _).symm, ?_, ?_, ?_⟩⟩
  · simp [Form.arguments, Form.fragments]
  · exact fun hr => hr.between hx hy hz
  · intro hq ht
    obtain ⟨he, hhigh⟩ := List.forall_mem_append.mp ht.plain
    obtain ⟨he, hlow⟩ := List.forall_mem_append.mp he
    obtain ⟨hlx, hax⟩ := operand_legible hq he (ht.operands e (by simp [operands])) hx
    obtain ⟨hly, hay⟩ := operand_legible hq hlow (ht.operands low (by simp [operands])) hy
    obtain ⟨hlz, haz⟩ := operand_legible hq hhigh (ht.operands high (by simp [operands])) hz
    exact ⟨⟨hlx, hly, hlz⟩, by simp [Form.fragments, hax, hay, haz]⟩

theorem candidates_legible (hq : ctx.schema.quote = Text.quoteIdentifier) {es : List Expr}
    {xs : List Fragment} (hes : ∀ s ∈ Expr.rawPartsAll es, Text.Plain s) (ht : ∀ e ∈ es, e.Tidy)
    (h : List.Forall₂ (Expr.LowersTo ctx) es xs) :
    ∀ x ∈ xs, Text.Legible x.text ∧ x.Aligned := by
  intro x hx
  obtain ⟨e, hmem, hlowers⟩ := Expr.lowered_of_mem h hx
  have he : ∀ s ∈ e.rawParts, Text.Plain s := fun s hs => hes s (Expr.rawParts_of_mem hmem hs)
  exact operand_legible hq he (ht e hmem) hlowers

theorem spells_inList {e : Expr} {candidates : List Expr}
    (h : ((Expr.inList e candidates).render ctx p).Appends (.ok s) vs) :
    ∃ t, Spells ctx p (.inList e candidates) s vs t := by
  rw [Expr.render] at h
  split at h
  · rename_i hnil
    have hc : candidates = [] := List.isEmpty_iff.mp hnil
    subst hc
    obtain ⟨hs, rfl⟩ := h.unique (Rendering.appends_pure _)
    cases hs
    refine ⟨.constant (p = .negated), ?_, rfl, ?_, fun _ _ => ⟨trivial, List.forall_mem_nil _⟩⟩
    · cases p <;> rfl
    · intro V I _
      cases p <;> rfl
  · rename_i hne
    obtain ⟨x, xs, hx, hxs, rfl, rfl⟩ := Expr.lowers_members h
    refine ⟨.inList p x xs, (Text.group_members _ _ _).symm, ?_, ?_, ?_⟩
    · simp [Form.arguments, Form.fragments]
    · intro V I hr
      rw [Form.truth, hr.inList hx hxs]
      rfl
    · intro hq ht
      obtain ⟨he, hes⟩ := List.forall_mem_append.mp ht.plain
      obtain ⟨hte, hts⟩ := List.forall_mem_cons.mp ht.operands
      obtain ⟨hlx, hax⟩ := operand_legible hq he hte hx
      have hl := candidates_legible hq hes hts hxs
      have hxs' : xs ≠ [] := by
        rintro rfl
        cases hxs
        exact hne rfl
      exact ⟨⟨hlx, hxs', fun y hy => (hl y hy).1⟩,
        List.forall_mem_cons.mpr ⟨hax, fun y hy => (hl y hy).2⟩⟩

theorem spells_inQuery {e : Expr} {q : Query}
    (h : ((Expr.inQuery e q).render ctx p).Appends (.ok s) vs) :
    ∃ t, Spells ctx p (.inQuery e q) s vs t := by
  obtain ⟨x, c, us, hx, hc, rfl, rfl⟩ := Expr.lowers_subquery h
  refine ⟨.inQuery p x ⟨c.sql, us⟩, (Text.group_members _ _ _).symm, ?_, ?_, ?_⟩
  · simp [Form.arguments, Form.fragments]
  · intro V I hr
    rw [Form.truth, hr.inQuery hx hc]
    rfl
  · intro hq ht
    obtain ⟨he, heq⟩ := List.forall_mem_append.mp ht.plain
    obtain ⟨hlx, hax⟩ := operand_legible hq he (ht.operands e (by simp [operands])) hx
    have hac := (Query.render_measured hq heq hc).2
    exact ⟨⟨hlx, Query.selecting hq heq hc⟩,
      List.forall_mem_cons.mpr ⟨hax, List.forall_mem_cons.mpr ⟨hac, List.forall_mem_nil _⟩⟩⟩

theorem spells_existsIn {q : Query} (h : ((Expr.existsIn q).render ctx p).Appends (.ok s) vs) :
    ∃ t, Spells ctx p (.existsIn q) s vs t := by
  obtain ⟨c, hc, rfl⟩ := Query.lowers h
  refine ⟨.existsIn p ⟨c.sql, vs⟩, (Text.group_existence _ _).symm, ?_, ?_, ?_⟩
  · simp [Form.arguments, Form.fragments]
  · intro V I hr
    rw [Form.truth, hr.existsIn hc]
    rfl
  · intro hq ht
    have hac := (Query.render_measured hq ht.plain hc).2
    exact ⟨Query.selecting hq ht.plain hc, List.forall_mem_cons.mpr ⟨hac, List.forall_mem_nil _⟩⟩

theorem spells_junction {j : Junction} {left right : Condition} {t u : Form} {s' : String}
    {us : List Value} (hl : Spells ctx .plain left s vs t) (hr : Spells ctx .plain right s' us u) :
    Spells ctx .plain (.junction j left right) ("(" ++ s ++ " " ++ j.op.sql ++ " " ++ s' ++ ")")
      (vs ++ us) (.junction j t u) where
  text := by rw [Form.text, hl.text, hr.text, Text.group_between]
  arguments := by
    rw [← hl.arguments, ← hr.arguments]
    simp [Form.arguments, Form.fragments]
  truth := by
    intro V I hi
    rw [Form.truth, hl.truth hi, hr.truth hi]
    rfl
  legible := by
    intro hq ht
    obtain ⟨hel, her⟩ := List.forall_mem_append.mp ht.plain
    obtain ⟨-, her⟩ := List.forall_mem_cons.mp her
    obtain ⟨htl, htr⟩ := List.forall_mem_append.mp ht.operands
    obtain ⟨hlt, hat⟩ := hl.legible hq ⟨hel, htl⟩
    obtain ⟨hlu, hau⟩ := hr.legible hq ⟨her, htr⟩
    exact ⟨⟨hlt, hlu⟩, List.forall_mem_append.mpr ⟨hat, hau⟩⟩

/-- Every condition is written, negated or not, as a form with its truth. -/
theorem exists_spelling (c : Condition) (p : Polarity)
    (h : (c.expr.render ctx p).Appends (.ok s) vs) : ∃ t, Spells ctx p c s vs t := by
  induction c generalizing p s vs with
  | not c ih =>
    obtain ⟨t, ht⟩ := ih p.flip h
    refine ⟨t, ht.text, ht.arguments, ?_, ?_⟩
    · intro V I hr
      rw [ht.truth hr, Polarity.truth_flip]
      rfl
    · exact fun hq htidy => ht.legible hq ⟨htidy.plain, htidy.operands⟩
  | junction j left right ihl ihr =>
    obtain ⟨x, y, hx, hy, rfl, rfl⟩ := Expr.lowers_two h
    obtain ⟨t, ht⟩ := ihl .plain hx
    obtain ⟨u, hu⟩ := ihr .plain hy
    exact ⟨_, spells_wrap (spells_junction ht hu)⟩
  | compare c left right => exact spells_compare h
  | test t left right => exact spells_test h
  | between e low high => exact spells_between h
  | inList e candidates => exact spells_inList h
  | inQuery e q => exact spells_inQuery h
  | existsIn q => exact spells_existsIn h

/-- What is written for a condition has the truth of the condition, and what is written for its
negation has the negated truth. The forms are read off the texts where no raw part and no name in
the open can be taken for the words around it. -/
theorem lowering_keeps_truth (ctx : Context) (c : Condition) (x : Fragment)
    (hx : c.expr.LowersTo ctx x) :
    ∃ (y : Fragment) (t u : Form), (Expr.not c.expr).LowersTo ctx y ∧
      t.fragment = x ∧ u.fragment = y ∧
      (∀ (V : Assignment Expr Query) (I : Assignment Fragment Fragment), I.Reads ctx V →
        t.truth I = c.meaning V) ∧
      (∀ I : Assignment Fragment Fragment, I.value ⟨"NULL", []⟩ = .null →
        u.truth I = (t.truth I).not) ∧
      (ctx.schema.quote = Text.quoteIdentifier → c.Tidy →
        Form.read x = some t ∧ Form.read y = some u) := by
  obtain ⟨y, hy⟩ := Expr.not_lowers hx
  obtain ⟨t, ht⟩ := c.exists_spelling .plain hx
  obtain ⟨u, hu⟩ := c.exists_spelling .negated hy
  have htx : t.fragment = x := by rw [Form.fragment, ht.text, ht.arguments]
  have huy : u.fragment = y := by rw [Form.fragment, hu.text, hu.arguments]
  refine ⟨y, t, u, hy, htx, huy, fun V I hr => ht.truth hr, ?_, ?_⟩
  · intro I hnull
    have hr := Assignment.reads_through ctx hnull
    rw [hu.truth hr, ht.truth hr]
    rfl
  · intro hq htidy
    obtain ⟨hlt, hat⟩ := ht.legible hq htidy
    obtain ⟨hlu, hau⟩ := hu.legible hq htidy
    rw [← htx, ← huy]
    exact ⟨Form.read_fragment hlt hat, Form.read_fragment hlu hau⟩

def agesSchema : Schema where
  columns := fun _ => .ok ["name", "age"]
  hasRowId := fun _ => .ok true
  quote := Text.quoteIdentifier

def agesContext : Context :=
  ⟨agesSchema, ⟨0, [], none⟩, []⟩

def notUnderAge : Condition :=
  .not (.junction .and (.test .less (.column none "age") (.value (.integer 18)))
    (.not (.compare .equal (.column none "age") (.value .null))))

def notUnderAgeSql : Fragment :=
  ⟨"(NOT ((\"age\" < ?) AND (\"age\" IS NOT NULL)))", [.integer 18]⟩

def noColumns : Assignment Fragment Fragment where
  value := fun x => x.arguments.headD .null
  holds := fun _ _ _ => true
  rows := fun _ => []
  found := fun _ _ _ => false

/-- An age that is null is not under 18, though the comparison with it is unknown. -/
theorem notUnderAge_kept : notUnderAge.expr.LowersTo agesContext notUnderAgeSql ∧
    notUnderAge.Tidy ∧ noColumns.Reads agesContext (noColumns.through agesContext) ∧
    ∃ (y : Fragment) (t u : Form), (Expr.not notUnderAge.expr).LowersTo agesContext y ∧
      Form.read notUnderAgeSql = some t ∧ Form.read y = some u ∧
      t.truth noColumns = .yes ∧ u.truth noColumns = .no := by
  have hlowers : notUnderAge.expr.LowersTo agesContext notUnderAgeSql := fun _ => rfl
  have htidy : notUnderAge.Tidy := ⟨by decide, by simp [notUnderAge, operands, Expr.Tidy]⟩
  have hreads := Assignment.reads_through agesContext (I := noColumns) rfl
  obtain ⟨y, t, u, hy, -, -, htruth, hnot, hread⟩ :=
    lowering_keeps_truth agesContext notUnderAge notUnderAgeSql hlowers
  have hyes : t.truth noColumns = .yes := htruth _ _ hreads
  refine ⟨hlowers, htidy, hreads, y, t, u, hy, (hread rfl htidy).1, (hread rfl htidy).2, hyes, ?_⟩
  rw [hnot noColumns rfl, hyes]
  rfl

end Condition

end RelQuery
