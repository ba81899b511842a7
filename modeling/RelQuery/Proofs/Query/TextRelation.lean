import RelQuery.Proofs.Outcome
import RelQuery.Proofs.Text.Comments
import RelQuery.Query.Clauses
import RelQuery.Query.FromClause
import RelQuery.Query.Polarity
import RelQuery.Text.Collation

/-!
# Relations between texts

A relation between two texts and a list that goes with the first of them, such as the values that
have placeholders in it. What a renderer does to the texts of parts preserves such a relation once
joining two texts, enclosing a text in parentheses and adding a collation preserve it.
-/

set_option autoImplicit false

namespace RelQuery

def Text.Plain (s : String) : Prop :=
  ∀ c ∈ s.toList, c ≠ '?' ∧ c ≠ '"' ∧ c ≠ '(' ∧ c ≠ ')'

instance (s : String) : Decidable (Text.Plain s) :=
  decidable_of_iff (s.toList.all (fun c => c != '?' && c != '"' && c != '(' && c != ')') = true)
    (by simp [Text.Plain, and_assoc])

def Text.Inert (s : String) : Prop :=
  Text.Plain s ∧ Text.Dashless s

instance (s : String) : Decidable (Text.Inert s) :=
  inferInstanceAs (Decidable (Text.Plain s ∧ Text.Dashless s))

theorem Text.inert_repr (n : Nat) : Text.Inert n.repr := by
  have hd : ∀ c ∈ n.repr.toList, c.isDigit = true := by
    intro c hc
    rw [Nat.toList_repr] at hc
    exact Nat.isDigit_of_mem_toDigits (by decide : 0 < 10) (by decide) hc
  constructor
  · intro c hc
    refine ⟨?_, ?_, ?_, ?_⟩ <;> (rintro rfl; exact absurd (hd _ hc) (by decide))
  · intro c hc
    constructor <;> (rintro rfl; exact absurd (hd _ hc) (by decide))

variable {α : Type}

/-- A relation of texts that rendering preserves. Raw parts are in it as they are. -/
structure TextRelation (quote : String → String) (Raw : String → Prop)
    (T : String → List α → String → Prop) : Prop where
  plain : ∀ {s : String}, Text.Inert s → T s [] s
  raw : ∀ {s : String}, Raw s → T s [] s
  quoted : ∀ name : String, T (quote name) [] (quote name)
  append : ∀ {s s' t t' : String} {vs us : List α},
    T s vs s' → T t us t' → T (s ++ t) (vs ++ us) (s' ++ t')
  group : ∀ {s s' : String} {vs : List α},
    T s vs s' → T ("(" ++ s ++ ")") vs ("(" ++ s' ++ ")")
  collate : ∀ {s s' c : String} {vs : List α}, Raw c → T s vs s' →
    T (Text.insertCollation s c) vs (Text.insertCollation s' c)
  empty_iff : ∀ {s s' : String} {vs : List α}, T s vs s' → (s = "" ↔ s' = "")

inductive Texts (T : String → List α → String → Prop) :
    List String → List α → List String → Prop
  | nil : Texts T [] [] []
  | cons {s s' : String} {ss ss' : List String} {vs us : List α} (head : T s vs s')
      (tail : Texts T ss us ss') : Texts T (s :: ss) (vs ++ us) (s' :: ss')

namespace Texts

variable {T : String → List α → String → Prop}

theorem singleton {s s' : String} {vs : List α} (hs : T s vs s') : Texts T [s] vs [s'] := by
  have h := Texts.cons hs .nil
  rwa [List.append_nil] at h

theorem of_forall {ss : List String} (h : ∀ s ∈ ss, T s [] s) : Texts T ss [] ss := by
  induction ss with
  | nil => exact .nil
  | cons s ss ih =>
    exact .cons (h s List.mem_cons_self) (ih fun t ht => h t (List.mem_cons_of_mem s ht))

end Texts

namespace TextRelation

variable {quote : String → String} {Raw : String → Prop} {T : String → List α → String → Prop}
  {s s' t t' : String} {vs us : List α}

section

variable (ht : TextRelation quote Raw T)

include ht

theorem before (hp : Text.Inert t) (hs : T s vs s') : T (t ++ s) vs (t ++ s') :=
  ht.append (ht.plain hp) hs

theorem after (hs : T s vs s') (hp : Text.Inert t) : T (s ++ t) vs (s' ++ t) := by
  have h := ht.append hs (ht.plain hp)
  rwa [List.append_nil] at h

theorem append_closed (hs : T s vs s') (hc : T t [] t') : T (s ++ t) vs (s' ++ t') := by
  have h := ht.append hs hc
  rwa [List.append_nil] at h

theorem between (hs : T s vs s') (op : String) (hop : T op [] op) (hr : T t us t') :
    T (s ++ " " ++ op ++ " " ++ t) (vs ++ us) (s' ++ " " ++ op ++ " " ++ t') :=
  ht.append (ht.after (ht.append_closed (ht.after hs (by decide)) hop) (by decide)) hr

theorem empty : T "" [] "" :=
  ht.plain (by decide)

theorem call {name : String} (hn : T name [] name) (hs : T s vs s') :
    T (name ++ "(" ++ s ++ ")") vs (name ++ "(" ++ s' ++ ")") := by
  have h := ht.append hn (ht.group hs)
  simpa only [String.append_assoc, List.nil_append] using h

theorem wrap (p : Polarity) (hs : T s vs s') : T (p.wrap s) vs (p.wrap s') := by
  cases p with
  | plain => exact hs
  | negated =>
    have h := ht.group (ht.before (by decide : Text.Inert "NOT ") hs)
    have e : "(NOT " = "(" ++ "NOT " := rfl
    rw [Polarity.wrap, Polarity.wrap, e]
    simpa only [String.append_assoc] using h

theorem intercalate {sep : String} (hsep : T sep [] sep) {ss ss' : List String}
    (h : Texts T ss vs ss') : T (sep.intercalate ss) vs (sep.intercalate ss') := by
  induction h with
  | nil => exact ht.empty
  | cons head tail ih =>
    cases tail with
    | nil =>
      rw [List.append_nil, String.intercalate_singleton, String.intercalate_singleton]
      exact head
    | cons head' tail' =>
      rw [String.intercalate_cons_cons, String.intercalate_cons_cons]
      exact ht.append (ht.append_closed head hsep) ih

theorem commaSeparated {ss ss' : List String} (h : Texts T ss vs ss') :
    T (commaSeparated ss) vs (RelQuery.commaSeparated ss') :=
  ht.intercalate (ht.plain (by decide)) h

theorem operation {op : String} (hop : T (" " ++ op ++ " ") [] (" " ++ op ++ " "))
    (hs : T s vs s') (hr : T t us t') :
    T ("(" ++ s ++ " " ++ op ++ " " ++ t ++ ")") (vs ++ us)
      ("(" ++ s' ++ " " ++ op ++ " " ++ t' ++ ")") := by
  have h := ht.group (ht.append (ht.append_closed hs hop) hr)
  simpa only [String.append_assoc] using h

theorem comparison (p : Polarity) (c : Comparison) (hs : T s vs s') (hr : T t us t') :
    T ("(" ++ s ++ " " ++ (p.comparison c).sql ++ " " ++ t ++ ")") (vs ++ us)
      ("(" ++ s' ++ " " ++ (p.comparison c).sql ++ " " ++ t' ++ ")") := by
  have hop : Text.Inert (" " ++ (p.comparison c).sql ++ " ") := by cases p <;> cases c <;> decide
  exact ht.operation (ht.plain hop) hs hr

theorem nullTest (p : Polarity) (c : Comparison) (hs : T s vs s') :
    T ("(" ++ s ++ " " ++ (p.comparison c).nullTest ++ ")") vs
      ("(" ++ s' ++ " " ++ (p.comparison c).nullTest ++ ")") := by
  have hn : Text.Inert (" " ++ (p.comparison c).nullTest) := by cases p <;> cases c <;> decide
  have h := ht.group (ht.after hs hn)
  simpa only [String.append_assoc] using h

theorem range {u u' : String} {ws : List α} (hs : T s vs s') (hl : T t us t') (hu : T u ws u') :
    T ("(" ++ s ++ " BETWEEN " ++ t ++ " AND " ++ u ++ ")") (vs ++ (us ++ ws))
      ("(" ++ s' ++ " BETWEEN " ++ t' ++ " AND " ++ u' ++ ")") := by
  have hbounds := ht.append (ht.after hl (by decide : Text.Inert " AND ")) hu
  have h := ht.group (ht.append (ht.after hs (by decide : Text.Inert " BETWEEN ")) hbounds)
  simpa only [String.append_assoc] using h

theorem countAll : T "COUNT(*)" [] "COUNT(*)" :=
  ht.call (ht.plain (by decide : Text.Inert "COUNT")) (ht.plain (by decide : Text.Inert "*"))

theorem count (hs : T s vs s') : T ("COUNT(" ++ s ++ ")") vs ("COUNT(" ++ s' ++ ")") :=
  ht.call (ht.plain (by decide : Text.Inert "COUNT")) hs

theorem countDistinct (hs : T s vs s') :
    T ("COUNT(DISTINCT " ++ s ++ ")") vs ("COUNT(DISTINCT " ++ s' ++ ")") := by
  have h := ht.count (ht.before (by decide : Text.Inert "DISTINCT ") hs)
  have e : "COUNT(DISTINCT " = "COUNT(" ++ "DISTINCT " := rfl
  rw [e]
  simpa only [String.append_assoc] using h

theorem named (hs : T s vs s') (name : String) :
    T (s ++ " AS " ++ quote name) vs (s' ++ " AS " ++ quote name) :=
  ht.append_closed (ht.after hs (by decide)) (ht.quoted name)

theorem namedGroup (hs : T s vs s') (name : String) :
    T ("(" ++ s ++ ") AS " ++ quote name) vs ("(" ++ s' ++ ") AS " ++ quote name) := by
  have h := ht.named (ht.group hs) name
  have e : ") AS " = ")" ++ " AS " := rfl
  rw [e]
  simpa only [String.append_assoc] using h

theorem table (name source : String) :
    T (if source = name then quote name else quote name ++ " " ++ quote source) []
      (if source = name then quote name else quote name ++ " " ++ quote source) := by
  split
  · exact ht.quoted name
  · exact ht.append (ht.after (ht.quoted name) (by decide)) (ht.quoted source)

theorem leftJoin {condition condition' : String} (hs : T s vs s') (hr : T t us t')
    (hc : T condition [] condition') :
    T (s ++ " LEFT JOIN " ++ t ++ " ON " ++ condition) (vs ++ us)
      (s' ++ " LEFT JOIN " ++ t' ++ " ON " ++ condition') :=
  ht.append_closed (ht.after (ht.append (ht.after hs (by decide)) hr) (by decide)) hc

theorem directed (hs : T s vs s') (reversed : Bool) (direction : Direction) :
    T (s ++ (if reversed then direction.reversed else direction).sql) vs
      (s' ++ (if reversed then direction.reversed else direction).sql) :=
  ht.after hs (by cases reversed <;> cases direction <;> decide)

theorem membership (p : Polarity) (hs : T s vs s') (hr : T t us t') :
    T ("(" ++ s ++ " " ++ p.membership ++ " (" ++ t ++ "))") (vs ++ us)
      ("(" ++ s' ++ " " ++ p.membership ++ " (" ++ t' ++ "))") := by
  have hp : T p.membership [] p.membership := ht.plain (by cases p <;> decide)
  have h := ht.group (ht.between hs p.membership hp (ht.group hr))
  have e1 : " (" = " " ++ "(" := rfl
  have e2 : "))" = ")" ++ ")" := rfl
  rw [e1, e2]
  simpa only [String.append_assoc] using h

theorem existence (p : Polarity) (hs : T s vs s') :
    T ("(" ++ p.existence ++ " (" ++ s ++ "))") vs ("(" ++ p.existence ++ " (" ++ s' ++ "))") := by
  have hp : Text.Inert (p.existence ++ " ") := by cases p <;> decide
  have h := ht.group (ht.before hp (ht.group hs))
  have e1 : " (" = " " ++ "(" := rfl
  have e2 : "))" = ")" ++ ")" := rfl
  rw [e1, e2]
  simpa only [String.append_assoc] using h

theorem clause {keyword : String} (hk : Text.Inert keyword) (hs : T s vs s') :
    T (" " ++ keyword ++ " " ++ s) vs (" " ++ keyword ++ " " ++ s') :=
  ht.append (ht.after (ht.before (by decide) (ht.plain hk)) (by decide)) hs

end

theorem limit (ht : TextRelation quote Raw T) (l : Limit) : T l.sql [] l.sql := by
  have hn : ∀ n : Nat, T n.repr [] n.repr := fun n => ht.plain (Text.inert_repr n)
  unfold Limit.sql
  cases l.offset with
  | none => exact hn _
  | some offset => exact ht.append (ht.after (hn _) (by decide)) (hn _)

end TextRelation

inductive OptionalText (T : String → List α → String → Prop) :
    Option String → List α → Option String → Prop
  | none : OptionalText T none [] none
  | some {s s' : String} {vs : List α} (h : T s vs s') : OptionalText T (some s) vs (some s')

namespace Clauses

variable {quote : String → String} {Raw : String → Prop} {T : String → List α → String → Prop}
  {c c' : Clauses} {vs : List α}

theorem sourceSql_related (ht : TextRelation quote Raw T)
    (h : OptionalText T c.source vs c'.source) : T c.sourceSql vs c'.sourceSql := by
  unfold sourceSql
  generalize c.source = source at h
  generalize c'.source = source' at h
  cases h with
  | none => exact ht.empty
  | some h => exact ht.before (by decide) h

theorem groupSql_related (ht : TextRelation quote Raw T) (h : Texts T c.groups vs c'.groups) :
    T c.groupSql vs c'.groupSql := by
  unfold groupSql
  generalize c.groups = groups at h
  generalize c'.groups = groups' at h
  cases h with
  | nil => exact ht.empty
  | cons head tail => exact ht.before (by decide) (ht.commaSeparated (.cons head tail))

theorem orderSql_related (ht : TextRelation quote Raw T) (h : T c.order vs c'.order) :
    T c.orderSql vs c'.orderSql := by
  unfold orderSql
  by_cases he : c.order = ""
  · have he' : c'.order = "" := (ht.empty_iff h).mp he
    rw [he, he'] at h
    rw [if_pos he, if_pos he']
    exact h
  · rw [if_neg he, if_neg fun he' => he ((ht.empty_iff h).mpr he')]
    exact ht.before (by decide) h

theorem limitSql_related (ht : TextRelation quote Raw T) (h : c'.limit = c.limit) :
    T c.limitSql [] c'.limitSql := by
  unfold limitSql
  rw [h]
  cases c.limit with
  | none => exact ht.empty
  | some l => exact ht.before (by decide) (ht.limit l)

theorem sql_related (ht : TextRelation quote Raw T) {items source condition groups having order :
      List α} (hd : c'.distinct = c.distinct) (hi : Texts T c.items items c'.items)
    (hf : OptionalText T c.source source c'.source) (hc : T c.condition condition c'.condition)
    (hg : Texts T c.groups groups c'.groups) (hh : T c.having having c'.having)
    (ho : T c.order order c'.order) (hl : c'.limit = c.limit) :
    T c.sql (items ++ source ++ condition ++ groups ++ having ++ order) c'.sql := by
  have hw : T (if c.distinct then "DISTINCT " else "") []
      (if c.distinct then "DISTINCT " else "") :=
    ht.plain (by cases c.distinct <;> decide)
  have h := ht.append (ht.append (ht.append (ht.append (ht.append (ht.append (ht.append
    (ht.before (by decide : Text.Inert "SELECT ") hw) (ht.commaSeparated hi))
    (sourceSql_related ht hf)) hc) (groupSql_related ht hg)) hh) (orderSql_related ht ho))
    (limitSql_related ht hl)
  rw [List.append_nil] at h
  unfold sql
  rw [hd]
  exact h

end Clauses

namespace Context

variable {Raw : String → Prop} {T : String → List α → String → Prop} {ctx : Context}
  {sql : String}

theorem columnSql_text (ht : TextRelation ctx.schema.quote Raw T) {qualifier : Option Qualifier}
    {name : String} (hs : ctx.columnSql qualifier name = .ok sql) : T sql [] sql := by
  have hq : ∀ source, T (ctx.quote source ++ "." ++ ctx.quote name) []
      (ctx.quote source ++ "." ++ ctx.quote name) := fun source =>
    ht.append (ht.after (ht.quoted source) (by decide)) (ht.quoted name)
  rcases qualifier with _ | x | source
  · cases hs
    exact ht.quoted name
  · obtain ⟨source, -, hs⟩ := Outcome.bind_eq_ok.mp hs
    cases hs
    exact hq source
  · cases hs
    exact hq source

theorem starWithin_text (ht : TextRelation ctx.schema.quote Raw T) {n : Nat} {x : SourceId}
    (hs : ctx.starWithin n x = .ok sql) : T sql [] sql := by
  induction n generalizing x sql with
  | zero => cases hs
  | succ n ih =>
    rw [starWithin, Outcome.bind_eq_ok] at hs
    obtain ⟨source | j, -, hs⟩ := hs
    · obtain ⟨name, -, hs⟩ := Outcome.bind_eq_ok.mp hs
      cases hs
      exact ht.after (ht.quoted name) (by decide)
    · obtain ⟨base, hb, hs⟩ := Outcome.bind_eq_ok.mp hs
      obtain ⟨target, hr, hs⟩ := Outcome.bind_eq_ok.mp hs
      cases hs
      exact ht.append (ht.after (ih hb) (by decide)) (ih hr)

theorem keySql_text (ht : TextRelation ctx.schema.quote Raw T) (target origin : String)
    (pair : String × String) :
    T (ctx.keySql target origin pair) [] (ctx.keySql target origin pair) :=
  ht.append (ht.after (ht.append (ht.after (ht.append (ht.after (ht.quoted target) (by decide))
    (ht.quoted pair.2)) (by decide)) (ht.quoted origin)) (by decide)) (ht.quoted pair.1)

theorem joinCondition_text (ht : TextRelation ctx.schema.quote Raw T) {j : Join}
    (hs : ctx.joinCondition j = .ok sql) : T sql [] sql := by
  obtain ⟨target, -, hs⟩ := Outcome.bind_eq_ok.mp hs
  obtain ⟨origin, -, hs⟩ := Outcome.bind_eq_ok.mp hs
  cases hs
  refine ht.intercalate (ht.plain (by decide)) (Texts.of_forall fun s hs => ?_)
  obtain ⟨pair, -, rfl⟩ := List.mem_map.mp hs
  exact keySql_text ht target origin pair

theorem reversedRowId_text (ht : TextRelation ctx.schema.quote Raw T)
    (hs : ctx.reversedRowId = .ok sql) : T sql [] sql := by
  rw [reversedRowId] at hs
  split at hs
  · cases hs
  obtain ⟨x, -, hs⟩ := Outcome.bind_eq_ok.mp hs
  obtain ⟨⟨⟨table, aliasName⟩ | _⟩ | _, -, hs⟩ := Outcome.bind_eq_ok.mp hs
  · obtain ⟨hasRowId, -, hs⟩ := Outcome.bind_eq_ok.mp hs
    cases hasRowId with
    | false => cases hs
    | true =>
      obtain ⟨columns, -, hs⟩ := Outcome.bind_eq_ok.mp hs
      split at hs
      · cases hs
      · obtain ⟨name, -, hs⟩ := Outcome.bind_eq_ok.mp hs
        cases hs
        exact ht.after (ht.quoted name) (by decide)
  · cases hs
  · cases hs

end Context

end RelQuery
