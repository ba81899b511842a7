import RelQuery.Proofs.Text.Parentheses
import RelQuery.Query.Clauses

/-!
# Words of SQL text

Words are what stands between the spaces outside of identifiers and parentheses. The text of an
operand has no keyword among its words, so that the first keyword after it is the one that the
text around it was written with.
-/

set_option autoImplicit false

namespace RelQuery.Text

def group (s : String) : String :=
  "(" ++ s ++ ")"

def words (s : String) : List String :=
  (cut ' ' s.toList).map String.ofList

/-- The items of a comma-separated list, without the space after each comma. -/
def items (s : String) : List String :=
  match cut ',' s.toList with
  | [] => []
  | first :: others => String.ofList first :: others.map fun cs => String.ofList (cs.drop 1)

def ungroup? (s : String) : Option String :=
  match s.toList with
  | '(' :: cs =>
    if cs.getLast? = some ')' ∧ Balanced cs.dropLast then some (String.ofList cs.dropLast)
    else none
  | _ => none

section

variable (s t u op : String)

theorem group_between : "(" ++ s ++ " " ++ op ++ " " ++ t ++ ")" =
    group (s ++ " " ++ op ++ " " ++ t) := by
  simp only [group, String.append_assoc]

theorem group_after : "(" ++ s ++ " " ++ op ++ ")" = group (s ++ " " ++ op) := by
  simp only [group, String.append_assoc]

theorem group_range : "(" ++ s ++ " BETWEEN " ++ t ++ " AND " ++ u ++ ")" =
    group (s ++ " BETWEEN " ++ t ++ " AND " ++ u) := by
  simp only [group, String.append_assoc]

theorem group_members : "(" ++ s ++ " " ++ op ++ " (" ++ t ++ "))" =
    group (s ++ " " ++ op ++ " " ++ group t) := by
  have ho : " (" = " " ++ "(" := rfl
  have hc : "))" = ")" ++ ")" := rfl
  rw [group, group, ho, hc]
  simp only [String.append_assoc]

theorem group_existence : "(" ++ op ++ " (" ++ t ++ "))" = group (op ++ " " ++ group t) := by
  have ho : " (" = " " ++ "(" := rfl
  have hc : "))" = ")" ++ ")" := rfl
  rw [group, group, ho, hc]
  simp only [String.append_assoc]

theorem call_group : op ++ "(" ++ s ++ ")" = op ++ group s := by
  simp only [group, String.append_assoc]

theorem group_negation : "(NOT " ++ s ++ ")" = group ("NOT " ++ s) := by
  have ho : "(NOT " = "(" ++ "NOT " := rfl
  rw [group, ho]
  simp only [String.append_assoc]

end

def keywords : List String :=
  ["=", "<>", "IS", "<", "<=", ">", ">=", "LIKE", "BETWEEN", "AND", "OR", "IN", "NOT", "EXISTS",
    "SELECT"]

def beforeKeyword (ws : List String) : List String :=
  ws.takeWhile (· ∉ keywords)

def fromKeyword (ws : List String) : List String :=
  ws.dropWhile (· ∉ keywords)

variable {s t : String}

theorem words_append (h : Balanced s.toList) (t : String) :
    words (s ++ " " ++ t) = words s ++ words t := by
  have hs : ' ' ≠ '"' ∧ ' ' ≠ '(' ∧ ' ' ≠ ')' := by decide
  have ht : (s ++ " " ++ t).toList = s.toList ++ ' ' :: t.toList := by simp
  rw [words, ht, cut_separated hs h, List.map_append]
  rfl

theorem words_of_whole (h : Whole ' ' s.toList) : words s = [s] := by
  rw [words, h, List.map_singleton, String.ofList_toList]

theorem words_ne_nil (s : String) : words s ≠ [] := by
  simp [words, cut_ne_nil]

theorem intercalate_words (s : String) : " ".intercalate (words s) = s := by
  apply String.toList_injective
  rw [String.toList_intercalate, words, List.map_map]
  have hm : String.toList ∘ String.ofList = id := by
    funext cs
    exact String.toList_ofList
  rw [hm, List.map_id]
  exact intercalate_cutFrom ' ' .start s.toList

theorem balanced_append (hs : Balanced s.toList) (ht : Balanced t.toList) :
    Balanced (s ++ t).toList := by
  rw [String.toList_append]
  exact hs.append ht

theorem balanced_between {op : String} (hs : Balanced s.toList) (ho : Balanced op.toList)
    (ht : Balanced t.toList) : Balanced (s ++ " " ++ op ++ " " ++ t).toList := by
  have hspace : Balanced " ".toList := by decide
  exact balanced_append (balanced_append (balanced_append (balanced_append hs hspace) ho) hspace) ht

theorem balanced_range {u : String} (hs : Balanced s.toList) (ht : Balanced t.toList)
    (hu : Balanced u.toList) : Balanced (s ++ " BETWEEN " ++ t ++ " AND " ++ u).toList := by
  have hb : Balanced " BETWEEN ".toList := by decide
  have ha : Balanced " AND ".toList := by decide
  exact balanced_append (balanced_append (balanced_append (balanced_append hs hb) ht) ha) hu

theorem words_between {op : String} (hs : Balanced s.toList) (ho : Balanced op.toList)
    (t : String) : words (s ++ " " ++ op ++ " " ++ t) = words s ++ (words op ++ words t) := by
  have ha : s ++ " " ++ op ++ " " ++ t = s ++ " " ++ (op ++ " " ++ t) := by
    simp only [String.append_assoc]
  rw [ha, words_append hs, words_append ho]

theorem group_toList (s : String) : (group s).toList = '(' :: (s.toList ++ [')']) := by
  simp [group]

theorem balanced_group (h : Balanced s.toList) : Balanced (group s).toList := by
  rw [group_toList]
  exact h.group

theorem words_group (h : Balanced s.toList) : words (group s) = [group s] := by
  apply words_of_whole
  rw [group_toList]
  exact .group (by decide) h

theorem ungroup?_group (h : Balanced s.toList) : ungroup? (group s) = some s := by
  rw [ungroup?, group_toList]
  simp [h]

theorem getLast_of_keyword : ∀ w ∈ keywords, w.toList.getLast? ≠ some ')' ∧
    w.toList.getLast? ≠ some ',' ∧ w.toList.getLast? ≠ some '"' := by
  decide

theorem group_not_keyword (s : String) : group s ∉ keywords := by
  intro h
  apply (getLast_of_keyword _ h).1
  rw [group_toList, ← List.cons_append, List.getLast?_concat]

theorem beforeKeyword_append {ws : List String} {k : String} (hw : ∀ w ∈ ws, w ∉ keywords)
    (hk : k ∈ keywords) (rest : List String) : beforeKeyword (ws ++ k :: rest) = ws := by
  rw [beforeKeyword, List.takeWhile_append_of_pos (by simpa using hw)]
  simp [hk]

theorem fromKeyword_append {ws : List String} {k : String} (hw : ∀ w ∈ ws, w ∉ keywords)
    (hk : k ∈ keywords) (rest : List String) : fromKeyword (ws ++ k :: rest) = k :: rest := by
  rw [fromKeyword, List.dropWhile_append_of_pos (by simpa using hw)]
  simp [hk]

/-- The text of an operand: it ends outside of identifiers and parentheses, none of its words is a
keyword, and a comma in it separates no items. -/
structure Legible (s : String) : Prop where
  balanced : Balanced s.toList
  quiet : ∀ w ∈ words s, w ∉ keywords
  listed : Whole ',' s.toList

structure Selecting (s : String) : Prop where
  balanced : Balanced s.toList
  first : (words s).head? = some "SELECT"

structure Operator (s : String) : Prop where
  balanced : Balanced s.toList
  first : ∃ (k : String) (ks : List String), words s = k :: ks ∧ k ∈ keywords

theorem quiet_comma {cs : List Char} (hb : Balanced cs)
    (h : ∀ w ∈ cut ' ' cs, String.ofList w ∉ keywords) :
    ∀ w ∈ cut ' ' (cs ++ [',']), String.ofList w ∉ keywords := by
  have hcomma : cut ' ' [','] = [[',']] := cutFrom_of_not_mem .start (by decide)
  intro w hmem
  rw [cut_append hb, hcomma] at hmem
  rcases mem_glue_singleton [] hmem with hmem | ⟨u, rfl⟩
  · rw [glue_nil_cons (cut_ne_nil _ _), List.append_nil] at hmem
    exact h w hmem
  · intro hk
    apply (getLast_of_keyword _ hk).2.1
    rw [String.toList_ofList, List.getLast?_concat]

theorem balanced_commaSeparated {ss : List String} (h : ∀ s ∈ ss, Balanced s.toList) :
    Balanced (commaSeparated ss).toList := by
  induction ss with
  | nil => exact .flat (by decide)
  | cons s ss ih =>
    have hs := h s List.mem_cons_self
    cases ss with
    | nil => rwa [commaSeparated, String.intercalate_singleton]
    | cons t ss =>
      rw [commaSeparated, String.intercalate_cons_cons, String.toList_append, String.toList_append]
      exact (hs.append (.flat (by decide))).append (ih fun u hu => h u (List.mem_cons_of_mem s hu))

theorem cut_commaSeparated {s : String} {ss : List String}
    (h : ∀ t ∈ s :: ss, Legible t) : cut ',' (commaSeparated (s :: ss)).toList =
      s.toList :: ss.map fun t => ' ' :: t.toList := by
  induction ss generalizing s with
  | nil =>
    rw [commaSeparated, String.intercalate_singleton]
    exact (h s List.mem_cons_self).listed
  | cons t ss ih =>
    have hs := h s List.mem_cons_self
    have ht : (commaSeparated (s :: t :: ss)).toList =
        s.toList ++ ',' :: ([' '] ++ (commaSeparated (t :: ss)).toList) := by
      rw [commaSeparated, String.intercalate_cons_cons, commaSeparated]
      simp
    have hspace : Balanced [' '] := .flat (by decide)
    rw [ht, cut_separated (by decide) hs.balanced, hs.listed, cut_append hspace,
      ih fun u hu => h u (List.mem_cons_of_mem s hu)]
    rfl

theorem items_commaSeparated {ss : List String} (hne : ss ≠ []) (h : ∀ s ∈ ss, Legible s) :
    items (commaSeparated ss) = ss := by
  cases ss with
  | nil => exact absurd rfl hne
  | cons s ss =>
    rw [items, cut_commaSeparated h]
    simp [Function.comp_def]

theorem head_commaSeparated {ss : List String} (h : ∀ s ∈ ss, Legible s) :
    (words (commaSeparated ss)).head? ≠ some "SELECT" := by
  have hk : "SELECT" ∈ keywords := by decide
  cases ss with
  | nil => decide
  | cons s ss =>
    have hs := h s List.mem_cons_self
    intro hhead
    cases ss with
    | nil =>
      rw [commaSeparated, String.intercalate_singleton] at hhead
      exact hs.quiet _ (List.mem_of_head? hhead) hk
    | cons t ss =>
      have ht : commaSeparated (s :: t :: ss) = s ++ "," ++ " " ++ commaSeparated (t :: ss) := by
        rw [commaSeparated, String.intercalate_cons_cons, commaSeparated]
        simp [String.append_assoc]
      have hb : Balanced (s ++ ",").toList := by
        rw [String.toList_append]
        exact hs.balanced.append (.flat (by decide))
      have hmem : "SELECT" ∈ words (s ++ ",") := by
        rw [ht, words_append hb] at hhead
        obtain ⟨w, ws, hw⟩ := List.exists_cons_of_ne_nil (words_ne_nil (s ++ ","))
        rw [hw, List.cons_append, List.head?_cons] at hhead
        rw [hw, Option.some.inj hhead]
        exact List.mem_cons_self
      obtain ⟨w, hw, hwk⟩ := List.mem_map.mp hmem
      rw [String.toList_append] at hw
      refine quiet_comma hs.balanced ?_ w hw (hwk ▸ hk)
      exact fun v hv => hs.quiet _ (List.mem_map_of_mem hv)

def Word (s : String) : Prop :=
  ' ' ∉ s.toList ∧ ',' ∉ s.toList

instance (s : String) : Decidable (Word s) :=
  inferInstanceAs (Decidable (_ ∧ _))

namespace Legible

theorem of_whole (hb : Balanced s.toList) (hs : Whole ' ' s.toList) (hc : Whole ',' s.toList)
    (hk : s ∉ keywords) : Legible s := by
  refine ⟨hb, ?_, hc⟩
  rw [words_of_whole hs]
  simpa using hk

theorem of_word (hf : Flat s.toList) (hw : Word s) (hk : s ∉ keywords) : Legible s :=
  of_whole (.flat hf) (.of_not_mem hw.1) (.of_not_mem hw.2) hk

theorem group (h : Balanced s.toList) : Legible (group s) := by
  apply of_whole (balanced_group h) _ _ (group_not_keyword s)
  · rw [group_toList]
    exact .group (by decide) h
  · rw [group_toList]
    exact .group (by decide) h

theorem call {name : String} (hf : Flat name.toList) (hw : Word name) (h : Balanced s.toList) :
    Legible (name ++ Text.group s) := by
  have hg := group h
  apply of_whole (balanced_append (.flat hf) hg.balanced)
  · rw [String.toList_append, group_toList]
    exact .append (.flat hf) (.of_not_mem hw.1) (.group (by decide) h)
  · rw [String.toList_append]
    exact .append (.flat hf) (.of_not_mem hw.2) hg.listed
  · intro hk
    apply (getLast_of_keyword _ hk).1
    rw [String.toList_append, group_toList, ← List.cons_append, ← List.append_assoc,
      List.getLast?_concat]

theorem identifier (name : String) : Legible (quoteIdentifier name) := by
  apply of_whole (.identifier name) (.identifier (by decide) name) (.identifier (by decide) name)
  intro hk
  apply (getLast_of_keyword _ hk).2.2
  rw [quoteIdentifier, String.toList_ofList, List.getLast?_concat]

theorem qualified (source name : String) :
    Legible (quoteIdentifier source ++ "." ++ quoteIdentifier name) := by
  have hdot : Balanced ".".toList := by decide
  have hs : Balanced (quoteIdentifier source ++ ".").toList :=
    balanced_append (.identifier source) hdot
  have hw : ∀ separator : Char, separator ≠ '"' → separator ∉ ".".toList →
      Whole separator (quoteIdentifier source ++ "." ++ quoteIdentifier name).toList := by
    intro separator hq hsep
    rw [String.toList_append]
    refine .append hs ?_ (.identifier hq name)
    rw [String.toList_append]
    exact .append (.identifier source) (.identifier hq source) (.of_not_mem hsep)
  apply of_whole (balanced_append hs (.identifier name)) (hw ' ' (by decide) (by decide))
    (hw ',' (by decide) (by decide))
  intro hk
  apply (getLast_of_keyword _ hk).2.2
  rw [String.toList_append, List.getLast?_append, quoteIdentifier, String.toList_ofList,
    List.getLast?_concat]
  rfl

theorem head_of_keyword : ∀ w ∈ keywords, w.toList.head? ≠ some '+' ∧
    w.toList.head? ≠ some '-' ∧ w.toList.head? ≠ some '~' := by
  decide

theorem signed {op : String} (hop : ∀ c ∈ op.toList, c ∈ ['+', '-', '~']) (h : Legible s) :
    Legible (op ++ s) := by
  have hsign : ∀ c ∈ ['+', '-', '~'], c ≠ '"' ∧ c ≠ '(' ∧ c ≠ ')' ∧ c ≠ ' ' ∧ c ≠ ',' := by
    simp
  have hf : Flat op.toList := fun c hc =>
    ⟨(hsign c (hop c hc)).1, (hsign c (hop c hc)).2.1, (hsign c (hop c hc)).2.2.1⟩
  have hspace : Whole ' ' op.toList := .of_not_mem fun hc => (hsign ' ' (hop ' ' hc)).2.2.2.1 rfl
  have hcomma : Whole ',' op.toList := .of_not_mem fun hc => (hsign ',' (hop ',' hc)).2.2.2.2 rfl
  cases hl : op.toList with
  | nil =>
    rw [String.toList_eq_nil_iff] at hl
    rwa [hl, String.empty_append]
  | cons sign rest =>
    refine ⟨balanced_append (.flat hf) h.balanced, ?_, ?_⟩
    · intro w hw hk
      obtain ⟨cs, hcs, rfl⟩ := List.mem_map.mp hw
      rw [String.toList_append, cut_append (.flat hf), hspace] at hcs
      rcases mem_prepend hcs with hcs | ⟨u, rfl⟩
      · exact h.quiet _ (List.mem_map_of_mem hcs) hk
      · obtain ⟨hplus, hminus, htilde⟩ := head_of_keyword _ hk
        have hs : sign = '+' ∨ sign = '-' ∨ sign = '~' := by
          simpa using hop sign (by simp [hl])
        rw [String.toList_ofList, hl, List.cons_append, List.head?_cons] at hplus hminus htilde
        rcases hs with rfl | rfl | rfl
        · exact hplus rfl
        · exact hminus rfl
        · exact htilde rfl
    · rw [String.toList_append]
      exact .append (.flat hf) hcomma h.listed

theorem collate_paren {cs ds : List Char} (hd : Balanced ds)
    (h : Legible (String.ofList (cs ++ [')']))) :
    Legible (String.ofList (cs ++ (ds ++ [')']))) := by
  obtain ⟨hb, hquiet, hlisted⟩ := h
  rw [words, String.toList_ofList] at hquiet
  rw [String.toList_ofList] at hb hlisted
  have hin := hb.of_paren
  have hcut : ∀ (separator : Char) {es : List Char}, Balanced es →
      cut separator (cs ++ (es ++ [')'])) = glue (cut separator cs) [es ++ [')']] := by
    intro separator es he
    rw [cut, cutFrom_append separator hin, cutFrom_closing he]
    rfl
  refine ⟨?_, ?_, ?_⟩
  · rw [String.toList_ofList, Balanced, Place.after_append_of hin,
      Place.after_append_of (Place.after_deeper hd)]
    rfl
  · intro w hw hk
    rw [words, String.toList_ofList, hcut ' ' hd] at hw
    obtain ⟨v, hv, rfl⟩ := List.mem_map.mp hw
    rcases mem_glue_singleton [')'] hv with hv | ⟨u, rfl⟩
    · have hold : cut ' ' (cs ++ [')']) = glue (cut ' ' cs) [[')']] := @hcut ' ' [] rfl
      exact hquiet _ (List.mem_map_of_mem (hold ▸ hv)) hk
    · apply (getLast_of_keyword _ hk).1
      rw [String.toList_ofList, ← List.append_assoc, List.getLast?_concat]
  · rw [String.toList_ofList, Whole, hcut ',' hd, hlisted.left hin]
    rfl

theorem collate {c : String} (hf : Flat c.toList) (hw : Word c) (hk : c ∉ keywords)
    (h : Legible s) : Legible (insertCollation s c) := by
  have hword : Flat " COLLATE ".toList := by decide
  unfold insertCollation
  by_cases hl : s.toList.getLast? = some ')'
  · obtain ⟨cs, hcs⟩ : ∃ cs, s.toList = cs ++ [')'] := List.getLast?_eq_some_iff.mp hl
    have hs : String.ofList (cs ++ [')']) = s := by rw [← hcs, String.ofList_toList]
    have hd : Balanced (" COLLATE ".toList ++ c.toList) := (Balanced.flat hword).append (.flat hf)
    have hnew : String.ofList cs ++ " COLLATE " ++ c ++ ")" =
        String.ofList (cs ++ ((" COLLATE ".toList ++ c.toList) ++ [')'])) := by
      apply String.toList_injective
      simp
    rw [if_pos hl, hcs, List.dropLast_concat, hnew]
    exact collate_paren hd (hs ▸ h)
  · have hnew : s ++ " COLLATE " ++ c = s ++ " " ++ "COLLATE" ++ " " ++ c := by
      have hc : " COLLATE " = " " ++ "COLLATE" ++ " " := rfl
      rw [hc]
      simp only [String.append_assoc]
    rw [if_neg hl]
    refine ⟨balanced_append (balanced_append h.balanced (.flat hword)) (.flat hf), ?_, ?_⟩
    · rw [hnew, words_between h.balanced (by decide), words_of_whole (.of_not_mem hw.1)]
      intro w hmem
      rcases List.mem_append.mp hmem with hmem | hmem
      · exact h.quiet w hmem
      · rcases List.mem_cons.mp hmem with rfl | hmem
        · decide
        · rwa [List.mem_singleton.mp hmem]
    · rw [String.toList_append, String.toList_append]
      have hcol : Whole ',' " COLLATE ".toList := .of_not_mem (by decide)
      exact .append (h.balanced.append (.flat hword)) (.append h.balanced h.listed hcol)
        (.of_not_mem hw.2)

end Legible

end RelQuery.Text
