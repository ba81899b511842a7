import Mathlib.Algebra.GroupWithZero.Nat
import RelQuery.Proofs.Condition.Basic
import RelQuery.Proofs.Text.Placeholders

/-!
# Reading conditions

The text of a condition is read back to its form: the first keyword among the words inside a pair
of parentheses says which condition it is, and the words before and after it are the operands. The
arguments are handed out by counting the placeholders of each operand.
-/

set_option autoImplicit false

namespace RelQuery

namespace Form

open Text

def readOperand (ws : List String) : Fragment :=
  ⟨" ".intercalate ws, []⟩

def readMembers (p : Polarity) (x : Fragment) (sql : String) : Option Form :=
  (ungroup? sql).map fun inner =>
    if (words inner).head? = some "SELECT" then .inQuery p x ⟨inner, []⟩
    else .inList p x ((items inner).map (⟨·, []⟩))

def readExistence (p : Polarity) (before : List String) (sql : String) : Option Form :=
  if before = [] then (ungroup? sql).map fun q => .existsIn p ⟨q, []⟩ else none

/-- The form that is told by a keyword and the words after it, after the words `before`. -/
def readWords (read : String → Option Form) (before : List String) : List String → Option Form
  | "=" :: ws => some (.compare .equal (readOperand before) (readOperand ws))
  | "<>" :: ws => some (.compare .notEqual (readOperand before) (readOperand ws))
  | "IS" :: "NOT" :: ws => some (.compare .isNot (readOperand before) (readOperand ws))
  | "IS" :: ws => some (.compare .is (readOperand before) (readOperand ws))
  | "<" :: ws => some (.test .less (readOperand before) (readOperand ws))
  | "<=" :: ws => some (.test .lessEqual (readOperand before) (readOperand ws))
  | ">" :: ws => some (.test .greater (readOperand before) (readOperand ws))
  | ">=" :: ws => some (.test .greaterEqual (readOperand before) (readOperand ws))
  | "LIKE" :: ws => some (.test .like (readOperand before) (readOperand ws))
  | "BETWEEN" :: ws =>
    match fromKeyword ws with
    | "AND" :: high =>
      some (.between (readOperand before) (readOperand (beforeKeyword ws)) (readOperand high))
    | _ => none
  | ["IN", sql] => readMembers .plain (readOperand before) sql
  | ["AND", right] =>
    (read (" ".intercalate before)).bind fun left => (read right).map (.junction .and left)
  | ["OR", right] =>
    (read (" ".intercalate before)).bind fun left => (read right).map (.junction .or left)
  | ["EXISTS", sql] => readExistence .plain before sql
  | ["NOT", word, sql] =>
    if word = "IN" then readMembers .negated (readOperand before) sql
    else if word = "EXISTS" then readExistence .negated before sql
    else none
  | ["NOT", sql] => if before = [] then (read sql).map .negation else none
  | _ => none

/-- The form that a text spells out, with at most `n` parentheses inside one another. -/
def readWithin : Nat → String → Option Form
  | 0, _ => none
  | n + 1, sql =>
    if sql = "0" then some (.constant false)
    else if sql = "1" then some (.constant true)
    else
      (ungroup? sql).bind fun inner =>
        readWords (readWithin n) (beforeKeyword (words inner)) (fromKeyword (words inner))

end Form

namespace Fragment

def holes (x : Fragment) : Nat :=
  Text.placeholders x.text

def Aligned (x : Fragment) : Prop :=
  x.holes = x.arguments.length

def bare (x : Fragment) : Fragment :=
  ⟨x.text, []⟩

def fill (x : Fragment) (vs : List Value) : Fragment :=
  ⟨x.text, vs.take x.holes⟩

def fillAll : List Fragment → List Value → List Fragment
  | [], _ => []
  | x :: xs, vs => x.fill vs :: fillAll xs (vs.drop x.holes)

variable {x : Fragment}

theorem fill_bare (h : x.Aligned) (vs : List Value) : x.bare.fill (x.arguments ++ vs) = x := by
  have hh : x.bare.holes = x.arguments.length := h
  rw [fill, hh, List.take_left]
  rfl

theorem drop_holes (h : x.Aligned) (vs : List Value) :
    (x.arguments ++ vs).drop x.bare.holes = vs := by
  have hh : x.bare.holes = x.arguments.length := h
  rw [hh, List.drop_left]

theorem fillAll_bare {xs : List Fragment} (h : ∀ x ∈ xs, x.Aligned) (vs : List Value) :
    fillAll (xs.map bare) (xs.flatMap arguments ++ vs) = xs := by
  induction xs with
  | nil => rfl
  | cons x xs ih =>
    have hx := h x List.mem_cons_self
    rw [List.map_cons, List.flatMap_cons, List.append_assoc, fillAll, fill_bare hx, drop_holes hx,
      ih fun y hy => h y (List.mem_cons_of_mem x hy)]

end Fragment

namespace Form

open Text

def holes (t : Form) : Nat :=
  (t.fragments.map Fragment.holes).sum

def bare : Form → Form
  | .constant b => .constant b
  | .negation t => .negation t.bare
  | .junction j left right => .junction j left.bare right.bare
  | .compare c left right => .compare c left.bare right.bare
  | .test t left right => .test t left.bare right.bare
  | .between x low high => .between x.bare low.bare high.bare
  | .inList p x candidates => .inList p x.bare (candidates.map Fragment.bare)
  | .inQuery p x q => .inQuery p x.bare q.bare
  | .existsIn p q => .existsIn p q.bare

def fill : Form → List Value → Form
  | .constant b, _ => .constant b
  | .negation t, vs => .negation (t.fill vs)
  | .junction j left right, vs => .junction j (left.fill vs) (right.fill (vs.drop left.holes))
  | .compare c left right, vs => .compare c (left.fill vs) (right.fill (vs.drop left.holes))
  | .test t left right, vs => .test t (left.fill vs) (right.fill (vs.drop left.holes))
  | .between x low high, vs =>
    .between (x.fill vs) (low.fill (vs.drop x.holes))
      (high.fill ((vs.drop x.holes).drop low.holes))
  | .inList p x candidates, vs =>
    .inList p (x.fill vs) (Fragment.fillAll candidates (vs.drop x.holes))
  | .inQuery p x q, vs => .inQuery p (x.fill vs) (q.fill (vs.drop x.holes))
  | .existsIn p q, vs => .existsIn p (q.fill vs)

/-- The form that a text with its arguments spells out. -/
def read (x : Fragment) : Option Form :=
  (readWithin (x.text.length + 1) x.text).map fun t => t.fill x.arguments

theorem fragments_bare (t : Form) : t.bare.fragments = t.fragments.map Fragment.bare := by
  induction t with
  | negation t ih => exact ih
  | junction j left right ihl ihr => simp [bare, fragments, ihl, ihr]
  | _ => simp [bare, fragments]

theorem holes_bare {t : Form} (h : ∀ x ∈ t.fragments, x.Aligned) :
    t.bare.holes = t.arguments.length := by
  rw [holes, fragments_bare, arguments, List.length_flatMap, List.map_map]
  exact congrArg List.sum (List.map_congr_left h)

theorem fill_bare {t : Form} (h : ∀ x ∈ t.fragments, x.Aligned) (vs : List Value) :
    t.bare.fill (t.arguments ++ vs) = t := by
  induction t generalizing vs with
  | constant b => rfl
  | negation t ih => exact congrArg negation (ih h vs)
  | junction j left right ihl ihr =>
    obtain ⟨hl, hr⟩ := List.forall_mem_append.mp h
    have ha : (junction j left right).arguments = left.arguments ++ right.arguments :=
      List.flatMap_append
    rw [ha, List.append_assoc, bare, fill, ihl hl, holes_bare hl, List.drop_left, ihr hr]
  | inList p x candidates =>
    obtain ⟨hx, hc⟩ := List.forall_mem_cons.mp h
    have hfill := Fragment.fillAll_bare hc vs
    simp [bare, fill, arguments, fragments, Fragment.fill_bare hx, Fragment.drop_holes hx, hfill]
  | existsIn p q =>
    have hq : q.Aligned := h q List.mem_cons_self
    simp [bare, fill, arguments, fragments, Fragment.fill_bare hq]
  | _ =>
    simp [fragments] at h
    simp [bare, fill, arguments, fragments, Fragment.fill_bare, Fragment.drop_holes, h]

def Legible : Form → Prop
  | .constant _ => True
  | .negation t => t.Legible
  | .junction _ left right => left.Legible ∧ right.Legible
  | .compare _ left right => Text.Legible left.text ∧ Text.Legible right.text
  | .test _ left right => Text.Legible left.text ∧ Text.Legible right.text
  | .between x low high => Text.Legible x.text ∧ Text.Legible low.text ∧ Text.Legible high.text
  | .inList _ x candidates =>
    Text.Legible x.text ∧ candidates ≠ [] ∧ ∀ y ∈ candidates, Text.Legible y.text
  | .inQuery _ x q => Text.Legible x.text ∧ Selecting q.text
  | .existsIn _ q => Selecting q.text

structure Closed (s : String) : Prop where
  balanced : Balanced s.toList
  single : words s = [s]
  quiet : s ∉ keywords

theorem closed_group {s : String} (h : Balanced s.toList) : Closed (group s) :=
  ⟨balanced_group h, words_group h, group_not_keyword s⟩

theorem operator_comparison (c : Comparison) : Operator c.sql := by
  cases c <;> exact ⟨by decide, _, _, rfl, by decide⟩

theorem operator_test (t : BinaryTest) : Operator t.op.sql := by
  cases t <;> exact ⟨by decide, _, _, rfl, by decide⟩

theorem operator_junction (j : Junction) : Operator j.op.sql := by
  cases j <;> exact ⟨by decide, _, _, rfl, by decide⟩

theorem operator_membership (p : Polarity) : Operator p.membership := by
  cases p <;> exact ⟨by decide, _, _, rfl, by decide⟩

theorem operator_existence (p : Polarity) : Operator p.existence := by
  cases p <;> exact ⟨by decide, _, _, rfl, by decide⟩

theorem balanced_candidates {candidates : List Fragment}
    (h : ∀ y ∈ candidates, Text.Legible y.text) :
    Balanced (commaSeparated (candidates.map Fragment.text)).toList := by
  apply balanced_commaSeparated
  intro s hs
  obtain ⟨y, hy, rfl⟩ := List.mem_map.mp hs
  exact (h y hy).balanced

theorem closed {t : Form} (h : t.Legible) : Closed t.text := by
  induction t with
  | constant b => cases b <;> exact ⟨by decide, by decide, by decide⟩
  | negation t ih => exact closed_group (balanced_append (by decide) (ih h).balanced)
  | junction j left right ihl ihr =>
    exact closed_group (balanced_between (ihl h.1).balanced (operator_junction j).balanced
      (ihr h.2).balanced)
  | compare c left right =>
    exact closed_group (balanced_between h.1.balanced (operator_comparison c).balanced h.2.balanced)
  | test t left right =>
    exact closed_group (balanced_between h.1.balanced (operator_test t).balanced h.2.balanced)
  | between x low high =>
    exact closed_group (balanced_range h.1.balanced h.2.1.balanced h.2.2.balanced)
  | inList p x candidates =>
    exact closed_group (balanced_between h.1.balanced (operator_membership p).balanced
      (balanced_group (balanced_candidates h.2.2)))
  | inQuery p x q =>
    exact closed_group (balanced_between h.1.balanced (operator_membership p).balanced
      (balanced_group h.2.balanced))
  | existsIn p q =>
    exact closed_group (balanced_append
      (balanced_append (operator_existence p).balanced (t := " ") (by decide))
      (balanced_group h.balanced))

theorem readOperand_words (s : String) : readOperand (words s) = ⟨s, []⟩ := by
  rw [readOperand, intercalate_words]

theorem readWithin_group (n : Nat) {s : String} (h : Balanced s.toList) :
    readWithin (n + 1) (group s) =
      readWords (readWithin n) (beforeKeyword (words s)) (fromKeyword (words s)) := by
  have hne : ∀ digit : String, digit.toList.head? ≠ some '(' → group s ≠ digit := by
    rintro _ hd rfl
    rw [group_toList] at hd
    exact hd rfl
  rw [readWithin, if_neg (hne _ (by decide)), if_neg (hne _ (by decide)), ungroup?_group h]
  rfl

theorem readWithin_keyword {n : Nat} (hn : 0 < n) {s k : String} {before rest : List String}
    (h : Balanced s.toList) (hw : words s = before ++ k :: rest)
    (hb : ∀ w ∈ before, w ∉ keywords) (hk : k ∈ keywords) :
    readWithin n (group s) = readWords (readWithin (n - 1)) before (k :: rest) := by
  obtain ⟨n, rfl⟩ := Nat.exists_eq_add_one_of_ne_zero (Nat.ne_of_gt hn)
  rw [readWithin_group n h, hw, beforeKeyword_append hb hk, fromKeyword_append hb hk,
    Nat.add_sub_cancel]

theorem readMembers_list (p : Polarity) (x : Fragment) {candidates : List Fragment}
    (hne : candidates ≠ []) (h : ∀ y ∈ candidates, Text.Legible y.text) :
    readMembers p x (group (commaSeparated (candidates.map Fragment.text))) =
      some (.inList p x (candidates.map Fragment.bare)) := by
  have hs : ∀ s ∈ candidates.map Fragment.text, Text.Legible s := by
    intro s hs
    obtain ⟨y, hy, rfl⟩ := List.mem_map.mp hs
    exact h y hy
  rw [readMembers, ungroup?_group (balanced_candidates h), Option.map_some,
    if_neg (head_commaSeparated hs), items_commaSeparated (by simpa using hne) hs, List.map_map]
  rfl

theorem readMembers_query (p : Polarity) (x : Fragment) {q : Fragment} (h : Selecting q.text) :
    readMembers p x (group q.text) = some (.inQuery p x q.bare) := by
  rw [readMembers, ungroup?_group h.balanced, Option.map_some, if_pos h.first]
  rfl

theorem length_group (s : String) : (group s).length = s.length + 2 := by
  rw [← String.length_toList, group_toList, List.length_cons, List.length_append,
    String.length_toList]
  rfl

theorem readWithin_relation {n : Nat} (hn : 0 < n) {x op y : String} (hx : Text.Legible x)
    (ho : Operator op) (hy : Balanced y.toList) :
    readWithin n (group (x ++ " " ++ op ++ " " ++ y)) =
      readWords (readWithin (n - 1)) (words x) (words op ++ words y) := by
  obtain ⟨k, ks, hop, hk⟩ := ho.first
  have hw : words (x ++ " " ++ op ++ " " ++ y) = words x ++ k :: (ks ++ words y) := by
    rw [words_between hx.balanced ho.balanced, hop, List.cons_append]
  rw [readWithin_keyword hn (balanced_between hx.balanced ho.balanced hy) hw hx.quiet hk, hop,
    List.cons_append]

/-- After IS a second operand is told from NOT, which is no word of an operand. -/
theorem readWords_comparison (read : String → Option Form) (c : Comparison) (left : String)
    {right : String} (h : Text.Legible right) :
    readWords read (words left) (words c.sql ++ words right) =
      some (.compare c ⟨left, []⟩ ⟨right, []⟩) := by
  rw [← readOperand_words left, ← readOperand_words right]
  obtain ⟨w, ws, hw⟩ := List.exists_cons_of_ne_nil (words_ne_nil right)
  have hnot : w ≠ "NOT" := by
    rintro rfl
    exact h.quiet "NOT" (by simp [hw]) (by decide)
  cases c with
  | is =>
    show readWords read (words left) ("IS" :: words right) = _
    rw [hw, readWords]
    exact fun _ hws => hnot (List.cons.inj hws).1
  | _ => rfl

theorem readWords_test (read : String → Option Form) (t : BinaryTest) (left right : String) :
    readWords read (words left) (words t.op.sql ++ words right) =
      some (.test t ⟨left, []⟩ ⟨right, []⟩) := by
  rw [← readOperand_words left, ← readOperand_words right]
  cases t <;> rfl

theorem readWords_between (read : String → Option Form) {x low high : String}
    (hl : Text.Legible low) :
    readWords read (words x) (words "BETWEEN" ++ words (low ++ " " ++ "AND" ++ " " ++ high)) =
      some (.between ⟨x, []⟩ ⟨low, []⟩ ⟨high, []⟩) := by
  have hand : "AND" ∈ keywords := by decide
  have hw : words (low ++ " " ++ "AND" ++ " " ++ high) = words low ++ "AND" :: words high :=
    words_between hl.balanced (by decide) high
  rw [← readOperand_words x, ← readOperand_words low, ← readOperand_words high, hw]
  show (match fromKeyword (words low ++ "AND" :: words high) with
    | "AND" :: ws => some (Form.between _
        (readOperand (beforeKeyword (words low ++ "AND" :: words high))) (readOperand ws))
    | _ => none) = _
  rw [fromKeyword_append hl.quiet hand, beforeKeyword_append hl.quiet hand]
  rfl

theorem readWords_membership (read : String → Option Form) (p : Polarity) (x : String)
    {y : String} (h : Balanced y.toList) :
    readWords read (words x) (words p.membership ++ words (group y)) =
      readMembers p ⟨x, []⟩ (group y) := by
  rw [← readOperand_words x, words_group h]
  cases p <;> rfl

theorem readWords_junction (read : String → Option Form) (j : Junction) (left right : String) :
    readWords read [left] [j.op.sql, right] =
      (read left).bind fun l => (read right).map (.junction j l) := by
  have hl : " ".intercalate [left] = left := String.intercalate_singleton
  cases j
  · show (read (" ".intercalate [left])).bind _ = _
    rw [hl]
  · show (read (" ".intercalate [left])).bind _ = _
    rw [hl]

theorem readWords_existence (read : String → Option Form) (p : Polarity) {q : String}
    (h : Balanced q.toList) :
    readWords read [] (words p.existence ++ words (group q)) = some (.existsIn p ⟨q, []⟩) := by
  have he : readExistence p [] (group q) = some (.existsIn p ⟨q, []⟩) := by
    rw [readExistence, ungroup?_group h]
    rfl
  rw [words_group h, ← he]
  cases p <;> rfl

theorem text_between (x low high : Fragment) : (between x low high).text =
    group (x.text ++ " " ++ "BETWEEN" ++ " " ++
      (low.text ++ " " ++ "AND" ++ " " ++ high.text)) := by
  have hb : " BETWEEN " = " " ++ "BETWEEN" ++ " " := rfl
  have ha : " AND " = " " ++ "AND" ++ " " := rfl
  rw [text, hb, ha]
  simp only [String.append_assoc]

/-- A legible form is read back from its text, up to the arguments. -/
theorem readWithin_text {t : Form} (h : t.Legible) {n : Nat} (hn : t.text.length < n) :
    readWithin n t.text = some t.bare := by
  induction t generalizing n with
  | constant b =>
    obtain ⟨n, rfl⟩ := Nat.exists_eq_add_one_of_ne_zero (Nat.ne_zero_of_lt hn)
    cases b <;> rfl
  | negation t ih =>
    have ht := closed (t := t) h
    have hw : words ("NOT " ++ t.text) = [] ++ "NOT" :: [t.text] := by
      have hnot := words_append (s := "NOT") (by decide) t.text
      rwa [show words t.text = [t.text] from ht.single] at hnot
    have hlen : t.text.length < n - 1 := by
      rw [text, length_group, String.length_append] at hn
      omega
    rw [text, readWithin_keyword (Nat.zero_lt_of_lt hn)
      (balanced_append (by decide) ht.balanced) hw (fun _ hw => nomatch hw) (by decide)]
    show (readWithin (n - 1) t.text).map negation = _
    rw [ih h hlen]
    rfl
  | junction j left right ihl ihr =>
    have hl := closed h.1
    have hr := closed h.2
    have hop : words j.op.sql = [j.op.sql] ∧ j.op.sql ∈ keywords := by
      cases j <;> exact ⟨rfl, by decide⟩
    have hw : words (left.text ++ " " ++ j.op.sql ++ " " ++ right.text) =
        [left.text] ++ j.op.sql :: [right.text] := by
      rw [words_between hl.balanced (operator_junction j).balanced, hl.single, hr.single, hop.1]
      rfl
    have hlen : left.text.length < n - 1 ∧ right.text.length < n - 1 := by
      simp only [text, length_group, String.length_append] at hn
      omega
    rw [text, readWithin_keyword (Nat.zero_lt_of_lt hn)
      (balanced_between hl.balanced (operator_junction j).balanced hr.balanced) hw
      (by simpa using hl.quiet) hop.2, readWords_junction, ihl h.1 hlen.1, ihr h.2 hlen.2]
    rfl
  | compare c left right =>
    rw [text, readWithin_relation (Nat.zero_lt_of_lt hn) h.1 (operator_comparison c) h.2.balanced,
      readWords_comparison _ c _ h.2]
    rfl
  | test t left right =>
    rw [text, readWithin_relation (Nat.zero_lt_of_lt hn) h.1 (operator_test t) h.2.balanced,
      readWords_test]
    rfl
  | between x low high =>
    have hbetween : Operator "BETWEEN" := ⟨by decide, _, _, rfl, by decide⟩
    rw [text_between, readWithin_relation (Nat.zero_lt_of_lt hn) h.1 hbetween
      (balanced_between h.2.1.balanced (by decide) h.2.2.balanced), readWords_between _ h.2.1]
    rfl
  | inList p x candidates =>
    have hc := balanced_candidates h.2.2
    rw [text, readWithin_relation (Nat.zero_lt_of_lt hn) h.1 (operator_membership p)
      (balanced_group hc), readWords_membership _ p _ hc, readMembers_list p _ h.2.1 h.2.2]
    rfl
  | inQuery p x q =>
    rw [text, readWithin_relation (Nat.zero_lt_of_lt hn) h.1 (operator_membership p)
      (balanced_group h.2.balanced), readWords_membership _ p _ h.2.balanced,
      readMembers_query p _ h.2]
    rfl
  | existsIn p q =>
    have hp := operator_existence p
    obtain ⟨k, ks, hk, hmem⟩ := hp.first
    have hw : words (p.existence ++ " " ++ group q.text) =
        [] ++ k :: (ks ++ words (group q.text)) := by
      rw [words_append hp.balanced, hk]
      rfl
    have hb : Balanced (p.existence ++ " " ++ group q.text).toList :=
      balanced_append (balanced_append hp.balanced (by decide)) (balanced_group h.balanced)
    rw [text, readWithin_keyword (Nat.zero_lt_of_lt hn) hb hw (fun _ hw => nomatch hw) hmem,
      ← List.cons_append, ← hk, readWords_existence _ p h.balanced]
    rfl

theorem read_fragment {t : Form} (h : t.Legible) (ha : ∀ x ∈ t.fragments, x.Aligned) :
    read t.fragment = some t := by
  have hfill := fill_bare ha []
  rw [List.append_nil] at hfill
  show (readWithin (t.text.length + 1) t.text).map (fun t' => t'.fill t.arguments) = _
  rw [readWithin_text h (Nat.lt_succ_self _), Option.map_some, hfill]

end Form

end RelQuery
