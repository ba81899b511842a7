import RelQuery.Proofs.Text.Placeholders
import RelQuery.Proofs.Text.Words
import RelQuery.Text.Case

/-!
# Comments in SQL text

Outside of identifiers two dashes open a comment, and so do a slash and a star. Two characters that
open a comment may come from two texts. A text is settled when it ends outside of identifiers and
neither in a dash nor in a slash: a comment is opened in settled texts one after another exactly if
one is opened in one of them alone.
-/

set_option autoImplicit false

namespace RelQuery.Text

def opensComment (c d : Char) : Bool :=
  (c == '-' && d == '-') || (c == '/' && d == '*')

def commentFrom : Bool → List Char → Bool
  | _, [] => false
  | inside, c :: cs =>
    (!inside && cs.head?.any (opensComment c)) ||
      commentFrom (if c = '"' then !inside else inside) cs

/-- Whether a text opens a comment outside of its double-quoted identifiers. -/
def hasComment (sql : String) : Bool :=
  commentFrom false sql.toList

def Dashless (s : String) : Prop :=
  ∀ c ∈ s.toList, c ≠ '-' ∧ c ≠ '/'

instance (s : String) : Decidable (Dashless s) :=
  decidable_of_iff (s.toList.all (fun c => c != '-' && c != '/') = true) (by simp [Dashless])

theorem opensComment_of_first {c : Char} (hc : c ≠ '-' ∧ c ≠ '/') (d : Char) :
    opensComment c d = false := by
  simp [opensComment, hc.1, hc.2]

theorem opensComment_of_second (c : Char) {d : Char} (hd : d ≠ '-' ∧ d ≠ '*') :
    opensComment c d = false := by
  simp [opensComment, hd.1, hd.2]

/-- Two texts are scanned apart when no comment is opened where they meet. -/
theorem commentFrom_append (inside : Bool) (cs ds : List Char)
    (hmeet : ∀ c d, cs.getLast? = some c → ds.head? = some d → opensComment c d = false) :
    commentFrom inside (cs ++ ds) =
      (commentFrom inside cs || commentFrom (endsInside inside cs) ds) := by
  induction cs generalizing inside with
  | nil => rfl
  | cons c cs ih =>
    rw [List.cons_append, commentFrom, commentFrom, endsInside, Bool.or_assoc]
    cases cs with
    | nil =>
      have hhead : ds.head?.any (opensComment c) = false := by
        cases ds with
        | nil => rfl
        | cons d ds => exact hmeet c d rfl rfl
      rw [List.nil_append, hhead, List.head?_nil, Option.any_none, commentFrom, endsInside]
      simp
    | cons d cs =>
      rw [ih _ fun e f he => hmeet e f (by rwa [List.getLast?_cons_cons])]
      rfl

theorem commentFrom_of_dashless {cs : List Char} (h : ∀ c ∈ cs, c ≠ '-' ∧ c ≠ '/')
    (inside : Bool) : commentFrom inside cs = false := by
  induction cs generalizing inside with
  | nil => rfl
  | cons c cs ih =>
    have hhead : cs.head?.any (opensComment c) = false := by
      cases cs with
      | nil => rfl
      | cons d cs => exact opensComment_of_first (h c List.mem_cons_self) d
    rw [commentFrom, hhead, Bool.and_false, Bool.false_or]
    exact ih (fun d hd => h d (List.mem_cons_of_mem c hd)) _

theorem commentFrom_doubleQuotes (cs : List Char) :
    commentFrom true (doubleQuotes cs ++ ['"']) = false := by
  induction cs with
  | nil => rfl
  | cons c cs ih =>
    rw [doubleQuotes]
    by_cases h : c = '"'
    · rw [if_pos h, List.cons_append, List.cons_append, commentFrom, commentFrom]
      simpa [opensComment] using ih
    · rw [if_neg h, List.cons_append, commentFrom, if_neg h]
      exact ih

theorem hasComment_append {s t : String} (hs : endsInside false s.toList = false)
    (hmeet : ∀ c d, s.toList.getLast? = some c → t.toList.head? = some d →
      opensComment c d = false) :
    hasComment (s ++ t) = (hasComment s || hasComment t) := by
  rw [hasComment, String.toList_append, commentFrom_append _ _ _ hmeet, hs]
  rfl

/-- A text that ends outside of identifiers and in no character that opens a comment with the one
after it, and whether a comment is opened in it. -/
structure Settled (s : String) (comment : Bool) : Prop where
  closed : endsInside false s.toList = false
  scanned : hasComment s = comment
  last : ∀ c, s.toList.getLast? = some c → c ≠ '-' ∧ c ≠ '/'

theorem collation_head (c : String) :
    (" COLLATE " ++ c ++ ")").toList = ' ' :: ("COLLATE " ++ c ++ ")").toList := by
  simp

def Leads (s : String) (minus : Bool) : Prop :=
  ∃ (c : Char) (cs : List Char), s.toList = c :: cs ∧ (c == '-') = minus

namespace Leads

variable {s : String} {minus : Bool}

theorem append (h : Leads s minus) (t : String) : Leads (s ++ t) minus := by
  obtain ⟨c, cs, hs, hc⟩ := h
  exact ⟨c, cs ++ t.toList, by rw [String.toList_append, hs, List.cons_append], hc⟩

theorem group (s : String) : Leads (group s) false :=
  ⟨'(', s.toList ++ [')'], group_toList s, rfl⟩

theorem identifier (name : String) : Leads (quoteIdentifier name) false :=
  ⟨'"', doubleQuotes name.toList ++ ['"'], by rw [quoteIdentifier, String.toList_ofList]; rfl, rfl⟩

theorem after_dashless {t : String} (hs : Dashless s) (ht : Leads t false) :
    Leads (s ++ t) false := by
  cases hchars : s.toList with
  | nil =>
    obtain ⟨d, ds, htext, hd⟩ := ht
    exact ⟨d, ds, by rw [String.toList_append, hchars, htext]; rfl, hd⟩
  | cons c cs =>
    refine ⟨c, cs ++ t.toList, by rw [String.toList_append, hchars]; rfl, ?_⟩
    exact beq_false_of_ne (hs c (by rw [hchars]; exact List.mem_cons_self)).1

theorem collate (h : Leads s minus) (c : String) : Leads (insertCollation s c) minus := by
  rcases insertCollation_cases s c with ⟨t, rfl, hcol⟩ | hcol
  · rw [hcol]
    obtain ⟨d, cs, hs, rfl⟩ := h
    rw [String.toList_append] at hs
    cases ht : t.toList with
    | nil =>
      rw [ht] at hs
      cases hs
      exact ⟨' ', _, by rw [String.toList_append, ht, collation_head]; rfl, rfl⟩
    | cons e ds =>
      rw [ht] at hs
      cases hs
      exact ⟨d, _, by rw [String.toList_append, ht]; rfl, rfl⟩
  · rw [hcol]
    exact h.append _

end Leads

namespace Settled

variable {s t : String} {a b : Bool}

theorem of_dashless (hclosed : endsInside false s.toList = false) (h : Dashless s) :
    Settled s false :=
  ⟨hclosed, commentFrom_of_dashless h false, fun c hc => h c (List.mem_of_getLast? hc)⟩

theorem append (hs : Settled s a) (ht : Settled t b) : Settled (s ++ t) (a || b) := by
  refine ⟨?_, ?_, ?_⟩
  · rw [String.toList_append, endsInside_append, hs.closed, ht.closed]
  · rw [hasComment_append hs.closed fun c d hc _ => opensComment_of_first (hs.last c hc) d,
      hs.scanned, ht.scanned]
  · intro c hc
    rw [String.toList_append, List.getLast?_append] at hc
    rcases Option.or_eq_some_iff.mp hc with hc | ⟨-, hc⟩
    · exact ht.last c hc
    · exact hs.last c hc

theorem identifier (name : String) : Settled (quoteIdentifier name) false := by
  have hchars : (quoteIdentifier name).toList = '"' :: (doubleQuotes name.toList ++ ['"']) := by
    rw [quoteIdentifier, String.toList_ofList]
    rfl
  refine ⟨(Fills.identifier name).closed, ?_, ?_⟩
  · rw [hasComment, hchars, commentFrom]
    simpa [opensComment] using commentFrom_doubleQuotes name.toList
  · intro c hc
    rw [hchars, ← List.cons_append, List.getLast?_concat] at hc
    cases hc
    decide

theorem group (hs : Settled s b) : Settled (Text.group s) b := by
  have hopening : Settled "(" false := of_dashless (by decide) (by decide)
  have hclosing : Settled ")" false := of_dashless (by decide) (by decide)
  have h := (hopening.append hs).append hclosing
  rwa [Bool.false_or, Bool.or_false] at h

/-- A minus sign opens a comment with the one that the text after it begins with. -/
theorem minus {leads : Bool} (hs : Settled s b) (hl : Leads s leads) :
    Settled ("-" ++ s) (leads || b) := by
  obtain ⟨hclosed, hscanned, hlast⟩ := hs
  obtain ⟨c, cs, hchars, hc⟩ := hl
  have hall : ("-" ++ s).toList = '-' :: c :: cs := by rw [String.toList_append, hchars]; rfl
  rw [hchars] at hclosed hlast
  rw [hasComment, hchars] at hscanned
  refine ⟨?_, ?_, ?_⟩
  · rw [hall]
    exact hclosed
  · have hopens : opensComment '-' c = leads := by simp [opensComment, ← hc]
    rw [hasComment, hall, commentFrom, ← hopens, ← hscanned]
    rfl
  · rw [hall, List.getLast?_cons_cons]
    exact hlast

theorem collate {c : String} (hs : Settled s b) (hc : Settled c false) :
    Settled (insertCollation s c) b := by
  have hadded : Settled (" COLLATE " ++ c) false :=
    (of_dashless (by decide) (by decide) : Settled " COLLATE " false).append hc
  have hparen : Settled ")" false := of_dashless (by decide) (by decide)
  rcases insertCollation_cases s c with ⟨t, rfl, hcol⟩ | hcol
  · rw [hcol]
    have hclosed : endsInside false t.toList = false := by
      have h := hs.closed
      rwa [String.toList_append, endsInside_append] at h
    have hscanned : hasComment t = b := by
      have h := hs.scanned
      rwa [hasComment_append hclosed fun e d _ hd => ?_, hparen.scanned, Bool.or_false] at h
      cases hd
      exact opensComment_of_second e (by decide)
    refine ⟨?_, ?_, ?_⟩
    · rw [String.toList_append, endsInside_append, hclosed, (hadded.append hparen).closed]
    · rw [hasComment_append hclosed fun e d _ hd => ?_, hscanned, (hadded.append hparen).scanned,
        Bool.or_false, Bool.or_false]
      rw [collation_head] at hd
      cases hd
      exact opensComment_of_second e (by decide)
    · intro d hd
      rw [← String.append_assoc, String.toList_append, show ")".toList = [')'] from rfl,
        List.getLast?_concat] at hd
      cases hd
      decide
  · rw [hcol]
    have h := hs.append hadded
    rwa [Bool.or_false] at h

end Settled

def Tame (name : String) : Prop :=
  ∀ c ∈ name.toList, c ≠ '-' ∧ c ≠ '/' ∧ c ≠ '*'

def Closed (name : String) : Prop :=
  endsInside false name.toList = false

theorem settled_of_tame {name : String} (ht : Tame name) (hc : Closed name) : Settled name false :=
  .of_dashless hc fun c hmem => ⟨(ht c hmem).1, (ht c hmem).2.1⟩

theorem toNat_ofNat (n : Nat) : (Char.ofNat n).toNat = n ∨ (Char.ofNat n).toNat = 0 := by
  by_cases h : n.isValidChar
  · exact .inl (by rw [Char.ofNat, dif_pos h]; rfl)
  · exact .inr (by rw [Char.ofNat, dif_neg h]; rfl)

/-- What a character becomes is itself or a letter, and no letter is written below the capitals of
ASCII. -/
theorem mem_capitalOf {c d : Char} (h : d ∈ capitalOf c) :
    d = c ∨ d.toNat = 0 ∨ 64 < d.toNat := by
  have hexpansions : ∀ p ∈ capitalExpansions, ∀ n ∈ p.2, 64 < n := by decide +kernel
  have hruns : ∀ r ∈ capitalRuns, 64 < r.first + r.shift := by decide +kernel
  unfold capitalOf at h
  split at h
  · rename_i codes hcodes
    obtain ⟨n, hn, rfl⟩ := List.mem_map.mp h
    obtain ⟨before, after, hlist, -⟩ := List.lookup_eq_some_iff.mp hcodes
    have hlarge := hexpansions (c.toNat, codes) (by rw [hlist]; simp) n hn
    rcases toNat_ofNat n with heq | heq <;> omega
  · split at h
    · rename_i r hr
      obtain rfl := List.mem_singleton.mp h
      have hlarge := hruns r (List.mem_of_find?_eq_some hr)
      have hcovers := List.find?_some hr
      simp only [CapitalRun.covers, Bool.and_eq_true, decide_eq_true_eq] at hcovers
      rcases toNat_ofNat (c.toNat + r.shift).toNat with heq | heq <;> omega
    · exact .inl (List.mem_singleton.mp h)

theorem endsInside_capitals (inside : Bool) (cs : List Char) :
    endsInside inside (cs.flatMap capitalOf) = endsInside inside cs := by
  induction cs generalizing inside with
  | nil => rfl
  | cons c cs ih =>
    rw [List.flatMap_cons, endsInside_append, ih, endsInside]
    by_cases hc : c = '"'
    · subst hc
      rfl
    · have hunquoted : ∀ d ∈ capitalOf c, d ≠ '"' := by
        rintro d hd rfl
        rcases mem_capitalOf hd with h | h | h
        · exact hc h.symm
        · exact absurd h (by decide)
        · exact absurd h (by decide)
      rw [if_neg hc, endsInside_of_unquoted hunquoted]

theorem dashless_capitals {name : String} (ht : Tame name) : Dashless (capitals name) := by
  intro d hd
  rw [capitals, String.toList_ofList] at hd
  obtain ⟨c, hmem, hd⟩ := List.mem_flatMap.mp hd
  rcases mem_capitalOf hd with rfl | h | h
  · exact ⟨(ht d hmem).1, (ht d hmem).2.1⟩
  · constructor <;> (rintro rfl; exact absurd h (by decide))
  · constructor <;> (rintro rfl; exact absurd h (by decide))

theorem settled_capitals {name : String} (ht : Tame name) (hc : Closed name) :
    Settled (capitals name) false := by
  refine .of_dashless ?_ (dashless_capitals ht)
  rw [capitals, String.toList_ofList, endsInside_capitals]
  exact hc

end RelQuery.Text
