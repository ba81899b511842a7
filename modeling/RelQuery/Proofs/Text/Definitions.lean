import RelQuery.Proofs.Text.Tokens
import RelQuery.Text.Search

/-!
# Words in definitions of tables

The options of a table stand after the parenthesis that closes its column list. Two words are next
to each other among them whatever blanks and comments stand in between. A search for one spelling of
the two finds them where a single space stands there, and it finds the spelling where it is no
option: in quoted texts and comments, as part of longer words, and before the column list is closed.
-/

set_option autoImplicit false

namespace RelQuery.Text

namespace Mode

def read : Mode → List Char → List Token × Mode
  | m, [] => ([], m)
  | m, c :: cs => ((m.step c).1 ++ ((m.step c).2.read cs).1, ((m.step c).2.read cs).2)

def apart : Mode → Bool
  | .between | .dash | .slash => true
  | _ => false

end Mode

variable {m : Mode} {c : Char} {cs ds w : List Char} {ts us : List Token}

theorem scan_append (m : Mode) (cs ds : List Char) :
    scan m (cs ++ ds) = (scan (m.read cs).2 ds).map ((m.read cs).1 ++ ·) := by
  induction cs generalizing m with
  | nil =>
    rw [List.nil_append, Mode.read]
    simp
  | cons c cs ih =>
    rw [List.cons_append, scan, ih, Mode.read, Option.map_map]
    refine congrArg (fun g => Option.map g _) (funext fun us => ?_)
    exact (List.append_assoc _ _ us).symm

theorem scan_eq_some (h : scan m cs = some ts) :
    ∃ us, (m.read cs).2.finish = some us ∧ ts = (m.read cs).1 ++ us := by
  have happend := scan_append m cs []
  rw [List.append_nil, h] at happend
  obtain ⟨us, hus, hts⟩ := Option.map_eq_some_iff.mp happend.symm
  exact ⟨us, hus, hts.symm⟩

theorem eq_between_of_finish (h : m.finish = some []) : m = .between := by
  cases m with
  | between => rfl
  | word | quoted | dash | slash | lineComment | blockComment | blockStar => cases h

theorem isBlank_of_isWordChar (hc : isWordChar c = true) : isBlank c = false := by
  rw [← Bool.not_eq_true]
  intro hb
  have hcases : c = ' ' ∨ c = '\t' ∨ c = '\r' ∨ c = '\n' ∨ c = '\x0c' := by
    simpa [isBlank, Char.isWhitespace, or_assoc] using hb
  rcases hcases with rfl | rfl | rfl | rfl | rfl <;> exact absurd hc (by decide)

theorem start_of_isWordChar (hc : isWordChar c = true) : Mode.start c = ([], .word [c]) := by
  rw [Mode.start, isBlank_of_isWordChar hc, hc]
  rfl

theorem step_of_apart (hm : m.apart = true) (hc : isWordChar c = true) :
    ∃ us, m.finish = some us ∧ m.step c = (us, .word [c]) := by
  have hdash : c ≠ '-' := by
    rintro rfl
    exact absurd hc (by decide)
  have hstar : c ≠ '*' := by
    rintro rfl
    exact absurd hc (by decide)
  cases m with
  | between => exact ⟨[], rfl, start_of_isWordChar hc⟩
  | dash =>
    refine ⟨_, rfl, ?_⟩
    rw [Mode.step, if_neg hdash, Mode.startAfter, start_of_isWordChar hc]
    rfl
  | slash =>
    refine ⟨_, rfl, ?_⟩
    rw [Mode.step, if_neg hstar, Mode.startAfter, start_of_isWordChar hc]
    rfl
  | word | quoted | lineComment | blockComment | blockStar => cases hm

theorem step_word (letters : List Char) (hc : isWordChar c = true) :
    (Mode.word letters).step c = ([], .word (letters ++ [c])) := by
  rw [Mode.step, if_pos hc]

theorem step_word_end (letters : List Char) (hc : isWordChar c = false) :
    (Mode.word letters).step c = Mode.startAfter [.word letters] c := by
  rw [Mode.step, hc]
  rfl

theorem read_word (letters : List Char) (h : ∀ c ∈ w, isWordChar c = true) :
    (Mode.word letters).read w = ([], .word (letters ++ w)) := by
  induction w generalizing letters with
  | nil => rw [Mode.read, List.append_nil]
  | cons c w ih =>
    obtain ⟨hc, hw⟩ := List.forall_mem_cons.mp h
    rw [Mode.read, step_word letters hc, ih _ hw, List.append_assoc]
    rfl

theorem scan_after_word (letters : List Char) (h : ∀ c ∈ ds.head?, isWordChar c = false) :
    scan (.word letters) ds = (scan .between ds).map (.word letters :: ·) := by
  cases ds with
  | nil => rfl
  | cons d ds =>
    rw [scan, scan, step_word_end letters (h d rfl), Option.map_map]
    rfl

theorem scan_word (hm : m.apart = true) (hw : w ≠ []) (hchars : ∀ c ∈ w, isWordChar c = true)
    (hend : ∀ c ∈ ds.head?, isWordChar c = false) :
    ∃ us, m.finish = some us ∧
      scan m (w ++ ds) = (scan .between ds).map (us ++ .word w :: ·) := by
  obtain ⟨c, w, rfl⟩ := List.exists_cons_of_ne_nil hw
  obtain ⟨hc, hw⟩ := List.forall_mem_cons.mp hchars
  obtain ⟨us, hus, hstep⟩ := step_of_apart hm hc
  refine ⟨us, hus, ?_⟩
  rw [List.cons_append, scan, hstep, scan_append, read_word _ hw, scan_after_word _ hend,
    Option.map_map, Option.map_map]
  rfl

theorem start_words (c : Char) : (∀ w, .word w ∉ (Mode.start c).1) ∧
    ∀ letters, (Mode.start c).2 = .word letters →
      (Mode.start c).1 = [] ∧ letters = [c] ∧ isWordChar c = true := by
  unfold Mode.start
  split
  · simp
  split
  · rename_i hc
    refine ⟨by simp, fun letters h => ?_⟩
    cases h
    exact ⟨rfl, rfl, hc⟩
  split
  · simp
  split
  · simp
  split
  · simp
  · simp

theorem startAfter_words (d c : Char) : (∀ w, .word w ∉ (Mode.startAfter [.symbol d] c).1) ∧
    ∀ letters, (Mode.startAfter [.symbol d] c).2 = .word letters →
      (Mode.startAfter [.symbol d] c).1 = [.symbol d] ∧ letters = [c] := by
  obtain ⟨hnone, hbegins⟩ := start_words c
  refine ⟨fun w => ?_, fun letters h => ?_⟩
  · rw [Mode.startAfter, List.mem_append, not_or]
    exact ⟨by simp, hnone w⟩
  · obtain ⟨hnil, hletters, -⟩ := hbegins letters h
    exact ⟨by rw [Mode.startAfter, hnil]; rfl, hletters⟩

theorem step_outside_words (hm : ∀ letters, m ≠ .word letters) (c : Char) :
    (∀ w, .word w ∉ (m.step c).1) ∧
      ∀ letters, (m.step c).2 = .word letters →
        m.apart = true ∧ m.finish = some (m.step c).1 ∧ letters = [c] := by
  cases m with
  | between =>
    obtain ⟨hnone, hbegins⟩ := start_words c
    refine ⟨hnone, fun letters h => ?_⟩
    obtain ⟨hnil, hletters, -⟩ := hbegins letters h
    exact ⟨rfl, congrArg some hnil.symm, hletters⟩
  | word letters => exact absurd rfl (hm letters)
  | quoted closing letters =>
    rw [Mode.step]
    split
    · simp
    · simp
  | dash =>
    obtain ⟨hnone, hbegins⟩ := startAfter_words '-' c
    rw [Mode.step]
    split
    · simp
    · refine ⟨hnone, fun letters h => ?_⟩
      obtain ⟨hone, hletters⟩ := hbegins letters h
      exact ⟨rfl, congrArg some hone.symm, hletters⟩
  | slash =>
    obtain ⟨hnone, hbegins⟩ := startAfter_words '/' c
    rw [Mode.step]
    split
    · simp
    · refine ⟨hnone, fun letters h => ?_⟩
      obtain ⟨hone, hletters⟩ := hbegins letters h
      exact ⟨rfl, congrArg some hone.symm, hletters⟩
  | lineComment | blockComment =>
    refine ⟨by simp [Mode.step], fun letters h => ?_⟩
    rw [Mode.step] at h
    split at h <;> cases h
  | blockStar =>
    refine ⟨by simp [Mode.step], fun letters h => ?_⟩
    rw [Mode.step] at h
    split at h
    · cases h
    · split at h <;> cases h

theorem append_eq_append_word {xs ys l r : List Token} (hxs : ∀ w, .word w ∉ xs)
    (h : xs ++ ys = l ++ .word w :: r) : ∃ l', l = xs ++ l' ∧ ys = l' ++ .word w :: r := by
  rcases List.append_eq_append_iff.mp h with ⟨l', hl, hys⟩ | ⟨rest, hxs', hrest⟩
  · exact ⟨l', hl, hys⟩
  · cases rest with
    | nil => exact ⟨[], by rw [hxs', List.append_nil, List.append_nil], hrest.symm⟩
    | cons x rest =>
      cases hrest
      exact absurd (hxs' ▸ List.mem_append_right l List.mem_cons_self) (hxs w)

theorem finish_word {l r : List Token} (h : m.finish = some (l ++ .word w :: r)) :
    m = .word w ∧ l = [] ∧ r = [] := by
  have hone : ∀ t : Token, [t] = l ++ .word w :: r → t = .word w ∧ l = [] ∧ r = [] := by
    intro t ht
    rcases List.append_eq_singleton_iff.mp ht.symm with ⟨rfl, hw⟩ | ⟨-, hw⟩
    · cases hw
      exact ⟨rfl, rfl, rfl⟩
    · cases hw
  cases m with
  | between =>
    have hnil := (List.append_eq_nil_iff.mp (Option.some.inj h).symm).2
    cases hnil
  | word letters =>
    obtain ⟨hw, hl, hr⟩ := hone _ (Option.some.inj h)
    cases hw
    exact ⟨rfl, hl, hr⟩
  | dash | slash => cases (hone _ (Option.some.inj h)).1
  | quoted | lineComment | blockComment | blockStar => cases h

/-- Where a text with a word among its tokens has it. It may begin inside of the word. -/
inductive WordAt (w : List Char) (r : List Token) : Mode → List Char → List Token → Prop
  | first {letters v ds : List Char} (hw : w = letters ++ v)
    (hend : ∀ c ∈ ds.head?, isWordChar c = false) (hrest : scan .between ds = some r) :
    WordAt w r (.word letters) (v ++ ds) []
  | later {m : Mode} {a ds : List Char} {l : List Token} (hbefore : scan m a = some l)
    (hapart : (m.read a).2.apart = true) (hend : ∀ c ∈ ds.head?, isWordChar c = false)
    (hrest : scan .between ds = some r) : WordAt w r m (a ++ (w ++ ds)) l

theorem WordAt.cons {l r : List Token} {c : Char} (h : WordAt w r (m.step c).2 cs l)
    (hfirst : ∀ letters v ds, (m.step c).2 = .word letters → w = letters ++ v →
      (∀ d ∈ ds.head?, isWordChar d = false) → scan .between ds = some r →
        WordAt w r m (c :: (v ++ ds)) (m.step c).1) :
    WordAt w r m (c :: cs) ((m.step c).1 ++ l) := by
  generalize hnext : (m.step c).2 = next at h hfirst
  cases h with
  | first hw hend hrest =>
    rw [List.append_nil]
    exact hfirst _ _ _ rfl hw hend hrest
  | @later _ a ds _ hbefore hapart hend hrest =>
    refine .later (a := c :: a) ?_ ?_ hend hrest
    · rw [scan, hnext, hbefore]
      rfl
    · rw [Mode.read, hnext]
      exact hapart

theorem wordAt_of_scan {l r : List Token} (h : scan m cs = some (l ++ .word w :: r)) :
    WordAt w r m cs l := by
  induction cs generalizing m l with
  | nil =>
    obtain ⟨rfl, rfl, rfl⟩ := finish_word h
    show WordAt w [] (.word w) ([] ++ []) []
    exact .first (List.append_nil w).symm nofun rfl
  | cons c cs ih =>
    obtain ⟨ts, hts, htokens⟩ := Option.map_eq_some_iff.mp h
    by_cases hm : ∃ letters, m = .word letters
    · obtain ⟨letters, rfl⟩ := hm
      by_cases hc : isWordChar c = true
      · -- the word goes on
        have hstep := step_word letters hc
        have hnext : ts = l ++ .word w :: r := by rwa [hstep] at htokens
        have hcons := (ih (hnext ▸ hts)).cons fun letters' v ds hletters hw hend hrest => by
          rw [hstep] at hletters ⊢
          cases hletters
          exact .first (v := c :: v) (by rw [hw, List.append_assoc]; rfl) hend hrest
        rwa [hstep] at hcons
      · -- the word ends, and it is the one or stands before it
        rw [Bool.not_eq_true] at hc
        have hstep := step_word_end letters hc
        rw [hstep] at htokens
        cases l with
        | nil =>
          cases htokens
          rw [hstep] at hts
          refine .first (v := []) (List.append_nil w).symm (fun d hd => by cases hd; exact hc) ?_
          rw [scan]
          exact congrArg _ hts
        | cons x l =>
          obtain ⟨hx, hrest⟩ := List.cons.inj htokens
          obtain ⟨l', rfl, hl'⟩ := append_eq_append_word (start_words c).1 hrest
          have hcons := (ih (hl' ▸ hts)).cons fun letters' v ds hletters => by
            rw [hstep] at hletters
            exact absurd ((start_words c).2 letters' hletters).2.2 (by rw [hc]; decide)
          rw [hstep] at hcons
          rwa [← hx]
    · -- nothing is completed but signs and quoted texts
      obtain ⟨hnone, hbegins⟩ := step_outside_words (not_exists.mp hm) c
      obtain ⟨l', rfl, rfl⟩ := append_eq_append_word hnone htokens
      refine (ih hts).cons fun letters v ds hletters hw hend hrest => ?_
      obtain ⟨hapart, hfinish, rfl⟩ := hbegins letters hletters
      subst hw
      exact .later (a := []) hfinish hapart hend hrest

def openAfter (n : Nat) (t : Token) : Option Nat :=
  if t = .symbol '(' then some (n + 1)
  else if t = .symbol ')' then if n = 1 then none else some (n - 1)
  else some n

def afterList? : Nat → List Token → Option (List Token)
  | _, [] => none
  | n, t :: ts =>
    match openAfter n t with
    | none => some ts
    | some k => afterList? k ts

def Spells (keyword : String) (w : List Char) : Prop :=
  w.map Char.toUpper = keyword.toList

instance (keyword : String) (w : List Char) : Decidable (Spells keyword w) :=
  inferInstanceAs (Decidable (_ = _))

/-- WITHOUT stands before ROWID among the options of a table. -/
def WithoutRowId (ts : List Token) : Prop :=
  ∃ (before after : List Token) (w₁ w₂ : List Char),
    afterList? 0 ts = some (before ++ .word w₁ :: .word w₂ :: after) ∧
      Spells "WITHOUT" w₁ ∧ Spells "ROWID" w₂

def IsGap (gap : List Char) : Prop :=
  gap ≠ [] ∧ scan .between gap = some []

instance (gap : List Char) : Decidable (IsGap gap) :=
  inferInstanceAs (Decidable (_ ∧ _))

/-- What stands between two texts begins and ends as a token does, after the column list. It is not
inside of a quoted text or a comment, and no part of a longer word. -/
structure AmongOptions (pre post : List Char) : Prop where
  listed : ∃ ts, scan .between pre = some ts ∧ (afterList? 0 ts).isSome = true
  begins : (Mode.between.read pre).2.apart = true
  ends : ∀ c ∈ post.head?, isWordChar c = false

/-- The two words are options, with this text between them. -/
def DeclaresWith (gap d : List Char) : Prop :=
  ∃ pre w₁ w₂ post : List Char, d = pre ++ (w₁ ++ (gap ++ (w₂ ++ post))) ∧
    Spells "WITHOUT" w₁ ∧ Spells "ROWID" w₂ ∧ AmongOptions pre post

/-- The two words, a space apart, stand where they are no options. -/
def Imitates (d : List Char) : Prop :=
  ∃ pre phrase post : List Char, d = pre ++ (phrase ++ post) ∧ Spells "WITHOUT ROWID" phrase ∧
    ¬AmongOptions pre post

theorem afterList?_append {n : Nat} {o : List Token} (h : afterList? n ts = some o)
    (us : List Token) : afterList? n (ts ++ us) = some (o ++ us) := by
  induction ts generalizing n with
  | nil => cases h
  | cons t ts ih =>
    rw [List.cons_append, afterList?]
    rw [afterList?] at h
    cases hopen : openAfter n t with
    | none =>
      rw [hopen] at h
      cases h
      rfl
    | some k =>
      rw [hopen] at h
      exact ih h

theorem exists_list {n : Nat} {o : List Token} (h : afterList? n ts = some o) :
    ∃ list, ts = list ++ o ∧ afterList? n list = some [] := by
  induction ts generalizing n with
  | nil => cases h
  | cons t ts ih =>
    rw [afterList?] at h
    cases hopen : openAfter n t with
    | none =>
      rw [hopen] at h
      cases h
      exact ⟨[t], rfl, by rw [afterList?, hopen]⟩
    | some k =>
      rw [hopen] at h
      obtain ⟨list, rfl, hlist⟩ := ih h
      exact ⟨t :: list, rfl, by rw [afterList?, hopen]; exact hlist⟩

theorem isWordChar_of_toUpper (hc : c.toUpper.isUpper = true) : isWordChar c = true := by
  have hletter : c.isUpper = true ∨ c.isLower = true := by
    by_cases hrange : 'a'.val ≤ c.val ∧ c.val ≤ 'z'.val
    · exact .inr ((Bool.and_eq_true _ _).mpr ⟨decide_eq_true hrange.1, decide_eq_true hrange.2⟩)
    · have hsame : c.toUpper = c := dif_neg hrange
      exact .inl (hsame ▸ hc)
  have halnum : c.isAlphanum = true := by
    show ((c.isUpper || c.isLower) || c.isDigit) = true
    rcases hletter with h | h <;> simp [h]
  rw [isWordChar, halnum]
  rfl

theorem eq_space_of_toUpper (hc : c.toUpper = ' ') : c = ' ' := by
  delta Char.toUpper at hc
  by_cases hrange : 'a'.val ≤ c.val ∧ c.val ≤ 'z'.val
  · -- it would be where no small letter is
    rw [dif_pos hrange] at hc
    have hval := congrArg (·.val - ('A'.val - 'a'.val)) hc
    simp only [UInt32.add_sub_cancel] at hval
    rw [hval] at hrange
    exact absurd hrange.1 (by decide)
  · rwa [dif_neg hrange] at hc

namespace Spells

variable {keyword : String}

theorem isWordChar (h : Spells keyword w) (hk : keyword.toList.all Char.isUpper = true) :
    ∀ c ∈ w, isWordChar c = true := by
  intro c hc
  exact isWordChar_of_toUpper (List.all_eq_true.mp hk _ (h ▸ List.mem_map_of_mem hc))

theorem ne_nil (h : Spells keyword w) (hk : keyword ≠ "") : w ≠ [] := by
  rintro rfl
  exact hk (String.toList_eq_nil_iff.mp h.symm)

end Spells

theorem scan_word_ne_nil (letters cs : List Char) : scan (.word letters) cs ≠ some [] := by
  induction cs generalizing letters with
  | nil => nofun
  | cons c cs ih =>
    rw [scan]
    cases hc : Text.isWordChar c with
    | true =>
      rw [step_word letters hc]
      simpa using ih (letters ++ [c])
    | false =>
      rw [step_word_end letters hc]
      simp [Mode.startAfter]

theorem IsGap.read {gap : List Char} (h : IsGap gap) :
    Mode.between.read gap = ([], .between) ∧ ∀ c ∈ gap.head?, Text.isWordChar c = false := by
  obtain ⟨hne, hscan⟩ := h
  constructor
  · obtain ⟨us, hfinish, hnil⟩ := scan_eq_some hscan
    obtain ⟨htokens, rfl⟩ := List.append_eq_nil_iff.mp hnil.symm
    exact Prod.ext htokens (eq_between_of_finish hfinish)
  · obtain ⟨c, gap, rfl⟩ := List.exists_cons_of_ne_nil hne
    intro d hd
    cases hd
    rw [← Bool.not_eq_true]
    intro hc
    rw [scan, Mode.step, start_of_isWordChar hc] at hscan
    exact scan_word_ne_nil [c] gap (by simpa using hscan)

/-- The tokens of a definition have the two options one after the other exactly if they stand in its
text with a gap between them. -/
theorem withoutRowId_iff {d : List Char} (h : scan .between d = some ts) :
    WithoutRowId ts ↔ ∃ gap, IsGap gap ∧ DeclaresWith gap d := by
  constructor
  · rintro ⟨before, after, w₁, w₂, hlist, hw₁, hw₂⟩
    obtain ⟨list, rfl, hclosed⟩ := exists_list hlist
    rw [← List.append_assoc] at h
    cases wordAt_of_scan h with
    | @later _ pre rest _ hbefore hapart hend hrest =>
      cases wordAt_of_scan (l := []) hrest with
      | @later _ gap post _ hgap _ hend' _ =>
        refine ⟨gap, ⟨?_, hgap⟩, pre, w₁, w₂, post, rfl, hw₁, hw₂, ?_⟩
        · rintro rfl
          obtain ⟨c, w, rfl⟩ := List.exists_cons_of_ne_nil (hw₂.ne_nil (by decide))
          have hc : Text.isWordChar c = true := hw₂.isWordChar (by decide) c List.mem_cons_self
          rw [hend c rfl] at hc
          cases hc
        · exact ⟨⟨_, hbefore, by rw [afterList?_append hclosed]; rfl⟩, hapart, hend'⟩
  · rintro ⟨gap, hgap, pre, w₁, w₂, post, rfl, hw₁, hw₂, ⟨l, hpre, hlist⟩, hapart, hend⟩
    obtain ⟨hread, hhead⟩ := hgap.read
    have hhead' : ∀ c ∈ (gap ++ (w₂ ++ post)).head?, Text.isWordChar c = false := by
      obtain ⟨c, gap, rfl⟩ := List.exists_cons_of_ne_nil hgap.1
      exact hhead
    obtain ⟨us, hus, hscan₁⟩ := scan_word hapart (hw₁.ne_nil (by decide))
      (hw₁.isWordChar (by decide)) hhead'
    obtain ⟨us', hus', hscan₂⟩ := scan_word (m := .between) rfl (hw₂.ne_nil (by decide))
      (hw₂.isWordChar (by decide)) hend
    cases hus'
    rw [scan_append, hscan₁, scan_append, hread, hscan₂] at h
    simp only [Option.map_eq_some_iff, List.nil_append] at h
    obtain ⟨_, ⟨_, ⟨_, ⟨rest, -, rfl⟩, rfl⟩, rfl⟩, rfl⟩ := h
    obtain ⟨us', hus', rfl⟩ := scan_eq_some hpre
    cases hus.symm.trans hus'
    obtain ⟨o, ho⟩ := Option.isSome_iff_exists.mp hlist
    refine ⟨o, rest, w₁, w₂, ?_, hw₁, hw₂⟩
    rw [← List.append_assoc, afterList?_append ho]

theorem isGap_space : IsGap [' '] := by
  decide

theorem spells_rowId_iff {phrase : List Char} : Spells "WITHOUT ROWID" phrase ↔
    ∃ w₁ w₂, phrase = w₁ ++ ([' '] ++ w₂) ∧ Spells "WITHOUT" w₁ ∧ Spells "ROWID" w₂ := by
  have hwords : "WITHOUT ROWID".toList = "WITHOUT".toList ++ ' ' :: "ROWID".toList := rfl
  rw [Spells, hwords, List.map_eq_append_iff]
  constructor
  · rintro ⟨w₁, rest, rfl, hw₁, hrest⟩
    obtain ⟨c, w₂, rfl, hc, hw₂⟩ := List.map_eq_cons_iff.mp hrest
    cases eq_space_of_toUpper hc
    exact ⟨w₁, w₂, rfl, hw₁, hw₂⟩
  · rintro ⟨w₁, w₂, rfl, hw₁, hw₂⟩
    exact ⟨w₁, ' ' :: w₂, rfl, hw₁, congrArg (' ' :: ·) hw₂⟩

/-- The spelling with a single space is found where the two words are options, and where they are
not. -/
theorem occurs_rowId_iff (d : List Char) :
    occurs "WITHOUT ROWID".toList (d.map Char.toUpper) = true ↔
      DeclaresWith [' '] d ∨ Imitates d := by
  have hfound : occurs "WITHOUT ROWID".toList (d.map Char.toUpper) = true ↔
      ∃ pre phrase post, d = pre ++ (phrase ++ post) ∧ Spells "WITHOUT ROWID" phrase := by
    rw [occurs_iff]
    constructor
    · rintro ⟨_, _, h⟩
      obtain ⟨pre, rest, rfl, -, hrest⟩ := List.map_eq_append_iff.mp h
      obtain ⟨phrase, post, rfl, hphrase, -⟩ := List.map_eq_append_iff.mp hrest
      exact ⟨pre, phrase, post, rfl, hphrase⟩
    · rintro ⟨pre, phrase, post, rfl, hphrase⟩
      refine ⟨pre.map Char.toUpper, post.map Char.toUpper, ?_⟩
      rw [List.map_append, List.map_append, hphrase]
  rw [hfound]
  constructor
  · rintro ⟨pre, phrase, post, rfl, hphrase⟩
    by_cases hamong : AmongOptions pre post
    · obtain ⟨w₁, w₂, rfl, hw₁, hw₂⟩ := spells_rowId_iff.mp hphrase
      refine .inl ⟨pre, w₁, w₂, post, ?_, hw₁, hw₂, hamong⟩
      simp only [List.append_assoc]
    · exact .inr ⟨pre, phrase, post, rfl, hphrase, hamong⟩
  · rintro (⟨pre, w₁, w₂, post, rfl, hw₁, hw₂, -⟩ | ⟨pre, phrase, post, rfl, hphrase, -⟩)
    · refine ⟨pre, w₁ ++ ([' '] ++ w₂), post, ?_, spells_rowId_iff.mpr ⟨w₁, w₂, rfl, hw₁, hw₂⟩⟩
      simp only [List.append_assoc]
    · exact ⟨pre, phrase, post, rfl, hphrase⟩

end RelQuery.Text
