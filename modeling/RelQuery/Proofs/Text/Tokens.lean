import RelQuery.Proofs.Text.Words
import RelQuery.Text.Case

/-!
# Tokens of SQL

SQL is read as words, quoted texts and symbols, with blanks and comments between them. A text that
ends inside of a quote or a comment takes in what is written after it, so it has no tokens of its
own. What follows a blank or a parenthesis is read as if it stood alone.
-/

set_option autoImplicit false

namespace RelQuery.Text

/-- A quoted text is known by the character that closes it. A quote that is doubled inside of it
closes it and opens the next one. -/
inductive Token
  | word (letters : List Char)
  | quoted (closing : Char) (letters : List Char)
  | symbol (c : Char)
deriving DecidableEq

/-- Where the next character stands. After a first dash or slash there may be a comment. -/
inductive Mode
  | between
  | word (letters : List Char)
  | quoted (closing : Char) (letters : List Char)
  | dash
  | slash
  | lineComment
  | blockComment
  | blockStar

def isBlank (c : Char) : Bool :=
  c.isWhitespace || c == '\x0c'

/-- Letters, digits and what parameters begin with; no keyword has any other character in it. -/
def isWordChar (c : Char) : Bool :=
  c.isAlphanum || c ∈ ['_', '$', ':', '@', '#'] || 128 ≤ c.toNat

def closing? (c : Char) : Option Char :=
  if c = '[' then some ']' else if c ∈ ['\'', '"', '`'] then some c else none

namespace Mode

def start (c : Char) : List Token × Mode :=
  if isBlank c then ([], .between)
  else if isWordChar c then ([], .word [c])
  else
    match closing? c with
    | some closing => ([], .quoted closing [])
    | none => if c = '-' then ([], .dash) else if c = '/' then ([], .slash)
      else ([.symbol c], .between)

/-- The tokens that are complete at the end of a text, if it can end here. -/
def finish : Mode → Option (List Token)
  | .between => some []
  | .word letters => some [.word letters]
  | .dash => some [.symbol '-']
  | .slash => some [.symbol '/']
  | _ => none

def startAfter (tokens : List Token) (c : Char) : List Token × Mode :=
  (tokens ++ (start c).1, (start c).2)

def step (m : Mode) (c : Char) : List Token × Mode :=
  match m with
  | .between => start c
  | .word letters =>
    if isWordChar c then ([], .word (letters ++ [c])) else startAfter [.word letters] c
  | .quoted closing letters =>
    if c = closing then ([.quoted closing letters], .between)
    else ([], .quoted closing (letters ++ [c]))
  | .dash => if c = '-' then ([], .lineComment) else startAfter [.symbol '-'] c
  | .slash => if c = '*' then ([], .blockComment) else startAfter [.symbol '/'] c
  | .lineComment => ([], if c = '\n' then .between else .lineComment)
  | .blockComment => ([], if c = '*' then .blockStar else .blockComment)
  | .blockStar =>
    ([], if c = '/' then .between else if c = '*' then .blockStar else .blockComment)

end Mode

def scan : Mode → List Char → Option (List Token)
  | m, [] => m.finish
  | m, c :: cs => (scan (m.step c).2 cs).map ((m.step c).1 ++ ·)

def tokens? (s : String) : Option (List Token) :=
  scan .between s.toList

/-- The characters that end whatever token stands before them. -/
def Breaks (c : Char) : Prop :=
  isWordChar c = false ∧ c ≠ '-' ∧ c ≠ '*'

instance (c : Char) : Decidable (Breaks c) :=
  inferInstanceAs (Decidable (_ ∧ _))

theorem Mode.step_of_breaks {c : Char} (hc : Breaks c) {m : Mode} {ts : List Token}
    (hm : m.finish = some ts) : m.step c = startAfter ts c := by
  obtain ⟨hword, hdash, hstar⟩ := hc
  cases m <;> simp_all [finish, step, startAfter]

theorem scan_append_of_breaks {m : Mode} {cs : List Char} {ts : List Token}
    (h : scan m cs = some ts) {c : Char} (hc : Breaks c) (ds : List Char) :
    scan m (cs ++ c :: ds) = (scan .between (c :: ds)).map (ts ++ ·) := by
  induction cs generalizing m ts with
  | nil =>
    have hm : m.finish = some ts := h
    rw [List.nil_append, scan, Mode.step_of_breaks hc hm, scan, Option.map_map]
    refine congrArg (fun g => Option.map g _) (funext fun us => ?_)
    exact List.append_assoc ts (Mode.start c).1 us
  | cons d cs ih =>
    obtain ⟨us, hus, rfl⟩ := Option.map_eq_some_iff.mp h
    rw [List.cons_append, scan, ih hus, Option.map_map]
    refine congrArg (fun g => Option.map g _) (funext fun vs => ?_)
    exact (List.append_assoc (m.step d).1 us vs).symm

def conjunction : Token :=
  .word ['A', 'N', 'D']

theorem tokens?_and {s t : String} {ts us : List Token} (hs : tokens? s = some ts)
    (ht : tokens? t = some us) :
    tokens? (s ++ " AND " ++ t) = some (ts ++ conjunction :: us) := by
  have hchars : (s ++ " AND " ++ t).toList =
      s.toList ++ ' ' :: ('A' :: 'N' :: 'D' :: ' ' :: t.toList) := by simp
  have hand : scan .between (' ' :: 'A' :: 'N' :: 'D' :: ' ' :: t.toList) =
      (scan .between t.toList).map (conjunction :: ·) := by
    rw [scan, scan, scan, scan, scan]
    simp [Mode.step, Mode.start, Mode.startAfter, isBlank, isWordChar, conjunction,
      Function.comp_def]
  rw [tokens?, hchars, scan_append_of_breaks hs (by decide), hand, ← tokens?, ht]
  rfl

theorem tokens?_group {s : String} {ts : List Token} (hs : tokens? s = some ts) :
    tokens? (group s) = some (.symbol '(' :: (ts ++ [.symbol ')'])) := by
  have hchars : (group s).toList = '(' :: (s.toList ++ ')' :: []) := by simp [group]
  have hopen : ∀ cs : List Char, scan .between ('(' :: cs) =
      (scan .between cs).map (Token.symbol '(' :: ·) := fun _ => rfl
  rw [tokens?, hchars, hopen, scan_append_of_breaks hs (by decide)]
  rfl

end RelQuery.Text
