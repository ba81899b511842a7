import Mathlib.Data.List.Forall2
import Mathlib.Data.List.Induction
import RelQuery.Proofs.Condition.Truth
import RelQuery.Proofs.Text.Tokens

/-!
# Precedence in conditions

NOT binds tighter than AND, and AND tighter than OR. A condition is read from its tokens from left
to right: what stands between two ANDs is one factor, what stands between two ORs is a conjunction
of factors, and a pair of parentheses, or of CASE and END, is read inside by itself.
-/

set_option autoImplicit false

namespace RelQuery

open Text

/-- A condition as its connectives divide it. -/
inductive Formula
  | atom (tokens : List Token)
  | not (f : Formula)
  | junction (j : Junction) (left right : Formula)
deriving DecidableEq

namespace Formula

def truth (V : List Token → Truth) : Formula → Truth
  | .atom tokens => V tokens
  | .not f => (f.truth V).not
  | .junction j left right => j.truth (left.truth V) (right.truth V)

def conjuncts : Formula → List Formula
  | .junction .and left right => left.conjuncts ++ right.conjuncts
  | f => [f]

def joined (j : Junction) : List Formula → Formula
  | [] => .atom []
  | f :: fs => fs.foldl (.junction j) f

theorem conjuncts_ne_nil (f : Formula) : f.conjuncts ≠ [] := by
  induction f with
  | atom tokens => exact List.cons_ne_nil _ _
  | not f => exact List.cons_ne_nil _ _
  | junction j left right ihl =>
    cases j with
    | and => exact List.append_ne_nil_of_left_ne_nil ihl _
    | or => exact List.cons_ne_nil _ _

theorem flatMap_conjuncts_ne_nil {fs : List Formula} (h : fs ≠ []) :
    fs.flatMap conjuncts ≠ [] := by
  cases fs with
  | nil => exact absurd rfl h
  | cons f fs => exact List.append_ne_nil_of_left_ne_nil f.conjuncts_ne_nil _

theorem joined_concat (j : Junction) {fs : List Formula} (h : fs ≠ []) (f : Formula) :
    joined j (fs ++ [f]) = .junction j (joined j fs) f := by
  cases fs with
  | nil => exact absurd rfl h
  | cons g fs => rw [List.cons_append, joined, List.foldl_append, joined, List.foldl_cons,
      List.foldl_nil]

theorem conjuncts_joined_and {fs : List Formula} (h : fs ≠ []) :
    (joined .and fs).conjuncts = fs.flatMap conjuncts := by
  induction fs using List.reverseRecOn with
  | nil => exact absurd rfl h
  | append_singleton fs f ih =>
    by_cases hfs : fs = []
    · rw [hfs]
      simp [joined]
    · rw [joined_concat .and hfs, conjuncts, ih hfs, List.flatMap_append]
      simp

theorem truth_joined_and {fs : List Formula} (h : fs ≠ []) (V : List Token → Truth) :
    (joined .and fs).truth V = Truth.all (fs.map (truth V)) := by
  induction fs using List.reverseRecOn with
  | nil => exact absurd rfl h
  | append_singleton fs f ih =>
    by_cases hfs : fs = []
    · rw [hfs]
      simp [joined, Truth.all]
    · rw [joined_concat .and hfs, truth, ih hfs, List.map_append, Truth.all_append]
      simp [Junction.truth, Truth.all]

end Formula

inductive Bracket
  | parenthesis
  | case
deriving DecidableEq

inductive Role
  | plain
  | or
  | and
  | not
  | between
  | query
  | opens (b : Bracket)
  | closes (b : Bracket)
deriving DecidableEq

/-- The words that are not part of an operand, in any case of letters, and those that begin a
query. -/
def roles : List (String × Role) :=
  [("or", .or), ("and", .and), ("not", .not), ("between", .between), ("case", .opens .case),
    ("end", .closes .case), ("select", .query), ("values", .query), ("with", .query)]

def Text.Token.role : Token → Role
  | .word letters =>
    ((roles.find? fun k => sameLetters letters k.1.toList).map (·.2)).getD .plain
  | .symbol '(' => .opens .parenthesis
  | .symbol ')' => .closes .parenthesis
  | _ => .plain

/-- A token of a factor, or a pair of brackets with what is read inside. -/
inductive Piece
  | token (t : Token)
  | group (tokens : List Token) (f : Formula)

def Piece.tokens : Piece → List Token
  | .token t => [t]
  | .group tokens _ => tokens

def factor : List Piece → Formula
  | [.group _ f] => f
  | .token t :: pieces =>
    if t.role = .not then .not (factor pieces) else .atom (t :: pieces.flatMap Piece.tokens)
  | pieces => .atom (pieces.flatMap Piece.tokens)

/-- What was read inside of an open bracket: conjunctions that an OR ended, factors that an AND
ended, the pieces of the last factor, and the number of BETWEENs that still wait for their AND. -/
structure Frame where
  opening : Token
  tokens : List Token
  disjuncts : List (List Formula)
  conjuncts : List Formula
  pieces : List Piece
  waiting : Nat

namespace Frame

def start (opening : Token) : Frame :=
  ⟨opening, [], [], [], [], 0⟩

def factors (F : Frame) : List Formula :=
  F.conjuncts ++ [factor F.pieces]

def formula (F : Frame) : Formula :=
  .joined .or ((F.disjuncts ++ [F.factors]).map (.joined .and))

def isQuery (F : Frame) : Bool :=
  F.tokens.head?.any (·.role = .query)

def addPiece (F : Frame) (p : Piece) : Frame :=
  { F with tokens := F.tokens ++ p.tokens, pieces := F.pieces ++ [p] }

def take (F : Frame) (t : Token) : Frame :=
  match t.role, F.waiting with
  | .or, _ => { F with
      tokens := F.tokens ++ [t]
      disjuncts := F.disjuncts ++ [F.factors]
      conjuncts := []
      pieces := [] }
  | .and, 0 => { F with tokens := F.tokens ++ [t], conjuncts := F.factors, pieces := [] }
  | .and, n + 1 => { F.addPiece (.token t) with waiting := n }
  | .between, n => { F.addPiece (.token t) with waiting := n + 1 }
  | _, _ => F.addPiece (.token t)

/-- A pair of brackets. It is opaque unless there is a condition in parentheses. -/
def closed (F : Frame) (t : Token) : Piece :=
  let tokens := F.opening :: (F.tokens ++ [t])
  .group tokens
    (if F.opening.role = .opens .parenthesis && !F.isQuery then F.formula else .atom tokens)

end Frame

/-- The open brackets after a token, the innermost one first. -/
def nest : List Frame → Token → Option (List Frame)
  | [], _ => none
  | F :: Fs, t =>
    match t.role with
    | .opens _ => some (.start t :: F :: Fs)
    | .closes b =>
      match Fs with
      | [] => none
      | G :: Gs => if F.opening.role = .opens b then some (G.addPiece (F.closed t) :: Gs) else none
    | _ => some (F.take t :: Fs)

def nestAll : List Frame → List Token → Option (List Frame)
  | Fs, [] => some Fs
  | Fs, t :: ts => (nest Fs t).bind (nestAll · ts)

/-- A text is read as if it stood in parentheses. -/
def Frame.outer : Frame :=
  .start (.symbol '(')

/-- What is read of a text in which every bracket is closed. -/
def readFrame (s : String) : Option Frame :=
  (tokens? s).bind fun ts =>
    match nestAll [.outer] ts with
    | some [F] => some F
    | _ => none

def readFormula (s : String) : Option Formula :=
  (readFrame s).map Frame.formula

/-- The text of a condition that is complete: its quotes, comments, brackets and BETWEENs are, and
it is no query. -/
def Complete (s : String) : Prop :=
  ∃ F, readFrame s = some F ∧ F.waiting = 0 ∧ F.isQuery = false

/-- There is an OR outside of all brackets. -/
def Divided (s : String) : Prop :=
  ∃ F, readFrame s = some F ∧ F.disjuncts ≠ []

theorem nestAll_append {Fs Gs : List Frame} {ts : List Token} (h : nestAll Fs ts = some Gs)
    (us : List Token) : nestAll Fs (ts ++ us) = nestAll Gs us := by
  induction ts generalizing Fs with
  | nil =>
    cases h
    rfl
  | cons t ts ih =>
    obtain ⟨Es, hnest, hrest⟩ := Option.bind_eq_some_iff.mp h
    rw [List.cons_append, nestAll, hnest]
    exact ih hrest

theorem nest_eq_some {F : Frame} {Fs Gs : List Frame} {t : Token} :
    nest (F :: Fs) t = some Gs ↔
      (∃ b, t.role = .opens b ∧ Gs = .start t :: F :: Fs) ∨
      (∃ (b : Bracket) (G : Frame) (Es : List Frame), t.role = .closes b ∧
        F.opening.role = .opens b ∧ Fs = G :: Es ∧ Gs = G.addPiece (F.closed t) :: Es) ∨
      ((∀ b, t.role ≠ .opens b ∧ t.role ≠ .closes b) ∧ Gs = F.take t :: Fs) := by
  rw [nest]
  cases t.role with
  | closes b =>
    cases Fs with
    | nil => simp
    | cons G Es => simp [eq_comm]
  | _ => simp [eq_comm]

theorem nest_under {Fs Gs : List Frame} {t : Token} (h : nest Fs t = some Gs)
    (under : List Frame) : nest (Fs ++ under) t = some (Gs ++ under) := by
  cases Fs with
  | nil => cases h
  | cons F Fs =>
    rw [List.cons_append, nest_eq_some]
    rcases nest_eq_some.mp h with ⟨b, ht, rfl⟩ | ⟨b, G, Es, ht, hF, rfl, rfl⟩ | ⟨ht, rfl⟩
    · exact .inl ⟨b, ht, rfl⟩
    · exact .inr (.inl ⟨b, G, Es ++ under, ht, hF, rfl, rfl⟩)
    · exact .inr (.inr ⟨ht, rfl⟩)

theorem nestAll_under {Fs Gs : List Frame} {ts : List Token} (h : nestAll Fs ts = some Gs)
    (under : List Frame) : nestAll (Fs ++ under) ts = some (Gs ++ under) := by
  induction ts generalizing Fs with
  | nil =>
    cases h
    rfl
  | cons t ts ih =>
    obtain ⟨Es, hnest, hrest⟩ := Option.bind_eq_some_iff.mp h
    rw [nestAll, nest_under hnest under]
    exact ih hrest

namespace Frame

def continued (G F : Frame) : Frame where
  opening := G.opening
  tokens := G.tokens ++ F.tokens
  disjuncts :=
    match F.disjuncts with
    | [] => G.disjuncts
    | d :: ds => G.disjuncts ++ (G.conjuncts ++ d) :: ds
  conjuncts :=
    match F.disjuncts with
    | [] => G.conjuncts ++ F.conjuncts
    | _ => F.conjuncts
  pieces := F.pieces
  waiting := F.waiting

theorem continued_outer {G : Frame} (hp : G.pieces = []) (hw : G.waiting = 0) :
    G.continued outer = G := by
  cases G
  cases hp
  cases hw
  simp [continued, outer, start]

theorem continued_addPiece (G F : Frame) (p : Piece) :
    (G.continued F).addPiece p = G.continued (F.addPiece p) := by
  simp [continued, addPiece]

theorem continued_take (G F : Frame) (t : Token) :
    (G.continued F).take t = G.continued (F.take t) := by
  obtain ⟨opening, tokens, disjuncts, conjuncts, pieces, waiting⟩ := F
  cases disjuncts <;> cases hr : t.role <;> cases waiting <;>
    simp [continued, take, addPiece, factors, hr]

end Frame

def continueLast (G : Frame) : List Frame → List Frame
  | [] => []
  | [F] => [G.continued F]
  | E :: F :: Fs => E :: continueLast G (F :: Fs)

theorem continueLast_cons (G E : Frame) {Fs : List Frame} (h : Fs ≠ []) :
    continueLast G (E :: Fs) = E :: continueLast G Fs := by
  cases Fs with
  | nil => exact absurd rfl h
  | cons F Fs => rfl

theorem continueLast_addPiece (G F : Frame) (Fs : List Frame) (p : Piece) :
    ∃ (F' : Frame) (Fs' : List Frame), continueLast G (F :: Fs) = F' :: Fs' ∧
      continueLast G (F.addPiece p :: Fs) = F'.addPiece p :: Fs' := by
  cases Fs with
  | nil => exact ⟨_, _, rfl, by rw [Frame.continued_addPiece]; rfl⟩
  | cons E Es => exact ⟨_, _, rfl, rfl⟩

theorem nest_continueLast (G : Frame) {Fs Es : List Frame} {t : Token} (h : nest Fs t = some Es) :
    nest (continueLast G Fs) t = some (continueLast G Es) := by
  rcases Fs with _ | ⟨F, Fs⟩
  · cases h
  rcases nest_eq_some.mp h with ⟨b, ht, rfl⟩ | ⟨b, E, Ds, ht, hF, rfl, rfl⟩ | ⟨ht, rfl⟩
  · rw [continueLast_cons G (.start t) (List.cons_ne_nil F Fs)]
    cases Fs with
    | nil => exact nest_eq_some.mpr (.inl ⟨b, ht, rfl⟩)
    | cons E Es => exact nest_eq_some.mpr (.inl ⟨b, ht, rfl⟩)
  · obtain ⟨E', Ds', hE, hadded⟩ := continueLast_addPiece G E Ds (F.closed t)
    rw [continueLast_cons G F (List.cons_ne_nil E Ds), hE, hadded]
    exact nest_eq_some.mpr (.inr (.inl ⟨b, E', Ds', ht, hF, rfl, rfl⟩))
  · cases Fs with
    | nil =>
      refine nest_eq_some.mpr (.inr (.inr ⟨ht, ?_⟩))
      rw [Frame.continued_take]
      rfl
    | cons E Es => exact nest_eq_some.mpr (.inr (.inr ⟨ht, rfl⟩))

theorem nestAll_continueLast (G : Frame) {Fs Es : List Frame} {ts : List Token}
    (h : nestAll Fs ts = some Es) :
    nestAll (continueLast G Fs) ts = some (continueLast G Es) := by
  induction ts generalizing Fs with
  | nil =>
    cases h
    rfl
  | cons t ts ih =>
    obtain ⟨Ds, hnest, hrest⟩ := Option.bind_eq_some_iff.mp h
    rw [nestAll, nest_continueLast G hnest]
    exact ih hrest

theorem readFrame_eq_some {s : String} {F : Frame} :
    readFrame s = some F ↔ ∃ ts, tokens? s = some ts ∧ nestAll [.outer] ts = some [F] := by
  rw [readFrame, Option.bind_eq_some_iff]
  constructor
  · rintro ⟨ts, hts, h⟩
    refine ⟨ts, hts, ?_⟩
    split at h
    · rename_i hnest
      cases h
      exact hnest
    · cases h
  · rintro ⟨ts, hts, h⟩
    exact ⟨ts, hts, by rw [h]⟩

theorem opening_of_nestAll {ts : List Token} {F : Frame} (h : nestAll [.outer] ts = some [F]) :
    F.opening = .symbol '(' := by
  -- reading after nothing is reading alone, and goes on in the same bracket
  have hlast := nestAll_continueLast .outer h
  rw [continueLast, Frame.continued_outer rfl rfl, h] at hlast
  have hF : F = Frame.outer.continued F := (List.cons.inj (Option.some.inj hlast)).1
  rw [hF]
  rfl

theorem readFrame_group {s : String} {F : Frame} (h : readFrame s = some F) :
    readFrame (group s) = some (Frame.outer.addPiece (F.closed (.symbol ')'))) := by
  obtain ⟨ts, hts, hnest⟩ := readFrame_eq_some.mp h
  refine readFrame_eq_some.mpr ⟨_, tokens?_group hts, ?_⟩
  have hinner : nestAll [.outer, .outer] ts = some [F, .outer] := nestAll_under hnest [.outer]
  show nestAll [.outer, .outer] (ts ++ [.symbol ')']) = _
  rw [nestAll_append hinner, nestAll, nest, opening_of_nestAll hnest]
  rfl

theorem readFrame_and {s t : String} {F G : Frame} (hs : readFrame s = some F)
    (ht : readFrame t = some G) (hw : F.waiting = 0) :
    readFrame (s ++ " AND " ++ t) = some ((F.take conjunction).continued G) := by
  obtain ⟨ts, hts, hnest⟩ := readFrame_eq_some.mp hs
  obtain ⟨us, hus, hnest'⟩ := readFrame_eq_some.mp ht
  refine readFrame_eq_some.mpr ⟨_, tokens?_and hts hus, ?_⟩
  have htake : (F.take conjunction).pieces = [] ∧ (F.take conjunction).waiting = 0 := by
    simp [Frame.take, hw, show conjunction.role = .and from rfl]
  have hlast := nestAll_continueLast (F.take conjunction) hnest'
  rw [continueLast, Frame.continued_outer htake.1 htake.2] at hlast
  rw [nestAll_append hnest]
  exact hlast

namespace Frame

variable {F G : Frame}

theorem formula_of_undivided (h : F.disjuncts = []) : F.formula = .joined .and F.factors := by
  rw [formula, h]
  rfl

/-- A condition with an OR outside of all brackets is no conjunction. -/
theorem conjuncts_of_divided (h : F.disjuncts ≠ []) : F.formula.conjuncts = [F.formula] := by
  have hne : F.disjuncts.map (Formula.joined .and) ≠ [] := mt List.map_eq_nil_iff.mp h
  rw [formula, List.map_append, List.map_cons, List.map_nil, Formula.joined_concat .or hne]
  rfl

theorem factors_ne_nil (F : Frame) : F.factors ≠ [] :=
  List.append_ne_nil_of_right_ne_nil _ (List.cons_ne_nil _ _)

def conjoined (F G : Frame) : Frame :=
  (F.take conjunction).continued G

theorem take_conjunction (hw : F.waiting = 0) :
    F.take conjunction =
      { F with tokens := F.tokens ++ [conjunction], conjuncts := F.factors, pieces := [] } := by
  simp [take, hw, show conjunction.role = .and from rfl]

theorem conjoined_undivided_iff (hw : F.waiting = 0) :
    (F.conjoined G).disjuncts = [] ↔ F.disjuncts = [] ∧ G.disjuncts = [] := by
  rw [conjoined, take_conjunction hw]
  cases hG : G.disjuncts <;> simp [continued, hG]

theorem factors_conjoined (hw : F.waiting = 0) (hG : G.disjuncts = []) :
    (F.conjoined G).factors = F.factors ++ G.factors := by
  rw [conjoined, take_conjunction hw]
  simp [continued, factors, hG]

theorem isQuery_conjoined (hw : F.waiting = 0) (hq : F.isQuery = false) :
    (F.conjoined G).isQuery = false := by
  rw [isQuery] at hq
  rw [conjoined, take_conjunction hw, isQuery, continued]
  cases hF : F.tokens with
  | nil => rfl
  | cons t ts =>
    rw [hF] at hq
    exact hq

theorem conjuncts_conjoined_iff (hw : F.waiting = 0) :
    (F.conjoined G).formula.conjuncts = F.formula.conjuncts ++ G.formula.conjuncts ↔
      F.disjuncts = [] ∧ G.disjuncts = [] := by
  by_cases h : F.disjuncts = [] ∧ G.disjuncts = []
  · obtain ⟨hF, hG⟩ := h
    have hD : (F.conjoined G).disjuncts = [] := (conjoined_undivided_iff hw).mpr ⟨hF, hG⟩
    rw [formula_of_undivided hD, formula_of_undivided hF, formula_of_undivided hG,
      Formula.conjuncts_joined_and (factors_ne_nil _),
      Formula.conjuncts_joined_and (factors_ne_nil _),
      Formula.conjuncts_joined_and (factors_ne_nil _), factors_conjoined hw hG]
    simp [hF, hG]
  · have hD : (F.conjoined G).disjuncts ≠ [] := fun hD => h ((conjoined_undivided_iff hw).mp hD)
    have hF := List.length_pos_iff.mpr F.formula.conjuncts_ne_nil
    have hG := List.length_pos_iff.mpr G.formula.conjuncts_ne_nil
    rw [conjuncts_of_divided hD]
    refine iff_of_false (fun heq => ?_) h
    have hlen := congrArg List.length heq
    rw [List.length_append, List.length_singleton] at hlen
    omega

theorem truth_conjoined (hw : F.waiting = 0) (hF : F.disjuncts = []) (hG : G.disjuncts = [])
    (V : List Token → Truth) :
    (F.conjoined G).formula.truth V = (F.formula.truth V).and (G.formula.truth V) := by
  have hD : (F.conjoined G).disjuncts = [] := (conjoined_undivided_iff hw).mpr ⟨hF, hG⟩
  rw [formula_of_undivided hD, formula_of_undivided hF, formula_of_undivided hG,
    Formula.truth_joined_and (factors_ne_nil _), Formula.truth_joined_and (factors_ne_nil _),
    Formula.truth_joined_and (factors_ne_nil _), factors_conjoined hw hG, List.map_append,
    Truth.all_append]

def enclosed (F : Frame) : Frame :=
  outer.addPiece (F.closed (.symbol ')'))

theorem formula_enclosed (ho : F.opening = .symbol '(') (hq : F.isQuery = false) :
    F.enclosed.formula = F.formula := by
  have hpiece : F.closed (.symbol ')') =
      .group (F.opening :: (F.tokens ++ [.symbol ')'])) F.formula := by
    simp [closed, ho, hq, show (Token.symbol '(').role = .opens .parenthesis from rfl]
  rw [enclosed, hpiece]
  rfl

theorem isQuery_enclosed (ho : F.opening = .symbol '(') : F.enclosed.isQuery = false := by
  show (F.closed (.symbol ')')).tokens.head?.any (·.role = .query) = false
  rw [closed, ho]
  rfl

end Frame

theorem opening_of_readFrame {s : String} {F : Frame} (h : readFrame s = some F) :
    F.opening = .symbol '(' := by
  obtain ⟨ts, -, hnest⟩ := readFrame_eq_some.mp h
  exact opening_of_nestAll hnest

theorem divided_iff {s : String} {F : Frame} (h : readFrame s = some F) :
    Divided s ↔ F.disjuncts ≠ [] := by
  constructor
  · rintro ⟨G, hG, hd⟩
    rw [h] at hG
    cases hG
    exact hd
  · exact fun hd => ⟨F, h, hd⟩

theorem Complete.group {s : String} (h : Complete s) :
    Complete (Text.group s) ∧ ¬ Divided (Text.group s) := by
  obtain ⟨F, hF, -, -⟩ := h
  have hgroup := readFrame_group hF
  refine ⟨⟨F.enclosed, hgroup, rfl, Frame.isQuery_enclosed (opening_of_readFrame hF)⟩, ?_⟩
  rw [divided_iff hgroup]
  exact fun hd => hd rfl

def conjoinText (s t : String) : String :=
  group (s ++ " AND " ++ t)

def conjoinTexts : List String → String
  | [] => ""
  | s :: ss => ss.foldl conjoinText s

theorem conjoinTexts_concat {ss : List String} (h : ss ≠ []) (t : String) :
    conjoinTexts (ss ++ [t]) = conjoinText (conjoinTexts ss) t := by
  cases ss with
  | nil => exact absurd rfl h
  | cons s ss =>
    rw [List.cons_append, conjoinTexts, List.foldl_append, conjoinTexts]
    rfl

theorem readFrame_conjoinText {s t : String} {F G : Frame} (hs : readFrame s = some F)
    (ht : readFrame t = some G) (hw : F.waiting = 0) :
    readFrame (conjoinText s t) = some (F.conjoined G).enclosed :=
  readFrame_group (readFrame_and hs ht hw)

/-- What is read of conditions that were joined by AND one after another, each join in parentheses.
They are the conjuncts unless an OR of one of them reaches over an AND. -/
structure ReadsAll (texts : List String) (F : Frame) (fs : List Formula) : Prop where
  frame : readFrame (conjoinTexts texts) = some F
  waiting : F.waiting = 0
  isQuery : F.isQuery = false
  formulas : List.Forall₂ (fun s f => readFormula s = some f) texts fs
  undivided : F.disjuncts = [] ↔ texts.length ≠ 1 ∨ ∀ s ∈ texts, ¬ Divided s
  conjuncts : F.formula.conjuncts = fs.flatMap Formula.conjuncts ↔
    texts.length = 1 ∨ ∀ s ∈ texts, ¬ Divided s
  truth : (texts.length = 1 ∨ ∀ s ∈ texts, ¬ Divided s) → ∀ V : List Token → Truth,
    F.formula.truth V = Truth.all (fs.map (Formula.truth V))

theorem readsAll_singleton {s : String} {F : Frame} (h : readFrame s = some F)
    (hw : F.waiting = 0) (hq : F.isQuery = false) : ReadsAll [s] F [F.formula] where
  frame := h
  waiting := hw
  isQuery := hq
  formulas := .cons (by rw [readFormula, h]; rfl) .nil
  undivided := by
    rw [List.forall_mem_singleton, divided_iff h]
    simp
  conjuncts := by simp
  truth := by
    intro _ V
    simp [Truth.all]

theorem ReadsAll.concat {ss : List String} {F : Frame} {fs : List Formula} (h : ReadsAll ss F fs)
    (hne : ss ≠ []) {t : String} {G : Frame} (hG : readFrame t = some G) :
    ReadsAll (ss ++ [t]) (F.conjoined G).enclosed (fs ++ [G.formula]) := by
  have hlen : (ss ++ [t]).length ≠ 1 := by
    have hpos := List.length_pos_iff.mpr hne
    rw [List.length_append, List.length_singleton]
    omega
  have hread : readFrame (conjoinTexts (ss ++ [t])) = some (F.conjoined G).enclosed := by
    rw [conjoinTexts_concat hne]
    exact readFrame_conjoinText h.frame hG h.waiting
  have hopening : (F.conjoined G).opening = .symbol '(' :=
    opening_of_readFrame (readFrame_and h.frame hG h.waiting)
  have hformula : (F.conjoined G).enclosed.formula = (F.conjoined G).formula :=
    Frame.formula_enclosed hopening (Frame.isQuery_conjoined h.waiting h.isQuery)
  have hall : (∀ s ∈ ss ++ [t], ¬ Divided s) ↔ (∀ s ∈ ss, ¬ Divided s) ∧ G.disjuncts = [] := by
    rw [List.forall_mem_append, List.forall_mem_singleton, divided_iff hG, not_not]
  refine ⟨hread, rfl, Frame.isQuery_enclosed hopening, ?_, ?_, ?_, ?_⟩
  · exact List.rel_append h.formulas (.cons (by rw [readFormula, hG]; rfl) .nil)
  · exact iff_of_true rfl (.inl hlen)
  · rw [hformula, List.flatMap_append, List.flatMap_singleton, or_iff_right hlen, hall]
    by_cases hboth : F.disjuncts = [] ∧ G.disjuncts = []
    · have hF0 := h.undivided.mp hboth.1
      rw [(Frame.conjuncts_conjoined_iff h.waiting).mpr hboth, List.append_left_inj, h.conjuncts]
      tauto
    · have hD : (F.conjoined G).disjuncts ≠ [] := fun hD =>
        hboth ((Frame.conjoined_undivided_iff h.waiting).mp hD)
      have hfs : fs ≠ [] := by
        intro hnil
        have hsame := h.formulas.length_eq
        rw [hnil] at hsame
        exact hne (List.length_eq_zero_iff.mp hsame)
      have hleft := List.length_pos_iff.mpr (Formula.flatMap_conjuncts_ne_nil hfs)
      have hright := List.length_pos_iff.mpr G.formula.conjuncts_ne_nil
      refine iff_of_false (fun heq => ?_) fun hss => ?_
      · rw [Frame.conjuncts_of_divided hD] at heq
        have hsum := congrArg List.length heq
        rw [List.length_append, List.length_singleton] at hsum
        omega
      · exact hboth ⟨h.undivided.mpr (.inr hss.1), hss.2⟩
  · intro hundivided V
    obtain ⟨hss, hG0⟩ := hall.mp (hundivided.resolve_left hlen)
    have hF0 : F.disjuncts = [] := h.undivided.mpr (.inr hss)
    rw [hformula, Frame.truth_conjoined h.waiting hF0 hG0, h.truth (.inr hss), List.map_append,
      Truth.all_append]
    simp [Truth.all]

theorem ReadsAll.passes_iff {texts : List String} {F : Frame} {fs : List Formula}
    (h : ReadsAll texts F fs) (hu : texts.length = 1 ∨ ∀ s ∈ texts, ¬ Divided s)
    (V : List Token → Truth) : F.formula.truth V = .yes ↔ ∀ f ∈ fs, f.truth V = .yes := by
  rw [h.truth hu, Truth.all_eq_yes, List.forall_mem_map]

theorem readsAll {texts : List String} (hne : texts ≠ []) (h : ∀ s ∈ texts, Complete s) :
    ∃ (F : Frame) (fs : List Formula), ReadsAll texts F fs := by
  induction texts using List.reverseRecOn with
  | nil => exact absurd rfl hne
  | append_singleton ss t ih =>
    rw [List.forall_mem_append, List.forall_mem_singleton] at h
    obtain ⟨hss, G, hG, hw, hq⟩ := h
    by_cases hnil : ss = []
    · rw [hnil]
      exact ⟨G, [G.formula], readsAll_singleton hG hw hq⟩
    · obtain ⟨F, fs, hF⟩ := ih hnil hss
      exact ⟨_, _, hF.concat hnil hG⟩

end RelQuery
