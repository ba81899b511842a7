import Mathlib.Data.List.Forall2
import RelQuery.Json.Reader
import RelQuery.Proofs.Json.Numerals
import RelQuery.Proofs.Json.Strings

/-!
# Documents read back

A text writes a document when the reader takes its tokens, at any place where a value may stand, for
that document. Each form of text is shown to write one from the texts inside it.
-/

set_option autoImplicit false

namespace RelQuery.Json

theorem tokens?_of_scanToken {s rest : List Char} {t : Token}
    (hblank : ∀ c ∈ s.head?, isBlank c = false) (h : scanToken s = some (t, rest)) :
    tokens? s = (tokens? rest).map (t :: ·) := by
  cases s with
  | nil => cases h
  | cons c s =>
    have hc := hblank c rfl
    rw [tokens?, if_neg (by simp [hc])]
    split
    · rename_i hnone
      cases h.symm.trans hnone
    · rename_i hsome
      cases h.symm.trans hsome
      rfl

theorem tokens?_mark {c : Char} {t : Token} (r : List Char) (h : scanToken (c :: r) = some (t, r))
    (hblank : isBlank c = false) : tokens? (c :: r) = (tokens? r).map (t :: ·) := by
  apply tokens?_of_scanToken _ h
  intro d hd
  cases hd
  exact hblank

/-- A text writes a document: its tokens stand before those of what follows it, and the reader
that expects a value closes the document with them. -/
def Writes (text : List Char) (d : Document) : Prop :=
  ∃ ts, (∀ r, Ends r → tokens? (text ++ r) = (tokens? r).map (ts ++ ·)) ∧
    ∀ frames, (Reader.value frames).run ts = some (close d frames)

theorem ends_nil : Ends [] :=
  nofun

theorem ends_cons {c : Char} {r : List Char}
    (h : isDigit c = false ∧ c ≠ '.' ∧ c ≠ 'e' ∧ c ≠ 'E') : Ends (c :: r) := by
  intro d hd
  cases hd
  exact h

theorem Writes.ofText? {s : String} {d : Document} (h : Writes s.toList d) :
    Document.ofText? s = some d := by
  obtain ⟨ts, htokens, hrun⟩ := h
  have hts : tokens? s.toList = some ts := by
    have hall := htokens [] ends_nil
    rw [List.append_nil, tokens?, Option.map_some, List.append_nil] at hall
    exact hall
  rw [Document.ofText?, hts]
  show ((Reader.value []).run ts).bind _ = _
  rw [hrun []]
  rfl

theorem writes_word {text : List Char} {t : Token} {d : Document}
    (hblank : ∀ r, ∀ c ∈ (text ++ r).head?, isBlank c = false)
    (hscan : ∀ r, Ends r → scanToken (text ++ r) = some (t, r))
    (hstep : ∀ frames, beginValue frames t = some (close d frames)) : Writes text d := by
  refine ⟨[t], fun r hr => ?_, fun frames => ?_⟩
  · rw [tokens?_of_scanToken (hblank r) (hscan r hr)]
    rfl
  · rw [Reader.run, Reader.step, hstep]
    rfl

theorem writes_null : Writes "null".toList .null := by
  apply writes_word (t := .null)
  · intro r c hc
    cases hc
    decide
  · intro r _
    rfl
  · intro frames
    rfl

theorem quoted_head (s : String) (r : List Char) :
    ∀ c ∈ ((quoted s).toList ++ r).head?, isBlank c = false := by
  intro c hc
  rw [quoted, String.toList_ofList] at hc
  cases hc
  decide

theorem writes_quoted (s : String) : Writes (quoted s).toList (.string (some s)) := by
  apply writes_word (t := .string (some s))
  · exact quoted_head s
  · exact fun r _ => scanToken_quoted s r
  · intro frames
    rfl

theorem isBlank_of_isDigit {c : Char} (h : isDigit c = true) : isBlank c = false := by
  rw [Bool.eq_false_iff]
  intro hblank
  simp only [isBlank, Bool.or_eq_true, beq_iff_eq] at hblank
  obtain ((rfl | rfl) | rfl) | rfl := hblank <;> exact absurd h (by decide)

theorem writes_numeral {p : Spelling} (hp : p.Proper) (negative : Bool) :
    Writes ((if negative then ['-'] else []) ++ p.text) (.number (p.numeral negative)) := by
  apply writes_word (t := .number (p.numeral negative))
  · intro r c hc
    obtain ⟨first, rest, hwhole⟩ := List.exists_cons_of_ne_nil hp.nonempty
    have hfirst : isDigit first = true := hp.whole first (hwhole ▸ List.mem_cons_self)
    cases negative with
    | true =>
      cases hc
      decide
    | false =>
      rw [Spelling.text, hwhole] at hc
      cases hc
      exact isBlank_of_isDigit hfirst
  · exact fun r hr => scanToken_text hp negative hr
  · intro frames
    rfl

theorem run_firstItem {ts : List Token} {d : Document}
    (h : ∀ frames, (Reader.value frames).run ts = some (close d frames)) (frames : List Frame) :
    (Reader.firstItem frames).run ts = some (.afterItem [d] frames) := by
  cases ts with
  | nil => cases h (.array [] :: frames)
  | cons t ts =>
    have hrun := h (.array [] :: frames)
    rw [Reader.run, Reader.step] at hrun
    have hopen : t ≠ .closeBracket := by
      rintro rfl
      cases hrun
    rw [Reader.run, Reader.step]
    · exact hrun
    · exact hopen

theorem ends_items (texts : List (List Char)) {r : List Char} (h : Ends r) :
    Ends (texts.flatMap (',' :: ·) ++ r) := by
  cases texts with
  | nil => exact h
  | cons text texts => exact ends_cons (by decide)

theorem tokens_items {texts : List (List Char)} {items : List Document}
    (h : List.Forall₂ Writes texts items) : ∃ ts,
      (∀ r, Ends r → tokens? (texts.flatMap (',' :: ·) ++ r) = (tokens? r).map (ts ++ ·)) ∧
      ∀ done frames, (Reader.afterItem done frames).run ts =
        some (.afterItem (items.reverse ++ done) frames) := by
  induction h with
  | nil =>
    refine ⟨[], fun r _ => ?_, fun done frames => rfl⟩
    simp
  | @cons text item texts items hitem _ ih =>
    obtain ⟨us, hus, hrunitem⟩ := hitem
    obtain ⟨ts, hts, hrun⟩ := ih
    refine ⟨.comma :: (us ++ ts), fun r hr => ?_, fun done frames => ?_⟩
    · rw [List.flatMap_cons, List.cons_append, List.cons_append, List.append_assoc,
        tokens?_mark _ rfl rfl, hus _ (ends_items texts hr), hts r hr, Option.map_map,
        Option.map_map]
      simp [Function.comp_def]
    · rw [Reader.run]
      show ((Reader.value (.array done :: frames)).run (us ++ ts)) = _
      rw [Reader.run_append, hrunitem]
      show (Reader.afterItem (item :: done) frames).run ts = _
      rw [hrun]
      simp

theorem intercalate_cons (sep : Char) (text : List Char) (texts : List (List Char)) :
    [sep].intercalate (text :: texts) = text ++ texts.flatMap (sep :: ·) := by
  induction texts generalizing text with
  | nil => simp
  | cons next texts ih => simp [List.intercalate_cons_cons, ih]

theorem writes_array {texts : List (List Char)} {items : List Document}
    (h : List.Forall₂ Writes texts items) :
    Writes ('[' :: [','].intercalate texts ++ [']']) (.array items) := by
  cases h with
  | nil =>
    refine ⟨[.openBracket, .closeBracket], fun r _ => ?_, fun frames => rfl⟩
    show tokens? ('[' :: ']' :: r) = _
    rw [tokens?_mark _ rfl rfl, tokens?_mark _ rfl rfl, Option.map_map]
    rfl
  | @cons text item texts items hitem hrest =>
    obtain ⟨us, hus, hrunitem⟩ := hitem
    obtain ⟨ts, hts, hrun⟩ := tokens_items hrest
    refine ⟨.openBracket :: (us ++ ts ++ [.closeBracket]), fun r hr => ?_, fun frames => ?_⟩
    · have hbracket : Ends (']' :: r) := ends_cons (by decide)
      have htext : '[' :: [','].intercalate (text :: texts) ++ [']'] ++ r =
          '[' :: (text ++ (texts.flatMap (',' :: ·) ++ ']' :: r)) := by
        simp [intercalate_cons]
      rw [htext, tokens?_mark _ rfl rfl, hus _ (ends_items texts hbracket), hts _ hbracket,
        tokens?_mark _ rfl rfl]
      simp [Function.comp_def]
    · rw [Reader.run]
      show (Reader.firstItem frames).run (us ++ ts ++ [.closeBracket]) = _
      rw [Reader.run_append, Reader.run_append, run_firstItem hrunitem, Option.bind_some, hrun]
      simp [Reader.run, Reader.step]

theorem writes_field (name : String) {text : List Char} {d : Document} (h : Writes text d) :
    Writes ('\x7b' :: (quoted name).toList ++ ':' :: text ++ ['\x7d'])
      (.object [(some name, d)]) := by
  obtain ⟨ts, hts, hrun⟩ := h
  refine ⟨.openBrace :: .string (some name) :: .colon :: (ts ++ [.closeBrace]), fun r hr => ?_,
    fun frames => ?_⟩
  · have hname : tokens? ((quoted name).toList ++ ':' :: (text ++ '\x7d' :: r)) =
        (tokens? (':' :: (text ++ '\x7d' :: r))).map (.string (some name) :: ·) :=
      tokens?_of_scanToken (quoted_head name _) (scanToken_quoted name _)
    have htext : '\x7b' :: (quoted name).toList ++ ':' :: text ++ ['\x7d'] ++ r =
        '\x7b' :: ((quoted name).toList ++ ':' :: (text ++ '\x7d' :: r)) := by simp
    rw [htext, tokens?_mark _ rfl rfl, hname, tokens?_mark _ rfl rfl,
      hts _ (ends_cons (by decide)), tokens?_mark _ rfl rfl]
    simp [Function.comp_def]
  · show (Reader.value (.object [] (some name) :: frames)).run (ts ++ [.closeBrace]) = _
    rw [Reader.run_append, hrun]
    rfl

end RelQuery.Json
