import RelQuery.Engine.Catalog
import RelQuery.Proofs.Text.Definitions

/-!
# Row ids of catalogued tables

Whether the rows of a table have ids is told by its definition, in which the engine seeks the words
that take them away. It seeks one spelling in all of the text, and so overlooks the words where a
line is broken between them, and takes a default or a comment for them.
-/

set_option autoImplicit false

namespace RelQuery.CatalogEngine

open Text

theorem withoutRowId_eq_true_iff (definition : String) : withoutRowId definition = true ↔
    DeclaresWith [' '] definition.toList ∨ Imitates definition.toList :=
  occurs_rowId_iff definition.toList

/-- The rows of a table are said to have no ids exactly if the two words stand among the options in
its definition with a single space between them, or elsewhere in it. That is what its tokens say,
unless all such options are spelled otherwise, or there are none and something looks like them. -/
theorem hasRowId_right_iff {e : CatalogEngine} {table name d : String} {ts : List Token}
    (hentry : e.entries.find? (sameName ·.name table) = some ⟨.table, name, some d⟩)
    (htokens : tokens? d = some ts) :
    (WithoutRowId ts ↔ ∃ gap, IsGap gap ∧ DeclaresWith gap d.toList) ∧
      (∃ answer, e.hasRowId table = .ok answer ∧
        (answer = false ↔ DeclaresWith [' '] d.toList ∨ Imitates d.toList)) ∧
      ((e.hasRowId table = .ok false ↔ WithoutRowId ts) ↔
        (WithoutRowId ts → DeclaresWith [' '] d.toList ∨ Imitates d.toList) ∧
          (Imitates d.toList → WithoutRowId ts)) := by
  have hread := withoutRowId_iff htokens
  have hanswer : e.hasRowId table = .ok (!withoutRowId d) := by
    rw [hasRowId, hentry]
    rfl
  have hfalse : e.hasRowId table = .ok false ↔
      DeclaresWith [' '] d.toList ∨ Imitates d.toList := by
    rw [hanswer, ← withoutRowId_eq_true_iff]
    cases withoutRowId d <;> simp
  refine ⟨hread, ⟨_, hanswer, ?_⟩, ?_⟩
  · rw [Bool.not_eq_false', withoutRowId_eq_true_iff]
  · rw [hfalse]
    constructor
    · exact fun h => ⟨h.mpr, fun himitates => h.mp (.inr himitates)⟩
    · rintro ⟨hseen, himitates⟩
      refine ⟨?_, hseen⟩
      rintro (hdeclares | h)
      · exact hread.mpr ⟨_, isGap_space, hdeclares⟩
      · exact himitates h

def ofDefinition (name definition : String) : CatalogEngine where
  entries := [⟨.table, name, some definition⟩]
  columns := []
  echo := none

/-- Parentheses in a literal and in a comment are none of the column list. -/
def tagsColumns : String :=
  "CREATE TABLE tags (tag DEFAULT ')' PRIMARY KEY) /* ) */ "

def tagsDefinition : String :=
  tagsColumns ++ "without rowid"

set_option maxRecDepth 1000 in
theorem tags_read :
    (ofDefinition "tags" tagsDefinition).entries.find? (sameName ·.name "TAGS") =
      some ⟨.table, "tags", some tagsDefinition⟩ ∧
    ∃ ts, tokens? tagsDefinition = some ts ∧ WithoutRowId ts ∧
      (ofDefinition "tags" tagsDefinition).hasRowId "TAGS" = .ok false := by
  have hentry : (ofDefinition "tags" tagsDefinition).entries.find? (sameName ·.name "TAGS") =
      some ⟨.table, "tags", some tagsDefinition⟩ := rfl
  have hcomplete : (tokens? tagsDefinition).isSome = true := rfl
  obtain ⟨ts, htokens⟩ := Option.isSome_iff_exists.mp hcomplete
  have hdeclares : DeclaresWith [' '] tagsDefinition.toList :=
    ⟨tagsColumns.toList, "without".toList, "rowid".toList, [], rfl, rfl, rfl,
      ⟨⟨_, rfl, rfl⟩, rfl, nofun⟩⟩
  obtain ⟨hread, -, hright⟩ := hasRowId_right_iff hentry htokens
  have hwithout : WithoutRowId ts := hread.mpr ⟨[' '], isGap_space, hdeclares⟩
  refine ⟨hentry, ts, htokens, hwithout, ?_⟩
  exact (hright.mpr ⟨fun _ => .inl hdeclares, fun _ => hwithout⟩).mpr hwithout

def notesDefinition : String :=
  "CREATE TABLE t (a PRIMARY KEY) WITHOUT\nROWID"

theorem notes_misread : ∃ ts, tokens? notesDefinition = some ts ∧ WithoutRowId ts ∧
    (ofDefinition "t" notesDefinition).hasRowId "t" = .ok true :=
  ⟨_, rfl, ⟨[], [], _, _, rfl, rfl, rfl⟩, rfl⟩

end RelQuery.CatalogEngine
