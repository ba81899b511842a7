import RelQuery.Proofs.Query.Rows
import RelQuery.Query.Request

/-!
# Counts of queries with aggregates

A query with an aggregate and without GROUP BY yields one row or none. A count query that takes it
as a subquery counts that. A count query over its source counts the rows that the aggregate has
folded, and agrees with the number of rows only by chance.
-/

set_option autoImplicit false

namespace RelQuery.Query

/-- The number in the only column of the first row, or zero without a row. -/
def counted {ρ : Type} (m : Reading ρ) (c : Query) : Int64 :=
  match c.rows m with
  | [.integer n] :: _ => n
  | _ => 0

/-- Counts the rows of another query, whatever tables hold and expressions are worth. -/
def Counts (c q : Query) : Prop :=
  ∀ {ρ : Type} (m : Reading ρ), c.counted m = .ofNat (q.rows m).length

/-- Grouped or limited, not over a plain table, distinct in other than one expression, or the star
of something else than its source. -/
def CountedApart (q : Query) : Prop :=
  q.grouping ≠ [] ∨ q.limit ≠ none ∨ q.rootTable? = none ∨
    (q.distinct = true ∧ ∀ e aliasName, q.selection ≠ [.expr e aliasName]) ∨
      ∃ id, q.selection = [.star id] ∧ q.rootTable? ≠ some id

inductive RowCount : Expr → Prop
  | all : RowCount .countAll
  | distinct (e : Expr) : RowCount (.countDistinct e)

/-- What a query is counted by over its own source: its rows, or the values of the only expression
if that is distinct. -/
inductive CountOf (q : Query) : Expr → Prop
  | all (hd : q.distinct = false) : CountOf q .countAll
  | distinct {e : Expr} {aliasName : Option String} (hd : q.distinct = true)
    (hs : q.selection = [.expr e aliasName]) : CountOf q (.countDistinct e)

variable {q : Query}

theorem CountOf.rowCount {c : Expr} (h : q.CountOf c) : RowCount c := by
  cases h with
  | all => exact .all
  | distinct => exact .distinct _

theorem countQueryIn_of_apart (h : q.CountedApart) (scope : Nat) :
    q.countQueryIn scope = q.countWrapped scope := by
  rw [countQueryIn]
  split
  · rfl
  rename_i hplain
  split
  · rfl
  rename_i root hroot
  rcases h with h | h | h | ⟨hd, he⟩ | ⟨id, hs, hid⟩
  · simp [h] at hplain
  · simp [Option.isSome_iff_ne_none, h] at hplain
  · rw [h] at hroot
    cases hroot
  · rcases hs : q.selection with _ | ⟨_ | ⟨e, aliasName⟩, _ | _⟩
    · simp [hd]
    · simp [hd]
    · simp [hd]
    · exact absurd hs (he e aliasName)
    · simp [hd]
  · have hne : id ≠ root := fun heq => hid (heq ▸ hroot)
    simp [hs, hne]

theorem undistinct (hd : q.distinct = false) : ({ q with distinct := false } : Query) = q := by
  cases q
  cases hd
  rfl

theorem countQueryIn_of_not_apart (h : ¬ q.CountedApart) :
    (q.grouping = [] ∧ q.limit = none ∧ q.rootTable? ≠ none) ∧
      ∃ c, q.CountOf c ∧
        ∀ scope, q.countQueryIn scope = countBy { q with distinct := false } c := by
  simp only [CountedApart, not_or, not_and, not_exists, ne_eq, not_not] at h
  obtain ⟨hgrouping, hlimit, hroot, hdistinct, hstar⟩ := h
  refine ⟨⟨hgrouping, hlimit, hroot⟩, ?_⟩
  obtain ⟨root, hroot⟩ := Option.ne_none_iff_exists'.mp hroot
  cases hd : q.distinct with
  | true =>
    -- only a single expression is left
    have hone : ∃ e aliasName, q.selection = [.expr e aliasName] := by
      simpa using hdistinct hd
    obtain ⟨e, aliasName, hs⟩ := hone
    refine ⟨.countDistinct e, .distinct hd hs, fun scope => ?_⟩
    simp [countQueryIn, hgrouping, hlimit, hroot, hs, hd]
  | false =>
    refine ⟨.countAll, .all hd, fun scope => ?_⟩
    rw [undistinct hd, countQueryIn, hgrouping, hlimit, hroot]
    rcases hs : q.selection with _ | ⟨id | ⟨e, aliasName⟩, _ | _⟩
    · simp [hd]
    · have hid : id = root := Option.some.inj ((hstar id hs).symm.trans hroot)
      simp [hd, hid]
    · simp [hd]
    · simp [hd]
    · simp [hd]

theorem counts_wrapped (q : Query) (scope : Nat) : (q.countWrapped scope).Counts q := by
  intro ρ m
  have hkept : (q.countWrapped scope).kept m = (q.rows m).map m.derived := by
    rw [← rows_unordered m q]
    exact List.filter_eq_self.mpr fun _ _ => rfl
  have hrows : (q.countWrapped scope).rows m = [[.ofCount (q.rows m).length]] := by
    rw [rows_aggregated rfl rfl rfl, hkept]
    show [[Value.ofCount ((q.rows m).map m.derived).length]] = _
    rw [List.length_map]
  rw [counted, hrows]
  rfl

theorem rows_countBy {ρ : Type} (m : Reading ρ) {e : Expr} (he : RowCount e)
    (hg : q.grouping = []) (hl : q.limit = none) :
    (q.countBy e).rows m =
      if q.having.all (m.passes · (q.kept m)) then [[m.worth (q.kept m) e]] else [] := by
  have ha : (q.countBy e).aggregates = true := by
    cases he <;> rfl
  exact rows_aggregated hg ha hl

/-- Two rows in every table, told apart by every expression, that pass every condition. -/
def twoRows : Reading Bool where
  table := fun _ => [false, true]
  derived := fun _ => false
  joined := fun _ => []
  blank := false
  columns := fun _ _ => []
  value := fun _ group => if group = [true] then .integer 1 else .integer 0
  passes := fun _ _ => true
  aggregates := fun _ => false

theorem kept_twoRows (hroot : q.rootTable? ≠ none) : q.kept twoRows = [false, true] := by
  obtain ⟨root, hroot⟩ := Option.ne_none_iff_exists'.mp hroot
  obtain ⟨name, hfrom⟩ := fromRows_of_rootTable (m := twoRows) hroot
  rw [kept, hfrom]
  cases q.condition <;> rfl

theorem having_twoRows (having : Option Expr) (group : List Bool) :
    having.all (twoRows.passes · group) = true := by
  cases having <;> rfl

theorem rows_countBy_twoRows {e : Expr} (he : RowCount e) (hg : q.grouping = [])
    (hl : q.limit = none) (hroot : q.rootTable? ≠ none) :
    (q.countBy e).rows twoRows = [[.integer 2]] := by
  rw [rows_countBy twoRows he hg hl, if_pos (having_twoRows _ _), kept_twoRows hroot]
  cases he <;> rfl

/-- A count over a table does not count the row of an aggregate. -/
theorem not_counts_countBy {e : Expr} (he : RowCount e) (hg : q.grouping = [])
    (hl : q.limit = none) (hroot : q.rootTable? ≠ none) (ha : q.aggregates = true) :
    ¬ (countBy { q with distinct := false } e).Counts q := by
  have hrows : (q.rows twoRows).length = 1 := by
    rw [rows_aggregated hg ha hl, if_pos (having_twoRows _ _)]
    rfl
  have hcount : (countBy { q with distinct := false } e).rows twoRows = [[.integer 2]] :=
    rows_countBy_twoRows he hg hl hroot
  intro hcounts
  have heq := hcounts twoRows
  rw [counted, hcount, hrows] at heq
  exact absurd heq (by decide)

/-- The count query of an aggregate query is right in all cases only if it counts apart. -/
theorem counts_countQueryIn_iff (hg : q.grouping = []) (ha : q.aggregates = true) (scope : Nat) :
    (q.countQueryIn scope).Counts q ↔ q.CountedApart := by
  constructor
  · intro hcounts
    by_contra hnot
    obtain ⟨⟨-, hl, hroot⟩, e, he, hcount⟩ := countQueryIn_of_not_apart hnot
    rw [hcount scope] at hcounts
    exact not_counts_countBy he.rowCount hg hl hroot ha hcounts
  · intro hapart
    rw [countQueryIn_of_apart hapart scope]
    exact counts_wrapped q scope

theorem countQueryIn_aggregated (q : Query) (scope : Nat) :
    (q.countQueryIn scope).grouping = [] ∧ (q.countQueryIn scope).aggregates = true ∧
      ((q.countQueryIn scope).CountedApart ↔ q.CountedApart) := by
  by_cases hapart : q.CountedApart
  · rw [countQueryIn_of_apart hapart scope]
    exact ⟨rfl, rfl, iff_of_true (.inr (.inr (.inl rfl))) hapart⟩
  · obtain ⟨⟨hg, hl, hroot⟩, e, he, hcount⟩ := countQueryIn_of_not_apart hapart
    rw [hcount scope]
    refine ⟨hg, by cases he.rowCount <;> rfl, iff_of_false ?_ hapart⟩
    rintro (h | h | h | ⟨h, -⟩ | ⟨id, h, -⟩)
    · exact h hg
    · exact h hl
    · exact hroot h
    · cases h
    · cases h

/-- A query with an aggregate and without groups yields at most one row, and its count query counts
that row in all cases exactly where it takes the query as a subquery. The count query of a count
query counts its single row exactly where the first of them is a count of a subquery. -/
theorem counts_of_aggregates (q : Query) :
    (q.grouping = [] → q.aggregates = true →
      (∀ {ρ : Type} (m : Reading ρ), (q.rows m).length ≤ 1) ∧
        ∀ scope, ((q.countQueryIn scope).Counts q ↔ q.CountedApart)) ∧
    ∀ scope scope', ((q.countQueryIn scope).countQueryIn scope').Counts (q.countQueryIn scope) ↔
      q.CountedApart := by
  refine ⟨fun hg ha => ⟨fun m => length_rows_aggregated hg ha, counts_countQueryIn_iff hg ha⟩, ?_⟩
  intro scope scope'
  obtain ⟨hg, ha, hapart⟩ := countQueryIn_aggregated q scope
  exact (counts_countQueryIn_iff hg ha scope').trans hapart

def manyBooks : Query :=
  ((((table 0 "books").select [.expr (.column none "title") none]).filterGroups
    (.binary .greater .countAll (.value (.integer 10)))).limitTo 1 none)

theorem manyBooks_counted : manyBooks.grouping = [] ∧ manyBooks.aggregates = true ∧
    (∀ {ρ : Type} (m : Reading ρ), (manyBooks.rows m).length ≤ 1) ∧
      (manyBooks.countQueryIn 1).Counts manyBooks := by
  obtain ⟨hrows, hcounts⟩ := (counts_of_aggregates manyBooks).1 rfl rfl
  exact ⟨rfl, rfl, hrows, (hcounts 1).mpr (.inr (.inl nofun))⟩

def bookCount : Query :=
  (table 0 "books").select [.expr .countAll none]

/-- The one row of the number of books is counted as many times as there are books, and so is the
number of that row. -/
theorem bookCount_miscounted :
    bookCount.grouping = [] ∧ bookCount.aggregates = true ∧
      (bookCount.rows twoRows).length = 1 ∧
      (bookCount.countQueryIn 1).counted twoRows = 2 ∧
      ((bookCount.countQueryIn 1).countQueryIn 2).counted twoRows = 2 ∧
      ¬ (bookCount.countQueryIn 1).Counts bookCount ∧
      (Request.query (bookCount.countQueryIn 1)).compile
        ⟨fun _ => .ok ["title"], fun _ => .ok true, Text.quoteIdentifier⟩ =
          .ok ⟨"SELECT COUNT(*) FROM \"books\"", []⟩ := by
  refine ⟨rfl, rfl, rfl, rfl, rfl, fun hcounts => ?_, rfl⟩
  exact absurd (hcounts twoRows) (by decide)

end RelQuery.Query
