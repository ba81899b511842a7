import RelQuery.Fetch
import RelQuery.Proofs.Row.Spans

/-!
# Rows of a sequence

A sequence shows the rows that its passes step to, and copies of them. Its columns and its view
are the same in every pass. All that is fetched is shown by the sequence of the request.
-/

set_option autoImplicit false

namespace RelQuery

namespace Fetch

variable {α β : Type}

def runIn (m : Fetch α) (s : Session) : Outcome α × Session :=
  m.run.run s

theorem runIn_bind (m : Fetch α) (k : α → Fetch β) (s : Session) :
    (m >>= k).runIn s =
      match m.runIn s with
      | (.ok a, t) => (k a).runIn t
      | (.error f, t) => (.error f, t) := by
  show (m.run.run s >>= fun p => (ExceptT.bindCont k p.1).run p.2 : Id _) = _
  rw [runIn]
  rcases m.run.run s with ⟨_ | a, t⟩ <;> rfl

theorem runIn_pure (a : α) (s : Session) : (pure a : Fetch α).runIn s = (.ok a, s) := rfl

theorem runIn_get (s : Session) : (get : Fetch Session).runIn s = (.ok s, s) := rfl

theorem runIn_ofOutcome (r : Outcome α) (s : Session) : (ofOutcome r).runIn s = (r, s) := rfl

theorem runIn_record (call : EngineCall) (s : Session) :
    (record call).runIn s = (.ok (), { s with calls := s.calls ++ [call] }) := rfl

theorem runIn_bind_eq_ok {m : Fetch α} {k : α → Fetch β} {s u : Session} {b : β}
    (h : (m >>= k).runIn s = (.ok b, u)) :
    ∃ a t, m.runIn s = (.ok a, t) ∧ (k a).runIn t = (.ok b, u) := by
  rw [runIn_bind] at h
  rcases hm : m.runIn s with ⟨f | a, t⟩
  · rw [hm] at h
    cases h
  · rw [hm] at h
    exact ⟨a, t, rfl, h⟩

end Fetch

theorem RowSequence.start_runIn (seq : RowSequence) (s : Session) : seq.start.runIn s =
    ((Outcome.ofRefusable (s.engine.run seq.statement seq.arguments)).map
      (⟨·, seq.statement.columns, seq.view⟩),
        { s with calls := s.calls ++ [.run seq.arguments] }) := by
  simp only [start, Fetch.runIn_bind, Fetch.runIn_get, Fetch.runIn_record, Fetch.runIn_ofOutcome]
  cases Outcome.ofRefusable (s.engine.run seq.statement seq.arguments) <;> rfl

def Request.view (schema : Schema) (r : Request) (columns : List String) :
    Outcome (Option View) := do
  match ← r.shape? schema with
  | some shape => do
    let view ← Outcome.ofRefusable (shape.resolve columns)
    pure (some view)
  | none => pure none

def Request.sequence (e : Engine) (r : Request) (compiled : Compiled) : Outcome RowSequence := do
  let statement ← Outcome.ofRefusable (e.prepare compiled.sql)
  let view ← r.view e.schema statement.columns
  pure ⟨statement, compiled.arguments, view⟩

theorem fetch_compiled {r : Request} {e : Engine} {compiled : Compiled}
    (hc : r.compile e.schema = .ok compiled) (log : List EngineCall) :
    (fetch r).runIn ⟨e, log⟩ = (r.sequence e compiled, ⟨e, log ++ [.prepare compiled.sql]⟩) := by
  simp only [fetch, Fetch.runIn_bind, Fetch.runIn_get, Fetch.runIn_record, Fetch.runIn_ofOutcome,
    hc]
  rw [Request.sequence]
  rcases Outcome.ofRefusable (e.prepare compiled.sql) with _ | st
  · rfl
  · simp only [Request.view]
    rcases r.shape? e.schema with _ | _ | shape
    · rfl
    · rfl
    · simp only [Fetch.runIn_bind, Fetch.runIn_ofOutcome]
      rcases hv : Outcome.ofRefusable (shape.resolve st.columns) with _ | view
      · simp only [hv, bind, Except.bind]
      · simp only [hv, bind, Except.bind]
        rfl

theorem fetch_uncompiled {r : Request} {e : Engine} {f : Failure}
    (hc : r.compile e.schema = .error f) (log : List EngineCall) :
    (fetch r).runIn ⟨e, log⟩ = (.error f, ⟨e, log⟩) := by
  simp only [fetch, Fetch.runIn_bind, Fetch.runIn_get, Fetch.runIn_ofOutcome, hc]

section Prepared

variable {r : Request} {s : Session} {compiled : Compiled} {st : Statement}

theorem fetch_plain (hc : r.compile s.engine.schema = .ok compiled)
    (hp : s.engine.prepare compiled.sql = .ok st) (hs : r.shape? s.engine.schema = .ok none) :
    (fetch r).runIn s = (.ok ⟨st, compiled.arguments, none⟩,
      { s with calls := s.calls ++ [.prepare compiled.sql] }) := by
  obtain ⟨e, log⟩ := s
  rw [fetch_compiled hc, Request.sequence, hp]
  simp only [Request.view, Outcome.ofRefusable, bind, Except.bind, hs]
  rfl

theorem fetch_shaped {shape : Shape} {view : View}
    (hc : r.compile s.engine.schema = .ok compiled)
    (hp : s.engine.prepare compiled.sql = .ok st)
    (hs : r.shape? s.engine.schema = .ok (some shape))
    (hv : shape.resolve st.columns = .ok view) :
    (fetch r).runIn s = (.ok ⟨st, compiled.arguments, some view⟩,
      { s with calls := s.calls ++ [.prepare compiled.sql] }) := by
  obtain ⟨e, log⟩ := s
  rw [fetch_compiled hc, Request.sequence, hp]
  simp only [Request.view, Outcome.ofRefusable, bind, Except.bind, hs, hv]
  rfl

end Prepared

namespace Pass

def skip (p : Pass) : Nat → Pass
  | 0 => p
  | k + 1 => p.next.2.skip k

theorem skip_eq (p : Pass) (k : Nat) :
    (p.skip k).cursor.rows = p.cursor.rows ∧ (p.skip k).columns = p.columns ∧
      (p.skip k).view = p.view := by
  induction k generalizing p with
  | zero => exact ⟨rfl, rfl, rfl⟩
  | succ k ih =>
    obtain ⟨hrows, hcolumns, hview⟩ := ih p.next.2
    exact ⟨hrows.trans p.cursor.step_rows, hcolumns, hview⟩

theorem mem_rows_of_step {c : Cursor} {values : List Value} (h : c.step.1 = .ok (some values)) :
    values ∈ c.rows := by
  have hrow : c.rows[c.steps]? = some values := by
    rw [Cursor.step] at h
    split at h
    · split at h
      · cases h
      · simpa using h
    · simpa using h
  exact List.mem_of_getElem? hrow

end Pass

def Row.seenAs (base : Row) : Option View → Row
  | some view => .adapted base view
  | none => base

theorem Pass.row_eq (p : Pass) (values : List Value) :
    p.row values = (Row.live values p.columns).seenAs p.view := by
  rw [row]
  cases p.view <;> rfl

/-- A row of a sequence: one that a pass steps to, where `values` are those of the engine, or a
copy. -/
inductive RowSequence.Shows (e : Engine) (seq : RowSequence) (values : List Value) : Row → Prop
  | step {calls : List EngineCall} {p : Pass} {t : Session} {row : Row} {k : Nat}
    (hp : seq.start.runIn ⟨e, calls⟩ = (.ok p, t))
    (hv : (p.skip k).cursor.step.1 = .ok (some values))
    (hr : (p.skip k).next.1 = .ok (some row)) : Shows e seq values row
  | copy {row : Row} (h : Shows e seq values row) : Shows e seq values row.copy

namespace RowSequence

variable {e : Engine} {seq : RowSequence} {values : List Value}

theorem start_eq_ok {s t : Session} {p : Pass} (h : seq.start.runIn s = (.ok p, t)) :
    ∃ cursor, s.engine.run seq.statement seq.arguments = .ok cursor ∧
      p = ⟨cursor, seq.statement.columns, seq.view⟩ := by
  rw [start_runIn] at h
  obtain ⟨cursor, hrun, hp⟩ := Outcome.map_eq_ok.mp (congrArg Prod.fst h)
  exact ⟨cursor, Outcome.ofRefusable_eq_ok.mp hrun, hp.symm⟩

theorem Shows.mem {row : Row} (h : seq.Shows e values row) :
    ∃ cursor, e.run seq.statement seq.arguments = .ok cursor ∧ values ∈ cursor.rows := by
  induction h with
  | @step calls p t row k hp hv hr =>
    obtain ⟨cursor, hrun, rfl⟩ := start_eq_ok hp
    have hmem := Pass.mem_rows_of_step hv
    rw [(Pass.skip_eq _ k).1] at hmem
    exact ⟨cursor, hrun, hmem⟩
  | copy _ ih => exact ih

theorem Shows.row_eq {row : Row} (h : seq.Shows e values row) :
    ∃ base, Row.Base seq.statement.columns values base ∧ row = base.seenAs seq.view := by
  induction h with
  | @step calls p t row k hp hv hr =>
    obtain ⟨cursor, -, rfl⟩ := start_eq_ok hp
    obtain ⟨-, hcolumns, hview⟩ := Pass.skip_eq ⟨cursor, seq.statement.columns, seq.view⟩ k
    have hrow : row = Pass.row (Pass.skip ⟨cursor, seq.statement.columns, seq.view⟩ k) values := by
      simp only [Pass.next, hv, Outcome.ofRefusable, Except.map, Option.map] at hr
      cases hr
      rfl
    have hseen : row = (Row.live values seq.statement.columns).seenAs seq.view := by
      rw [hrow, Pass.row_eq, hcolumns, hview]
    exact ⟨.live values seq.statement.columns, .live, hseen⟩
  | @copy row _ ih =>
    obtain ⟨base, hbase, rfl⟩ := ih
    have hseen : (base.seenAs seq.view).copy = base.copy.seenAs seq.view := by
      cases seq.view <;> rfl
    exact ⟨base.copy, hbase.copy, hseen⟩

end RowSequence

theorem Pass.mem_drain {p : Pass} {rows : List Row} (h : p.drain = .ok rows) {row : Row}
    (hr : row ∈ rows) : ∃ (k : Nat) (values : List Value) (shown : Row),
      (p.skip k).cursor.step.1 = .ok (some values) ∧ (p.skip k).next.1 = .ok (some shown) ∧
        row = shown.copy := by
  fun_induction Pass.drain p generalizing rows with
  | case1 => cases h
  | case2 =>
    cases h
    cases hr
  | case3 p values cursor hstep ih =>
    obtain ⟨rest, hrest, rfl⟩ := Outcome.map_eq_ok.mp h
    have hvalues : p.cursor.step.1 = .ok (some values) := by rw [hstep]
    have hnext : p.next = (.ok (some (p.row values)), ⟨cursor, p.columns, p.view⟩) := by
      simp [Pass.next, hstep, Outcome.ofRefusable, Except.map]
    rcases List.mem_cons.mp hr with rfl | hr
    · exact ⟨0, values, p.row values, hvalues, congrArg Prod.fst hnext, rfl⟩
    · obtain ⟨k, values', shown, hv, hs, hrow⟩ := ih hrest hr
      have hskip : p.skip (k + 1) = Pass.skip ⟨cursor, p.columns, p.view⟩ k := by
        rw [Pass.skip, hnext]
      rw [← hskip] at hv hs
      exact ⟨k + 1, values', shown, hv, hs, hrow⟩

section Rows

variable {r : Request} {s t u : Session} {seq : RowSequence}

theorem engine_of_fetch (hf : (fetch r).runIn s = (.ok seq, u)) : u.engine = s.engine := by
  obtain ⟨e, log⟩ := s
  cases hc : r.compile e.schema with
  | error f =>
    rw [fetch_uncompiled hc] at hf
    cases hf
  | ok compiled =>
    rw [fetch_compiled hc] at hf
    exact (congrArg (·.2.engine) hf).symm

theorem fetchAll_shows (hf : (fetch r).runIn s = (.ok seq, u)) {rows : List Row}
    (h : (fetchAll r).runIn s = (.ok rows, t)) {row : Row} (hrow : row ∈ rows) :
    ∃ values, seq.Shows s.engine values row := by
  rw [fetchAll, Fetch.runIn_bind, hf] at h
  obtain ⟨p, v, hp, h⟩ := Fetch.runIn_bind_eq_ok h
  rw [Fetch.runIn_ofOutcome] at h
  obtain ⟨k, values, shown, hv, hs, rfl⟩ := Pass.mem_drain (congrArg Prod.fst h) hrow
  rw [← engine_of_fetch hf]
  exact ⟨values, .copy (.step hp hv hs)⟩

theorem fetchOne_shows (hf : (fetch r).runIn s = (.ok seq, u)) {row : Row}
    (h : (fetchOne r).runIn s = (.ok (some row), t)) :
    ∃ values, seq.Shows s.engine values row := by
  rw [fetchOne, Fetch.runIn_bind, hf] at h
  obtain ⟨p, v, hp, h⟩ := Fetch.runIn_bind_eq_ok h
  obtain ⟨shown, w, hs, h⟩ := Fetch.runIn_bind_eq_ok h
  rw [Fetch.runIn_pure] at h
  rw [Fetch.runIn_ofOutcome] at hs
  cases shown with
  | none => cases h
  | some shown =>
    cases h
    have hnext : p.next.1 = .ok (some shown) := congrArg Prod.fst hs
    obtain ⟨values, hv⟩ : ∃ values, p.cursor.step.1 = .ok (some values) := by
      simp only [Pass.next] at hnext
      rcases hstep : p.cursor.step.1 with cause | ⟨_ | values⟩
      · rw [hstep] at hnext
        cases hnext
      · rw [hstep] at hnext
        cases hnext
      · exact ⟨values, rfl⟩
    rw [← engine_of_fetch hf]
    exact ⟨values, .copy (.step (k := 0) hp hv hnext)⟩

end Rows

end RelQuery
