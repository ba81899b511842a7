import RelQuery.Proofs.Fetch.Sequences

/-!
# Passes of a sequence

A sequence can be run again at any time. A pass gives the rows of the engine from the first one on,
however far the passes before it went, and each run is one call of the engine with the arguments of
the request.
-/

set_option autoImplicit false

namespace RelQuery

namespace Cursor

def ahead (c : Cursor) : List (List Value) :=
  c.rows.drop c.steps

/-- What the step gives that is made after `k` others. -/
def stepAfter (c : Cursor) (k : Nat) : Except Refusal (Option (List Value)) :=
  match c.failure with
  | some (n, cause) => if n = c.steps + k then .error cause else .ok c.ahead[k]?
  | none => .ok c.ahead[k]?

/-- All steps up to the end, which give all rows to come, or the first failure on the way. -/
def Ends (c : Cursor) : Except Refusal (List (List Value)) → Prop
  | .ok rows => rows = c.ahead ∧ ∀ k ≤ rows.length, c.stepAfter k = .ok rows[k]?
  | .error cause => ∃ k, c.stepAfter k = .error cause ∧
      ∀ i < k, ∃ values, c.stepAfter i = .ok (some values)

theorem step_failure (c : Cursor) : c.step.2.failure = c.failure := by
  rw [step]
  split
  · split <;> rfl
  · rfl

theorem ahead_step (c : Cursor) : c.step.2.ahead = c.ahead.tail := by
  rw [ahead, ahead, step_rows, step_steps, List.tail_drop]

theorem stepAfter_zero (c : Cursor) : c.stepAfter 0 = c.step.1 := by
  have hrow : c.ahead[0]? = c.rows[c.steps]? := by
    rw [ahead, List.getElem?_drop, Nat.add_zero]
  rw [step, stepAfter, hrow]
  rcases c.failure with _ | ⟨n, cause⟩
  · rfl
  · by_cases hn : n = c.steps <;> simp [hn]

theorem stepAfter_succ (c : Cursor) (k : Nat) : c.stepAfter (k + 1) = c.step.2.stepAfter k := by
  rw [stepAfter, stepAfter, step_failure, ahead_step, step_steps, List.getElem?_tail,
    Nat.add_assoc, Nat.add_comm 1 k]

theorem eq_of_stepAfter {c : Cursor} {k : Nat} {row : Option (List Value)}
    (h : c.stepAfter k = .ok row) : c.ahead[k]? = row := by
  rw [stepAfter] at h
  split at h
  · split at h
    · cases h
    · exact Except.ok.inj h
  · exact Except.ok.inj h

theorem ends_of_error {c : Cursor} {cause : Refusal} (h : c.step.1 = .error cause) :
    c.Ends (.error cause) :=
  ⟨0, c.stepAfter_zero.trans h, nofun⟩

theorem ends_of_done {c : Cursor} (h : c.step.1 = .ok none) : c.Ends (.ok []) := by
  have hzero : c.stepAfter 0 = .ok none := c.stepAfter_zero.trans h
  have hempty : c.ahead = [] := by simpa using eq_of_stepAfter hzero
  refine ⟨hempty.symm, ?_⟩
  intro k hk
  rw [Nat.le_zero.mp hk]
  exact hzero

theorem Ends.cons {c : Cursor} {values : List Value} {o : Except Refusal (List (List Value))}
    (h : c.step.1 = .ok (some values)) (ho : c.step.2.Ends o) :
    c.Ends (o.map (values :: ·)) := by
  have hzero : c.stepAfter 0 = .ok (some values) := c.stepAfter_zero.trans h
  rcases o with cause | rows
  · obtain ⟨k, hk, hbefore⟩ := ho
    refine ⟨k + 1, (c.stepAfter_succ k).trans hk, ?_⟩
    rintro (_ | i) hi
    · exact ⟨values, hzero⟩
    · rw [stepAfter_succ]
      exact hbefore i (by omega)
  · obtain ⟨rfl, hrows⟩ := ho
    refine ⟨?_, ?_⟩
    · have hhead := eq_of_stepAfter hzero
      rw [ahead_step]
      cases hc : c.ahead with
      | nil =>
        rw [hc] at hhead
        cases hhead
      | cons head tail =>
        rw [hc] at hhead
        cases hhead
        rfl
    · rintro (_ | k) hk
      · exact hzero
      · rw [stepAfter_succ]
        exact hrows k (Nat.le_of_succ_le_succ hk)

theorem Ends.unique {c : Cursor} {o o' : Except Refusal (List (List Value))} (h : c.Ends o)
    (h' : c.Ends o') : o = o' := by
  -- a list and a failure do not go together: the failure would come at a step that the list gives
  -- or after the step that has found no row
  have hmixed {rows : List (List Value)} {cause : Refusal} (hrows : c.Ends (.ok rows))
      (hcause : c.Ends (.error cause)) : False := by
    obtain ⟨-, hsteps⟩ := hrows
    obtain ⟨k, hk, hbefore⟩ := hcause
    by_cases hle : k ≤ rows.length
    · cases hk.symm.trans (hsteps k hle)
    · obtain ⟨values, hv⟩ := hbefore rows.length (Nat.lt_of_not_le hle)
      have hend := hv.symm.trans (hsteps rows.length (Nat.le_refl _))
      simp at hend
  rcases o with cause | rows <;> rcases o' with cause' | rows'
  · obtain ⟨k, hk, hbefore⟩ := h
    obtain ⟨k', hk', hbefore'⟩ := h'
    rcases Nat.lt_trichotomy k k' with hlt | rfl | hlt
    · obtain ⟨values, hv⟩ := hbefore' k hlt
      cases hk.symm.trans hv
    · rw [Except.error.inj (hk.symm.trans hk')]
    · obtain ⟨values, hv⟩ := hbefore k' hlt
      cases hk'.symm.trans hv
  · exact (hmixed h' h).elim
  · exact (hmixed h h').elim
  · rw [h.1, h'.1]

end Cursor

namespace Pass

theorem next_eq (p : Pass) : p.next =
    ((Outcome.ofRefusable (p.cursor.stepAfter 0)).map (Option.map p.row),
      { p with cursor := p.cursor.step.2 }) := by
  rw [Cursor.stepAfter_zero]
  rfl

theorem skip_succ (p : Pass) (k : Nat) : p.skip (k + 1) = (p.skip k).next.2 := by
  induction k generalizing p with
  | zero => rfl
  | succ k ih => exact ih p.next.2

theorem next_skip (p : Pass) (k : Nat) : (p.skip k).next.1 =
    (Outcome.ofRefusable (p.cursor.stepAfter k)).map (Option.map p.row) := by
  induction k generalizing p with
  | zero => exact congrArg Prod.fst p.next_eq
  | succ k ih =>
    rw [skip, ih, Cursor.stepAfter_succ]
    rfl

theorem drain_ends (p : Pass) : ∃ o, p.cursor.Ends o ∧
    p.drain = (Outcome.ofRefusable o).map (List.map fun values => (p.row values).copy) := by
  fun_induction Pass.drain p with
  | case1 p cause cursor hstep =>
    have h : p.cursor.step.1 = .error cause := by rw [hstep]
    exact ⟨.error cause, Cursor.ends_of_error h, rfl⟩
  | case2 p cursor hstep =>
    have h : p.cursor.step.1 = .ok none := by rw [hstep]
    exact ⟨.ok [], Cursor.ends_of_done h, rfl⟩
  | case3 p values cursor hstep ih =>
    have h : p.cursor.step.1 = .ok (some values) := by rw [hstep]
    have hcursor : p.cursor.step.2 = cursor := by rw [hstep]
    obtain ⟨o, ho, hdrain⟩ := ih
    refine ⟨o.map (values :: ·), .cons h (hcursor ▸ ho), ?_⟩
    rw [hdrain]
    cases o <;> rfl

end Pass

namespace RowSequence

def see (seq : RowSequence) (values : List Value) : Row :=
  (Row.live values seq.statement.columns).seenAs seq.view

/-- A run of the sequence to its end or to the first failure, that of the run included. -/
def Ends (e : Engine) (seq : RowSequence) (o : Except Refusal (List (List Value))) : Prop :=
  match e.run seq.statement seq.arguments with
  | .ok cursor => cursor.Ends o
  | .error cause => o = .error cause

end RowSequence

section

variable {r : Request} {s : Session} {seq : RowSequence} {e : Engine} {log : List EngineCall}

theorem fetchAll_of_sequence (h : (fetch r).runIn s = (.ok seq, ⟨e, log⟩)) :
    ∃ o, seq.Ends e o ∧ (fetchAll r).runIn s =
      ((Outcome.ofRefusable o).map (List.map fun values => (seq.see values).copy),
        ⟨e, log ++ [.run seq.arguments]⟩) := by
  rw [fetchAll, Fetch.runIn_bind, h]
  simp only [Fetch.runIn_bind, RowSequence.start_runIn, RowSequence.Ends]
  rcases e.run seq.statement seq.arguments with cause | cursor
  · exact ⟨_, rfl, rfl⟩
  · obtain ⟨o, ho, hdrain⟩ := Pass.drain_ends ⟨cursor, seq.statement.columns, seq.view⟩
    refine ⟨o, ho, ?_⟩
    simp only [Pass.row_eq] at hdrain
    simp only [Outcome.ofRefusable, Except.map, Fetch.runIn_ofOutcome, hdrain]
    rfl

theorem fetchOne_of_sequence (h : (fetch r).runIn s = (.ok seq, ⟨e, log⟩)) :
    (fetchOne r).runIn s =
      ((Outcome.ofRefusable (e.run seq.statement seq.arguments >>= (·.stepAfter 0))).map
        (Option.map fun values => (seq.see values).copy),
          ⟨e, log ++ [.run seq.arguments]⟩) := by
  rw [fetchOne, Fetch.runIn_bind, h]
  simp only [Fetch.runIn_bind, RowSequence.start_runIn]
  rcases e.run seq.statement seq.arguments with cause | cursor
  · rfl
  · simp only [Outcome.ofRefusable, Except.map, Fetch.runIn_ofOutcome, Pass.next_eq, bind,
      Except.bind]
    rcases cursor.stepAfter 0 with cause | _ | values
    · rfl
    · rfl
    · simp only [Option.map, Pass.row_eq]
      rfl

theorem fetch_rows_of_error {f : Failure} {t : Session} (h : (fetch r).runIn s = (.error f, t)) :
    (fetchAll r).runIn s = (.error f, t) ∧ (fetchOne r).runIn s = (.error f, t) := by
  rw [fetchAll, fetchOne, Fetch.runIn_bind, Fetch.runIn_bind, h]
  exact ⟨rfl, rfl⟩

end

inductive ReaderCall
  | iter
  | next
deriving DecidableEq

/-- A reader has the pass of the last run open, if the engine could run. -/
structure Reader where
  session : Session
  pass : Option Pass

inductive Reply
  | ran (o : Outcome Unit)
  | row (o : Outcome (Option Row))
  | closed

namespace RowSequence

def reply (seq : RowSequence) (reader : Reader) : ReaderCall → Reply × Reader
  | .iter =>
    match seq.start.runIn reader.session with
    | (.ok p, s) => (.ran (.ok ()), ⟨s, some p⟩)
    | (.error f, s) => (.ran (.error f), ⟨s, none⟩)
  | .next =>
    match reader.pass with
    | some p => (.row p.next.1, ⟨reader.session, some p.next.2⟩)
    | none => (.closed, reader)

def readerAfter (seq : RowSequence) (reader : Reader) (calls : List ReaderCall) : Reader :=
  calls.foldl (fun reader call => (seq.reply reader call).2) reader

/-- How many rows were asked for since the last run, before a call and after it. -/
def position : Option Nat → ReaderCall → Option Nat
  | _, .iter => some 0
  | k, .next => k.map (· + 1)

/-- The reply to a call at a position, from the rows of the engine alone. -/
def expected (e : Engine) (seq : RowSequence) (k : Option Nat) : ReaderCall → Reply
  | .iter => .ran ((Outcome.ofRefusable (e.run seq.statement seq.arguments)).map fun _ => ())
  | .next =>
    match e.run seq.statement seq.arguments, k with
    | .ok cursor, some k =>
      .row ((Outcome.ofRefusable (cursor.stepAfter k)).map (Option.map seq.see))
    | _, _ => .closed

def runs (seq : RowSequence) (calls : List ReaderCall) : List EngineCall :=
  List.replicate (calls.count .iter) (.run seq.arguments)

/-- A reader at a position of the pass that the engine gives. -/
def readerAt (e : Engine) (seq : RowSequence) (log : List EngineCall) (k : Option Nat) :
    Reader where
  session := ⟨e, log⟩
  pass := (e.run seq.statement seq.arguments).toOption.bind fun cursor =>
    k.map (Pass.skip ⟨cursor, seq.statement.columns, seq.view⟩)

variable {e : Engine} {seq : RowSequence}

theorem reply_readerAt (log : List EngineCall) (k : Option Nat) (call : ReaderCall) :
    seq.reply (seq.readerAt e log k) call =
      (seq.expected e k call, seq.readerAt e (log ++ seq.runs [call]) (position k call)) := by
  cases call with
  | iter =>
    simp only [reply, readerAt, start_runIn, expected]
    rcases e.run seq.statement seq.arguments with _ | _ <;> rfl
  | next =>
    have hlog : log ++ seq.runs [.next] = log := List.append_nil log
    simp only [reply, readerAt, expected, hlog]
    rcases e.run seq.statement seq.arguments with cause | cursor
    · rfl
    · rcases k with _ | k
      · rfl
      · simp only [Except.toOption, Option.bind_some, Option.map_some, position, Pass.next_skip,
          Pass.skip_succ]
        rw [show Pass.row ⟨cursor, seq.statement.columns, seq.view⟩ = seq.see from
          funext (Pass.row_eq _)]

/-- Any calls move the reader to the position that the calls since the last run add up to. -/
theorem readerAfter_readerAt (log : List EngineCall) (k : Option Nat) (calls : List ReaderCall) :
    seq.readerAfter (seq.readerAt e log k) calls =
      seq.readerAt e (log ++ seq.runs calls) (calls.foldl position k) := by
  induction calls generalizing log k with
  | nil => exact congrArg (seq.readerAt e · k) (List.append_nil log).symm
  | cons call calls ih =>
    have hruns : log ++ seq.runs (call :: calls) = log ++ seq.runs [call] ++ seq.runs calls := by
      rw [runs, runs, runs, List.append_assoc, List.replicate_append_replicate,
        ← List.count_append]
      rfl
    rw [readerAfter, List.foldl_cons, reply_readerAt, hruns]
    exact ih _ _

/-- How a sequence of a request is read, with the calls of the engine that were made until then. -/
structure Replays (e : Engine) (log : List EngineCall) (r : Request) (compiled : Compiled)
    (seq : RowSequence) : Prop where
  /-- A reply depends on the calls since the last run alone. -/
  reply : ∀ (before : List ReaderCall) (call : ReaderCall),
    (seq.reply (seq.readerAfter ⟨⟨e, log ++ [.prepare compiled.sql]⟩, none⟩ before) call).1 =
      seq.expected e (before.foldl position none) call
  session : ∀ calls : List ReaderCall,
    (seq.readerAfter ⟨⟨e, log ++ [.prepare compiled.sql]⟩, none⟩ calls).session =
      ⟨e, log ++ [.prepare compiled.sql] ++
        List.replicate (calls.count .iter) (.run compiled.arguments)⟩
  all : ∃ o, seq.Ends e o ∧ (fetchAll r).runIn ⟨e, log⟩ =
    ((Outcome.ofRefusable o).map (List.map fun values => (seq.see values).copy),
      ⟨e, log ++ [.prepare compiled.sql] ++ [.run compiled.arguments]⟩)
  one : (fetchOne r).runIn ⟨e, log⟩ =
    ((Outcome.ofRefusable (e.run seq.statement seq.arguments >>= (·.stepAfter 0))).map
      (Option.map fun values => (seq.see values).copy),
        ⟨e, log ++ [.prepare compiled.sql] ++ [.run compiled.arguments]⟩)
  /-- The first step gives the head of the rows unless it fails itself. -/
  head : ∀ (cursor : Cursor) (row : Option (List Value)),
    e.run seq.statement seq.arguments = .ok cursor → cursor.stepAfter 0 = .ok row →
      row = cursor.ahead.head?

theorem arguments_of_sequence {r : Request} {compiled : Compiled}
    (h : r.sequence e compiled = .ok seq) : seq.arguments = compiled.arguments := by
  obtain ⟨st, -, h⟩ := Outcome.bind_eq_ok.mp h
  obtain ⟨view, -, h⟩ := Outcome.bind_eq_ok.mp h
  cases h
  rfl

theorem replays_of_sequence {r : Request} {compiled : Compiled}
    (hc : r.compile e.schema = .ok compiled) (h : r.sequence e compiled = .ok seq)
    (log : List EngineCall) : seq.Replays e log r compiled := by
  have hfetch := fetch_compiled hc log
  rw [h] at hfetch
  have harguments := arguments_of_sequence h
  have hstart : (⟨⟨e, log ++ [.prepare compiled.sql]⟩, none⟩ : Reader) =
      seq.readerAt e (log ++ [.prepare compiled.sql]) none := by
    rw [readerAt]
    rcases e.run seq.statement seq.arguments with _ | _ <;> rfl
  refine ⟨?_, ?_, ?_, ?_, ?_⟩
  · intro before call
    rw [hstart, readerAfter_readerAt, reply_readerAt]
  · intro calls
    rw [hstart, readerAfter_readerAt, readerAt, runs, harguments]
  · rw [← harguments]
    exact fetchAll_of_sequence hfetch
  · rw [← harguments]
    exact fetchOne_of_sequence hfetch
  · intro cursor row _ hrow
    rw [List.head?_eq_getElem?, Cursor.eq_of_stepAfter hrow]

end RowSequence

/-- A request without a text calls no engine. One that has a text is prepared once, with the text,
and its sequence can be run from the start at any time. -/
theorem fetch_replays (r : Request) (e : Engine) (log : List EngineCall) :
    (∀ f, r.compile e.schema = .error f → (fetch r).runIn ⟨e, log⟩ = (.error f, ⟨e, log⟩) ∧
      (fetchAll r).runIn ⟨e, log⟩ = (.error f, ⟨e, log⟩) ∧
      (fetchOne r).runIn ⟨e, log⟩ = (.error f, ⟨e, log⟩)) ∧
    ∀ compiled, r.compile e.schema = .ok compiled →
      (fetch r).runIn ⟨e, log⟩ =
        (r.sequence e compiled, ⟨e, log ++ [.prepare compiled.sql]⟩) ∧
      (∀ f, r.sequence e compiled = .error f →
        (fetchAll r).runIn ⟨e, log⟩ = (.error f, ⟨e, log ++ [.prepare compiled.sql]⟩) ∧
        (fetchOne r).runIn ⟨e, log⟩ = (.error f, ⟨e, log ++ [.prepare compiled.sql]⟩)) ∧
      ∀ seq, r.sequence e compiled = .ok seq → seq.Replays e log r compiled := by
  refine ⟨?_, ?_⟩
  · intro f hf
    have hfetch := fetch_uncompiled hf log
    exact ⟨hfetch, fetch_rows_of_error hfetch⟩
  · intro compiled hc
    have hfetch := fetch_compiled hc log
    refine ⟨hfetch, ?_, fun seq h => RowSequence.replays_of_sequence hc h log⟩
    intro f hf
    rw [hf] at hfetch
    exact fetch_rows_of_error hfetch

/-- Two rows, of which the second is lost on the way. -/
def numberEngine : Engine where
  name := "numbers"
  schema := ⟨fun _ => .ok ["n"], fun _ => .ok true, Text.quoteIdentifier⟩
  prepare := fun sql => .ok ⟨sql, ["n"], 0⟩
  run := fun _ _ => .ok ⟨[[.integer 1], [.integer 2]], some (1, .engine (some "lost")), 0⟩

def numbers : Request :=
  .sql "SELECT n FROM numbers WHERE n > ?" [.integer 0] (some (.mapping [("number", "n")]))

theorem numbers_replayed : ∃ seq t, (fetch numbers).runIn ⟨numberEngine, []⟩ = (.ok seq, t) ∧
    (seq.reply (seq.readerAfter ⟨t, none⟩ [.iter, .next, .next, .iter]) .next).1 =
      .row (.ok (some (seq.see [.integer 1]))) ∧
    (fetchAll numbers).runIn ⟨numberEngine, []⟩ =
      (.error (.refused (.engine (some "lost"))),
        ⟨numberEngine, [.prepare "SELECT n FROM numbers WHERE n > ?", .run [.integer 0]]⟩) ∧
    (fetchOne numbers).runIn ⟨numberEngine, []⟩ =
      (.ok (some (seq.see [.integer 1]).copy),
        ⟨numberEngine, [.prepare "SELECT n FROM numbers WHERE n > ?", .run [.integer 0]]⟩) := by
  obtain ⟨hfetch, -, hreplays⟩ := (fetch_replays numbers numberEngine []).2
    ⟨"SELECT n FROM numbers WHERE n > ?", [.integer 0]⟩ rfl
  obtain ⟨hreply, -, ⟨o, ho, hall⟩, hone, -⟩ := hreplays _ rfl
  have hlost : o = .error (.engine (some "lost")) := by
    refine Cursor.Ends.unique ho ⟨1, rfl, fun i hi => ?_⟩
    rw [Nat.lt_one_iff.mp hi]
    exact ⟨[.integer 1], rfl⟩
  rw [hlost] at hall
  exact ⟨_, _, hfetch, hreply [.iter, .next, .next, .iter] .next, hall, hone⟩

end RelQuery
