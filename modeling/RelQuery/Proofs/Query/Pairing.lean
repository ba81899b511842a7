import RelQuery.Query.Bindings

/-!
# Pairs of renderings

A rendering appends to what was bound before and reads nothing of it. Two renderings are paired
when they end alike: both give related results and bind all of their values, or both fail with one
failure and have bound the first of them. What the second binds for a value of the first is fixed
by a map from values to lists of values.
-/

set_option autoImplicit false

namespace RelQuery.Rendering

variable {α β γ δ : Type}

/-- Ends with `o` and appends the values `vs`, whatever was bound before. -/
def Appends (r : Rendering α) (o : Outcome α) (vs : List Value) : Prop :=
  ∀ b : Bindings, r.runFrom b = (o, ⟨b.values ++ vs⟩)

theorem runFrom_bind (r : Rendering α) (k : α → Rendering β) (b : Bindings) :
    (r >>= k).runFrom b =
      match r.runFrom b with
      | (.ok a, b') => (k a).runFrom b'
      | (.error f, b') => (.error f, b') := by
  unfold runFrom
  show (bind (m := StateM Bindings) r.run (ExceptT.bindCont k)) b = _
  rcases h : r.run b with ⟨_ | _, b'⟩ <;>
    simp only [bind, StateT.bind, h, ExceptT.bindCont] <;> rfl

theorem runFrom_bind_eq_ok {r : Rendering α} {k : α → Rendering β} {b b' : Bindings} {c : β} :
    (r >>= k).runFrom b = (.ok c, b') ↔
      ∃ (a : α) (m : Bindings), r.runFrom b = (.ok a, m) ∧ (k a).runFrom m = (.ok c, b') := by
  rw [runFrom_bind]
  constructor
  · intro h
    rcases hr : r.runFrom b with ⟨f | a, m⟩
    · rw [hr] at h
      cases h
    · rw [hr] at h
      exact ⟨a, m, rfl, h⟩
  · rintro ⟨a, m, hr, hk⟩
    rw [hr]
    exact hk

theorem runFrom_map_eq_ok {r : Rendering α} {f : α → β} {b b' : Bindings} {c : β} :
    (f <$> r).runFrom b = (.ok c, b') ↔ ∃ a, r.runFrom b = (.ok a, b') ∧ f a = c := by
  rw [map_eq_pure_bind, runFrom_bind_eq_ok]
  constructor
  · rintro ⟨a, m, hr, hk⟩
    cases hk
    exact ⟨a, hr, rfl⟩
  · rintro ⟨a, hr, rfl⟩
    exact ⟨a, b', hr, rfl⟩

theorem runFrom_ofOutcome_eq_ok {o : Outcome α} {b b' : Bindings} {a : α} :
    (ofOutcome o).runFrom b = (.ok a, b') ↔ o = .ok a ∧ b = b' := by
  constructor
  · intro h
    cases h
    exact ⟨rfl, rfl⟩
  · rintro ⟨rfl, rfl⟩
    rfl

/-- Gives a result, after whatever was bound before. -/
def Yields (r : Rendering α) (a : α) : Prop :=
  ∃ b b' : Bindings, r.runFrom b = (.ok a, b')

def Gives (P : α → Prop) (r : Rendering α) : Prop :=
  ∀ (b b' : Bindings) (a : α), r.runFrom b = (.ok a, b') → P a

theorem gives_pure {P : α → Prop} {a : α} (h : P a) : Gives P (pure a) := by
  intro b b' a' hrun
  cases hrun
  exact h

theorem gives_throw {P : α → Prop} (f : Failure) : Gives P (throw f : Rendering α) := by
  intro b b' a hrun
  cases hrun

theorem gives_ofOutcome (o : Outcome α) : (ofOutcome o).Gives fun a => o = .ok a := by
  intro b b' a hrun
  exact (runFrom_ofOutcome_eq_ok.mp hrun).1

theorem gives_bindValue (v : Value) : (bindValue v).Gives (· = "?") := by
  intro b b' s hrun
  cases hrun
  rfl

theorem Gives.bind {P : α → Prop} {Q : β → Prop} {r : Rendering α} {k : α → Rendering β}
    (hr : r.Gives P) (hk : ∀ a, P a → (k a).Gives Q) : (r >>= k).Gives Q := by
  intro b b' c hrun
  obtain ⟨a, m, hfirst, hrest⟩ := runFrom_bind_eq_ok.mp hrun
  exact hk a (hr b m a hfirst) m b' c hrest

theorem gives_bind {P : β → Prop} {r : Rendering α} {k : α → Rendering β}
    (hk : ∀ a, (k a).Gives P) : (r >>= k).Gives P :=
  Gives.bind (P := fun _ => True) (fun _ _ _ _ => trivial) fun a _ => hk a

theorem Gives.map {P : α → Prop} {Q : β → Prop} {r : Rendering α} {f : α → β} (hr : r.Gives P)
    (hf : ∀ a, P a → Q (f a)) : (f <$> r).Gives Q := by
  rw [map_eq_pure_bind]
  exact hr.bind fun a ha => gives_pure (hf a ha)

theorem Gives.mono {P Q : α → Prop} {r : Rendering α} (hr : r.Gives P) (h : ∀ a, P a → Q a) :
    r.Gives Q :=
  fun b b' a hrun => h a (hr b b' a hrun)

theorem Gives.and {P Q : α → Prop} {r : Rendering α} (hp : r.Gives P) (hq : r.Gives Q) :
    r.Gives fun a => P a ∧ Q a :=
  fun b b' a hrun => ⟨hp b b' a hrun, hq b b' a hrun⟩

theorem appends_pure (a : α) : Appends (pure a) (.ok a) [] := by
  intro b
  rw [List.append_nil]
  rfl

theorem appends_throw (f : Failure) : Appends (throw f : Rendering α) (.error f) [] := by
  intro b
  rw [List.append_nil]
  rfl

theorem appends_ofOutcome (o : Outcome α) : Appends (ofOutcome o) o [] := by
  intro b
  rw [List.append_nil]
  rfl

theorem appends_bindValue (v : Value) : Appends (bindValue v) (.ok "?") [v] := fun _ => rfl

theorem Appends.bind {r : Rendering α} {k : α → Rendering β} {a : α} {o : Outcome β}
    {vs us : List Value} (hr : r.Appends (.ok a) vs) (hk : (k a).Appends o us) :
    (r >>= k).Appends o (vs ++ us) := by
  intro b
  rw [runFrom_bind, hr b]
  show (k a).runFrom ⟨b.values ++ vs⟩ = _
  rw [hk, List.append_assoc]

theorem Appends.bind_error {r : Rendering α} {f : Failure} {vs : List Value}
    (hr : r.Appends (.error f) vs) (k : α → Rendering β) : (r >>= k).Appends (.error f) vs := by
  intro b
  rw [runFrom_bind, hr b]

theorem Appends.unique {r : Rendering α} {o o' : Outcome α} {vs us : List Value}
    (h : r.Appends o vs) (h' : r.Appends o' us) : o = o' ∧ vs = us := by
  have heq := (h .empty).symm.trans (h' .empty)
  simpa [Bindings.empty] using heq

def Uniform (r : Rendering α) : Prop :=
  ∃ (o : Outcome α) (vs : List Value), r.Appends o vs

/-- What a rendering gives once, it gives after whatever was bound before. -/
theorem Uniform.appends {r : Rendering α} (hr : r.Uniform) {a : α} (h : r.Yields a) :
    ∃ vs : List Value, r.Appends (.ok a) vs := by
  obtain ⟨o, vs, ho⟩ := hr
  obtain ⟨b, b', hrun⟩ := h
  rw [ho b] at hrun
  cases hrun
  exact ⟨vs, ho⟩

theorem uniform_pure (a : α) : Uniform (pure a) :=
  ⟨_, _, appends_pure a⟩

theorem Appends.of_bind {r : Rendering α} {k : α → Rendering β} {b : β} {vs : List Value}
    (hr : r.Uniform) (hk : ∀ a, (k a).Uniform) (h : (r >>= k).Appends (.ok b) vs) :
    ∃ (a : α) (us ws : List Value), r.Appends (.ok a) us ∧ (k a).Appends (.ok b) ws ∧
      vs = us ++ ws := by
  obtain ⟨f | a, us, hr⟩ := hr
  · cases (h.unique (hr.bind_error k)).1
  · obtain ⟨o, ws, hk⟩ := hk a
    obtain ⟨rfl, rfl⟩ := h.unique (hr.bind hk)
    exact ⟨a, us, ws, hr, hk, rfl⟩

theorem Appends.of_bind_pure {r : Rendering α} {k : α → β} {b : β} {vs : List Value}
    (hr : r.Uniform) (h : (r >>= fun a => pure (k a)).Appends (.ok b) vs) :
    ∃ a, r.Appends (.ok a) vs ∧ b = k a := by
  obtain ⟨a, us, ws, hr, hp, rfl⟩ := h.of_bind hr fun a => uniform_pure (k a)
  obtain ⟨hb, rfl⟩ := hp.unique (appends_pure (k a))
  cases hb
  exact ⟨a, by rwa [List.append_nil], rfl⟩

theorem Uniform.bind {r : Rendering α} {k : α → Rendering β} (hr : r.Uniform)
    (hk : ∀ a, (k a).Uniform) : (r >>= k).Uniform := by
  obtain ⟨f | a, us, hr⟩ := hr
  · exact ⟨_, _, hr.bind_error k⟩
  · obtain ⟨o, ws, hk⟩ := hk a
    exact ⟨_, _, hr.bind hk⟩

/-- Both renderings give results in `R` and bind `vs` and its image, or both fail alike after some
of it. -/
inductive Paired (h : Value → List Value) (R : α → β → Prop) (vs : List Value)
    (r : Rendering α) (r' : Rendering β) : Prop
  | done {a : α} {b : β} (left : r.Appends (.ok a) vs)
      (right : r'.Appends (.ok b) (vs.flatMap h)) (related : R a b)
  | failed {f : Failure} {us : List Value} (before : us <+: vs)
      (left : r.Appends (.error f) us) (right : r'.Appends (.error f) (us.flatMap h))

variable {h : Value → List Value} {R : α → β → Prop} {S : γ → δ → Prop}

theorem Paired.uniform {vs : List Value} {r : Rendering α} {r' : Rendering β}
    (hr : Paired h R vs r r') : r.Uniform := by
  rcases hr with ⟨left, -, -⟩ | ⟨-, left, -⟩
  · exact ⟨_, _, left⟩
  · exact ⟨_, _, left⟩

theorem paired_pure {a : α} {b : β} (hab : R a b) : Paired h R [] (pure a) (pure b) :=
  .done (appends_pure a) (appends_pure b) hab

theorem paired_throw (f : Failure) (vs : List Value) : Paired h R vs (throw f) (throw f) :=
  .failed List.nil_prefix (appends_throw f) (appends_throw f)

theorem paired_ofOutcome {o : Outcome α} {g : α → β} (hg : ∀ a, o = .ok a → R a (g a)) :
    Paired h R [] (ofOutcome o) (ofOutcome (o.map g)) := by
  rcases o with f | a
  · exact .failed List.prefix_rfl (appends_ofOutcome _) (appends_ofOutcome _)
  · exact .done (appends_ofOutcome _) (appends_ofOutcome _) (hg a rfl)

theorem paired_same {R : α → α → Prop} {o : Outcome α} (hR : ∀ a, o = .ok a → R a a) :
    Paired h R [] (ofOutcome o) (ofOutcome o) := by
  have ho := paired_ofOutcome (h := h) (g := id) hR
  rwa [show o.map id = o by cases o <;> rfl] at ho

theorem Paired.bind {vs us : List Value} {r : Rendering α} {r' : Rendering β}
    {k : α → Rendering γ} {k' : β → Rendering δ} (hr : Paired h R vs r r')
    (hk : ∀ a b, R a b → Paired h S us (k a) (k' b)) :
    Paired h S (vs ++ us) (r >>= k) (r' >>= k') := by
  rcases hr with ⟨left, right, related⟩ | ⟨before, left, right⟩
  · rename_i a b
    rcases hk a b related with ⟨left', right', related'⟩ | ⟨before', left', right'⟩
    · refine .done (left.bind left') ?_ related'
      rw [List.flatMap_append]
      exact right.bind right'
    · rename_i f us'
      refine .failed ((List.prefix_append_right_inj vs).mpr before') (left.bind left') ?_
      rw [List.flatMap_append]
      exact right.bind right'
  · exact .failed (before.trans (List.prefix_append vs us)) (left.bind_error k)
      (right.bind_error k')

theorem Paired.bind_last {vs : List Value} {r : Rendering α} {r' : Rendering β}
    {k : α → Rendering γ} {k' : β → Rendering δ} (hr : Paired h R vs r r')
    (hk : ∀ a b, R a b → Paired h S [] (k a) (k' b)) :
    Paired h S vs (r >>= k) (r' >>= k') := by
  have hb := hr.bind hk
  rwa [List.append_nil] at hb

theorem Paired.bind_first {us : List Value} {r : Rendering α} {r' : Rendering β}
    {k : α → Rendering γ} {k' : β → Rendering δ} (hr : Paired h R [] r r')
    (hk : ∀ a b, R a b → Paired h S us (k a) (k' b)) :
    Paired h S us (r >>= k) (r' >>= k') :=
  hr.bind hk

theorem Paired.bind_pure {vs : List Value} {r : Rendering α} {r' : Rendering β} {k : α → γ}
    {k' : β → δ} (hr : Paired h R vs r r') (hk : ∀ a b, R a b → S (k a) (k' b)) :
    Paired h S vs (r >>= fun a => pure (k a)) (r' >>= fun b => pure (k' b)) :=
  hr.bind_last fun a b hab => paired_pure (hk a b hab)

theorem Paired.map {vs : List Value} {r : Rendering α} {r' : Rendering β} {k : α → γ}
    {k' : β → δ} (hr : Paired h R vs r r') (hk : ∀ a b, R a b → S (k a) (k' b)) :
    Paired h S vs (k <$> r) (k' <$> r') := by
  rw [map_eq_pure_bind, map_eq_pure_bind]
  exact hr.bind_pure hk

end RelQuery.Rendering
