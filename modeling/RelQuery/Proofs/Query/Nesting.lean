import Mathlib.Data.List.Pairwise
import RelQuery.Proofs.Query.Attach
import RelQuery.Proofs.Query.VariantPaths

/-!
# Nested associations as chains of joins

Associations are nested as their joins lead from one to the next. The links of different
associations start from different tables, so that names need to differ only between siblings.
-/

set_option autoImplicit false

namespace RelQuery

open Arena

theorem Arena.Begins.ne_tableId {scope k i : Nat} {x : SourceId} (h : Begins scope k x)
    (hi : k ≤ i) : x ≠ tableId scope i := by
  intro hx
  have hindex := congrArg SourceId.index hx
  rcases h with rfl | ⟨n, hn, rfl⟩ <;> simp only [tableId] at hindex <;> omega

namespace Association

/-- An association of a list, or one inside of these, with the names that lead to it. -/
inductive At : List Association → List String → Association → Prop
  | here {as : List Association} {a : Association} (ha : a ∈ as) : At as [a.name] a
  | inside {as : List Association} {a b : Association} {path : List String} (ha : a ∈ as)
    (h : At a.includes path b) : At as (a.name :: path) b

mutual

/-- Siblings inside an association have different names, at every depth. -/
def Apart : Association → Prop
  | ⟨_, _, _, _, _, includes⟩ => AllApart includes

def AllApart : List Association → Prop
  | [] => True
  | a :: as => (∀ b ∈ as, a.name ≠ b.name) ∧ a.Apart ∧ AllApart as

end

theorem links_eq (scope : Nat) (a : Association) (origin : SourceId) (k n : Nat) :
    a.links scope origin k n =
      link scope a origin k n :: linksAll scope a.includes (tableId scope k) (k + 1) (n + 1) := by
  cases a
  rw [links]

theorem linksAll_append (scope : Nat) (as bs : List Association) (origin : SourceId) (k n : Nat) :
    linksAll scope (as ++ bs) origin k n = linksAll scope as origin k n ++
      linksAll scope bs origin (k + sizeAll as) (n + sizeAll as) := by
  induction as generalizing k n with
  | nil => rfl
  | cons a as ih =>
    rw [List.cons_append, linksAll, linksAll, sizeAll, ih, List.append_assoc]
    simp only [Nat.add_assoc]

theorem links_subset (scope : Nat) {as : List Association} {a : Association} (ha : a ∈ as)
    (origin : SourceId) (k n : Nat) :
    ∃ i m, ∀ l ∈ a.links scope origin i m, l ∈ linksAll scope as origin k n := by
  induction as generalizing k n with
  | nil => cases ha
  | cons b as ih =>
    rw [linksAll]
    rcases List.mem_cons.mp ha with rfl | ha
    · exact ⟨k, n, fun l hl => List.mem_append_left _ hl⟩
    · obtain ⟨i, m, him⟩ := ih ha (k + b.size) (n + b.size)
      exact ⟨i, m, fun l hl => List.mem_append_right _ (him l hl)⟩

theorem At.leads {scope : Nat} {as : List Association} {path : List String} {b : Association}
    (h : At as path b) (origin : SourceId) (k n : Nat) :
    ∃ (o : SourceId) (i m : Nat), link scope b o i m ∈ linksAll scope as origin k n ∧
      Join.Leads ((linksAll scope as origin k n).map Link.join) origin path
        (link scope b o i m).join := by
  induction h generalizing origin k n with
  | @here as a ha =>
    obtain ⟨i, m, hsub⟩ := links_subset scope ha origin k n
    have hmem := hsub (link scope a origin i m) (by simp [links_eq])
    exact ⟨origin, i, m, hmem, .last (List.mem_map_of_mem hmem) rfl⟩
  | @inside as a b path ha _ ih =>
    obtain ⟨i, m, hsub⟩ := links_subset scope ha origin k n
    have hmem := hsub (link scope a origin i m) (by simp [links_eq])
    have hinside : ∀ l ∈ linksAll scope a.includes (tableId scope i) (i + 1) (m + 1),
        l ∈ linksAll scope as origin k n := fun l hl => hsub l (by simp [links_eq, hl])
    obtain ⟨o, i', m', hb, hleads⟩ := ih (tableId scope i) (i + 1) (m + 1)
    have hjoins : ∀ j ∈ (linksAll scope a.includes (tableId scope i) (i + 1) (m + 1)).map Link.join,
        j ∈ (linksAll scope as origin k n).map Link.join := by
      intro j hj
      obtain ⟨l, hl, rfl⟩ := List.mem_map.mp hj
      exact List.mem_map_of_mem (hinside l hl)
    exact ⟨o, i', m', hinside _ hb, .step (List.mem_map_of_mem hmem) rfl (hleads.mono hjoins)⟩

mutual

theorem origin_of_mem_links {scope : Nat} {l : Link} :
    (a : Association) → (origin : SourceId) → (k n : Nat) → l ∈ a.links scope origin k n →
      (l.join.origin = origin ∧ l.join.variant = a.name) ∨
        ∃ i, k ≤ i ∧ i < k + a.size ∧ l.join.origin = tableId scope i
  | ⟨name, kind, table, aliasName, foreignKey, includes⟩, origin, k, n, hl => by
    rw [links, List.mem_cons] at hl
    rw [size]
    rcases hl with rfl | hl
    · exact .inl ⟨rfl, rfl⟩
    · rcases origin_of_mem_linksAll includes _ _ _ hl with ⟨ho, -⟩ | ⟨i, hk, hi, ho⟩
      · exact .inr ⟨k, by omega, by omega, ho⟩
      · exact .inr ⟨i, by omega, by omega, ho⟩

theorem origin_of_mem_linksAll {scope : Nat} {l : Link} :
    (as : List Association) → (origin : SourceId) → (k n : Nat) →
      l ∈ linksAll scope as origin k n →
      (l.join.origin = origin ∧ ∃ a ∈ as, l.join.variant = a.name) ∨
        ∃ i, k ≤ i ∧ i < k + sizeAll as ∧ l.join.origin = tableId scope i
  | [], _, _, _, hl => by cases hl
  | a :: as, origin, k, n, hl => by
    rw [linksAll, List.mem_append] at hl
    rw [sizeAll]
    rcases hl with hl | hl
    · rcases origin_of_mem_links a origin k n hl with ⟨ho, hv⟩ | ⟨i, hk, hi, ho⟩
      · exact .inl ⟨ho, a, List.mem_cons_self, hv⟩
      · exact .inr ⟨i, by omega, by omega, ho⟩
    · rcases origin_of_mem_linksAll as origin _ _ hl with ⟨ho, b, hb, hv⟩ | ⟨i, hk, hi, ho⟩
      · exact .inl ⟨ho, b, List.mem_cons_of_mem a hb, hv⟩
      · exact .inr ⟨i, by omega, by omega, ho⟩

end

def Distinct (l m : Link) : Prop :=
  ¬(l.join.origin = m.join.origin ∧ l.join.variant = m.join.variant)

mutual

theorem distinct_links {scope : Nat} :
    (a : Association) → (origin : SourceId) → (k n : Nat) → a.Apart → Begins scope k origin →
      (a.links scope origin k n).Pairwise Distinct
  | ⟨name, kind, table, aliasName, foreignKey, includes⟩, origin, k, n, ha, ho => by
    rw [links, List.pairwise_cons]
    have hk : Begins scope (k + 1) (tableId scope k) := .inr ⟨k, by omega, rfl⟩
    constructor
    · rintro m hm ⟨hsame, -⟩
      have hsame' : origin = m.join.origin := hsame
      rcases origin_of_mem_linksAll includes _ _ _ hm with ⟨hm, -⟩ | ⟨i, hi, -, hm⟩
      · exact ho.ne_tableId (Nat.le_refl k) (hsame'.trans hm)
      · exact ho.ne_tableId (by omega) (hsame'.trans hm)
    · exact distinct_linksAll includes _ _ _ ha hk

theorem distinct_linksAll {scope : Nat} :
    (as : List Association) → (origin : SourceId) → (k n : Nat) → AllApart as →
      Begins scope k origin → (linksAll scope as origin k n).Pairwise Distinct
  | [], _, _, _, _, _ => List.Pairwise.nil
  | a :: as, origin, k, n, ⟨hname, ha, has⟩, ho => by
    have ho' : Begins scope (k + a.size) origin := ho.mono (by omega)
    rw [linksAll, List.pairwise_append]
    refine ⟨distinct_links a origin k n ha ho, distinct_linksAll as origin _ _ has ho', ?_⟩
    rintro l hl m hm ⟨hsame, hvariant⟩
    rcases origin_of_mem_links a origin k n hl with ⟨hl, hlv⟩ | ⟨i, hk, hi, hl⟩
    · rcases origin_of_mem_linksAll as origin _ _ hm with ⟨-, b, hb, hmv⟩ | ⟨i', hi', -, hm⟩
      · exact hname b hb (hlv.symm.trans (hvariant.trans hmv))
      · exact ho'.ne_tableId hi' (hl.symm.trans (hsame.trans hm))
    · rcases origin_of_mem_linksAll as origin _ _ hm with ⟨hm, -⟩ | ⟨i', hi', -, hm⟩
      · exact ho.ne_tableId hk (hm.symm.trans (hsame.symm.trans hl))
      · have hindex := congrArg SourceId.index (hl.symm.trans (hsame.trans hm))
        simp only [tableId] at hindex
        omega

end

/-- Associations whose siblings have different names have joins that can be told apart. -/
theorem joinsApart_linksAll {scope : Nat} {as : List Association} (h : AllApart as)
    {origin : SourceId} {k : Nat} (ho : Begins scope k origin) (n : Nat) :
    Query.JoinsApart ((linksAll scope as origin k n).map Link.join) := by
  intro j hj j' hj' horigin hvariant
  obtain ⟨l, hl, rfl⟩ := List.mem_map.mp hj
  obtain ⟨m, hm, rfl⟩ := List.mem_map.mp hj'
  have hsymm : Std.Symm Distinct := ⟨fun _ _ h hs => h ⟨hs.1.symm, hs.2.symm⟩⟩
  by_cases hlm : l = m
  · rw [hlm]
  · exact absurd ⟨horigin, hvariant⟩ ((distinct_linksAll as origin k n h ho).forall hl hm hlm)

mutual

theorem selectionIndex_links {scope : Nat} {l : Link} :
    (a : Association) → (origin : SourceId) → (k n i : Nat) →
      (a.links scope origin k n)[i]? = some l → l.join.selectionIndex = n + i
  | ⟨name, kind, table, aliasName, foreignKey, includes⟩, origin, k, n, i, hl => by
    rw [links] at hl
    cases i with
    | zero =>
      cases hl
      rfl
    | succ i =>
      rw [List.getElem?_cons_succ] at hl
      rw [selectionIndex_linksAll includes _ _ _ i hl]
      omega

theorem selectionIndex_linksAll {scope : Nat} {l : Link} :
    (as : List Association) → (origin : SourceId) → (k n i : Nat) →
      (linksAll scope as origin k n)[i]? = some l → l.join.selectionIndex = n + i
  | [], _, _, _, _, hl => by cases hl
  | a :: as, origin, k, n, i, hl => by
    rw [linksAll] at hl
    have hlen := length_links scope a origin k n
    by_cases hi : i < a.size
    · rw [List.getElem?_append_left (by omega)] at hl
      exact selectionIndex_links a origin k n i hl
    · rw [List.getElem?_append_right (by omega)] at hl
      rw [selectionIndex_linksAll as origin _ _ _ hl, hlen]
      omega

end

end Association

end RelQuery
