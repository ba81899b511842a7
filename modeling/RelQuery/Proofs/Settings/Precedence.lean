import Mathlib.Data.String.Basic
import RelQuery.Settings.Resolve

/-!
# The order of the settings

A settings file that declares a location decides, whatever the environment says. Where there is no
file, the address of the environment decides, then its path, then the default. A file that is there
and declares nothing is passed over like one that is not there, so that the environment decides
against it.
-/

set_option autoImplicit false

namespace RelQuery

namespace Text

variable {sought cs pre : List Char}

theorem before?_eq_some_iff : before? sought cs = some pre ↔
    (∃ post, cs = pre ++ (sought ++ post)) ∧
      ∀ pre' post', cs = pre' ++ (sought ++ post') → pre.length ≤ pre'.length := by
  induction cs generalizing pre with
  | nil =>
    rw [before?]
    constructor
    · intro h
      split at h
      · rename_i hempty
        cases h
        rw [List.isEmpty_iff] at hempty
        exact ⟨⟨[], by rw [hempty]; rfl⟩, fun _ _ _ => Nat.zero_le _⟩
      · cases h
    · rintro ⟨⟨post, h⟩, -⟩
      obtain ⟨rfl, hrest⟩ := List.append_eq_nil_iff.mp h.symm
      obtain ⟨rfl, -⟩ := List.append_eq_nil_iff.mp hrest
      rfl
  | cons c cs ih =>
    rw [before?]
    split
    · rename_i hstarts
      obtain ⟨post, hpost⟩ := (startsWith_iff _ _).mp hstarts
      constructor
      · rintro ⟨⟩
        exact ⟨⟨post, hpost⟩, fun _ _ _ => Nat.zero_le _⟩
      · rintro ⟨-, hfirst⟩
        have hlen := hfirst [] post hpost
        rw [List.length_eq_zero_iff.mp (Nat.le_zero.mp hlen)]
    · rename_i hstarts
      have hcons : ∀ p post, c :: cs = p ++ (sought ++ post) →
          ∃ p', p = c :: p' ∧ cs = p' ++ (sought ++ post) := by
        intro p post h
        cases p with
        | nil => exact absurd ((startsWith_iff _ _).mpr ⟨post, h⟩) hstarts
        | cons d p =>
          cases h
          exact ⟨p, rfl, rfl⟩
      rw [Option.map_eq_some_iff]
      constructor
      · rintro ⟨p, hp, rfl⟩
        obtain ⟨⟨post, hpost⟩, hfirst⟩ := ih.mp hp
        refine ⟨⟨post, congrArg (c :: ·) hpost⟩, fun p' post' h => ?_⟩
        obtain ⟨p', rfl, hrest⟩ := hcons p' post' h
        exact Nat.succ_le_succ (hfirst p' post' hrest)
      · rintro ⟨⟨post, hpost⟩, hfirst⟩
        obtain ⟨p, rfl, hrest⟩ := hcons pre post hpost
        refine ⟨p, ih.mpr ⟨⟨post, hrest⟩, fun p' post' h => ?_⟩, rfl⟩
        exact Nat.le_of_succ_le_succ (hfirst (c :: p') post' (congrArg (c :: ·) h))

theorem before?_eq_none_iff :
    before? sought cs = none ↔ ∀ pre post, cs ≠ pre ++ (sought ++ post) := by
  rw [← Option.not_isSome_iff_eq_none, before?_isSome, occurs_iff]
  simp only [not_exists, ne_eq]

end Text

namespace Location

/-- What an address names. A scheme ends at the first mark, and only one of them is served. -/
inductive Named (address : String) : Except UnsupportedScheme Location → Prop
  | memory (h : address = ":memory:") : Named address (.ok .memory)
  | served {path : String} (h : address = "sqlite://" ++ path) : Named address (.ok (.file path))
  | refused {scheme rest : String} (hmemory : address ≠ ":memory:")
    (hserved : ∀ path, address ≠ "sqlite://" ++ path) (h : address = scheme ++ "://" ++ rest)
    (hfirst : ∀ before after, address = before ++ "://" ++ after →
      scheme.length ≤ before.length) : Named address (.error ⟨scheme⟩)
  | path (hmemory : address ≠ ":memory:")
    (h : ∀ before after, address ≠ before ++ "://" ++ after) : Named address (.ok (.file address))

theorem eq_marked_iff {address before after : String} :
    address = before ++ "://" ++ after ↔
      address.toList = before.toList ++ ("://".toList ++ after.toList) := by
  rw [← String.toList_inj, String.toList_append, String.toList_append, List.append_assoc]

theorem eq_served_iff {address path : String} :
    address = "sqlite://" ++ path ↔ address.toList = "sqlite://".toList ++ path.toList := by
  rw [← String.toList_inj, String.toList_append]

theorem startsWith_served_iff {address : String} :
    Text.startsWith "sqlite://".toList address.toList = true ↔
      ∃ path, address = "sqlite://" ++ path := by
  rw [Text.startsWith_iff]
  constructor
  · rintro ⟨rest, hrest⟩
    exact ⟨String.ofList rest, eq_served_iff.mpr (by rwa [@String.toList_ofList rest])⟩
  · rintro ⟨path, h⟩
    exact ⟨path.toList, eq_served_iff.mp h⟩

theorem drop_served (path : String) :
    String.ofList (("sqlite://" ++ path).toList.drop 9) = path := by
  rw [String.toList_append]
  exact String.ofList_toList

theorem before?_eq_some {address scheme : String} :
    Text.before? "://".toList address.toList = some scheme.toList ↔
      (∃ rest, address = scheme ++ "://" ++ rest) ∧
        ∀ before after, address = before ++ "://" ++ after → scheme.length ≤ before.length := by
  rw [Text.before?_eq_some_iff]
  refine and_congr ⟨?_, ?_⟩ ⟨?_, ?_⟩
  · rintro ⟨rest, h⟩
    exact ⟨String.ofList rest, eq_marked_iff.mpr (by rwa [@String.toList_ofList rest])⟩
  · rintro ⟨rest, h⟩
    exact ⟨rest.toList, eq_marked_iff.mp h⟩
  · intro h before after hmarked
    exact h before.toList after.toList (eq_marked_iff.mp hmarked)
  · intro h before after hmarked
    have hlen := h (String.ofList before) (String.ofList after)
      (eq_marked_iff.mpr (by rwa [@String.toList_ofList before, @String.toList_ofList after]))
    rwa [String.length_ofList] at hlen

theorem before?_eq_none {address : String} :
    Text.before? "://".toList address.toList = none ↔
      ∀ before after, address ≠ before ++ "://" ++ after := by
  rw [Text.before?_eq_none_iff]
  constructor
  · intro h before after hmarked
    exact h before.toList after.toList (eq_marked_iff.mp hmarked)
  · intro h before after hmarked
    refine h (String.ofList before) (String.ofList after) (eq_marked_iff.mpr ?_)
    rwa [@String.toList_ofList before, @String.toList_ofList after]

theorem named_iff {address : String} {r : Except UnsupportedScheme Location} :
    Named address r ↔ ofAddress address = r := by
  constructor
  · intro h
    cases h with
    | memory h => rw [ofAddress, if_pos h]
    | @served path h =>
      have hmemory : "sqlite://" ++ path ≠ ":memory:" := by
        intro heq
        have hletters := congrArg String.toList heq
        rw [String.toList_append] at hletters
        cases hletters
      rw [h, ofAddress, if_neg hmemory, if_pos (startsWith_served_iff.mpr ⟨path, rfl⟩), drop_served]
    | @refused scheme rest hmemory hserved h hfirst =>
      have hstarts : ¬Text.startsWith "sqlite://".toList address.toList = true := fun hstarts =>
        (startsWith_served_iff.mp hstarts).elim hserved
      rw [ofAddress, if_neg hmemory, if_neg hstarts, before?_eq_some.mpr ⟨⟨rest, h⟩, hfirst⟩]
      show (Except.error ⟨String.ofList scheme.toList⟩ : Except UnsupportedScheme Location) = _
      rw [String.ofList_toList]
    | path hmemory h =>
      have hstarts : ¬Text.startsWith "sqlite://".toList address.toList = true := fun hstarts =>
        (startsWith_served_iff.mp hstarts).elim fun path hpath => h "sqlite" path hpath
      rw [ofAddress, if_neg hmemory, if_neg hstarts, before?_eq_none.mpr h]
  · rintro rfl
    rw [ofAddress]
    split
    · rename_i h
      exact .memory h
    rename_i hmemory
    split
    · rename_i hstarts
      obtain ⟨path, rfl⟩ := startsWith_served_iff.mp hstarts
      rw [drop_served]
      exact .served rfl
    rename_i hstarts
    have hserved : ∀ path, address ≠ "sqlite://" ++ path := fun path hpath =>
      hstarts (startsWith_served_iff.mpr ⟨path, hpath⟩)
    split
    · rename_i scheme hscheme
      rw [← @String.toList_ofList scheme] at hscheme
      obtain ⟨⟨rest, h⟩, hfirst⟩ := before?_eq_some.mp hscheme
      exact .refused hmemory hserved h hfirst
    · rename_i hnone
      exact .path hmemory (before?_eq_none.mp hnone)

end Location

namespace Settings

/-- Where the environment says that the database is. -/
inductive Environment.Gives (env : Environment) : Except UnsupportedScheme Location → Prop
  | address {address : String} {r : Except UnsupportedScheme Location}
    (h : env.address = some address) (hr : Location.Named address r) : Gives env r
  | path {path : String} (h : env.address = none) (hp : env.path = some path) :
    Gives env (.ok (.file path))
  | default (h : env.address = none) (hp : env.path = none) :
    Gives env (.ok (.file "./rowshape.sqlite"))

variable {file : FileState} {env : Environment} {r : Except UnsupportedScheme Location}

theorem resolve_of_load {l : Location} (h : load file = .ok l) (env : Environment) :
    resolve file env = .ok l := by
  rw [resolve, h]

theorem resolve_gives (h : ∀ l, load file ≠ .ok l) (env : Environment) :
    env.Gives (resolve file env) := by
  obtain ⟨e, he⟩ : ∃ e, load file = .error e := by
    cases hload : load file with
    | error e => exact ⟨e, rfl⟩
    | ok l => exact absurd hload (h l)
  rw [resolve, he]
  obtain ⟨_ | address, path⟩ := env
  · cases path with
    | none => exact .default rfl rfl
    | some path => exact .path rfl rfl
  · simp only [fromEnvironment]
    cases hr : Location.ofAddress address with
    | error e => exact .address rfl (Location.named_iff.mpr hr)
    | ok l => exact .address rfl (Location.named_iff.mpr hr)

theorem Environment.Gives.unique {r' : Except UnsupportedScheme Location} (h : env.Gives r)
    (h' : env.Gives r') : r = r' := by
  cases h with
  | address ha hr =>
    cases h' with
    | address ha' hr' =>
      cases ha.symm.trans ha'
      exact (Location.named_iff.mp hr).symm.trans (Location.named_iff.mp hr')
    | path ha' | default ha' => cases ha.symm.trans ha'
  | path ha hp =>
    cases h' with
    | address ha' => cases ha.symm.trans ha'
    | path _ hp' =>
      cases hp.symm.trans hp'
      rfl
    | default _ hp' => cases hp.symm.trans hp'
  | default ha hp =>
    cases h' with
    | address ha' => cases ha.symm.trans ha'
    | path _ hp' => cases hp.symm.trans hp'
    | default => rfl

theorem resolve_eq_iff (h : ∀ l, load file ≠ .ok l) : resolve file env = r ↔ env.Gives r := by
  have hresolve := resolve_gives h env
  exact ⟨fun heq => heq ▸ hresolve, fun hr => hresolve.unique hr⟩

/-- Nothing but what the file declares is resolved, where it declares something or the address of
the environment is refused. -/
theorem only_declared_iff : (∀ l, resolve file env = .ok l → load file = .ok l) ↔
    (∃ l, load file = .ok l) ∨
      ∃ address e, env.address = some address ∧ Location.Named address (.error e) := by
  by_cases hdeclared : ∃ l, load file = .ok l
  · obtain ⟨l, hl⟩ := hdeclared
    refine iff_of_true (fun l' hl' => ?_) (.inl ⟨l, hl⟩)
    rw [resolve_of_load hl env] at hl'
    cases hl'
    exact hl
  · have hundeclared : ∀ l, load file ≠ .ok l := fun l hl => hdeclared ⟨l, hl⟩
    constructor
    · intro h
      have hresolve := resolve_gives hundeclared env
      cases hr : resolve file env with
      | error e =>
        rw [hr] at hresolve
        cases hresolve with
        | address ha hnamed => exact .inr ⟨_, e, ha, hnamed⟩
      | ok l => exact absurd (h l hr) (hundeclared l)
    · rintro (hl | ⟨address, e, ha, hnamed⟩) l hr
      · exact absurd hl hdeclared
      · cases ((resolve_eq_iff hundeclared).mpr (.address ha hnamed)).symm.trans hr

/-- A result that passes no settings file over: a file that is there declares it, or there is none
and the environment gives it. -/
def Respects (file : FileState) (env : Environment) (r : Except UnsupportedScheme Location) :
    Prop :=
  match file with
  | .absent => env.Gives r
  | .directory | .contents _ => ∀ l, r = .ok l → load file = .ok l

/-- What is resolved is what the file declares, or else what the environment gives. So a file that
is there is passed over exactly if it declares nothing and the environment gives a location. -/
theorem resolve_respects_iff (file : FileState) (env : Environment) :
    (∀ l, load file = .ok l → resolve file env = .ok l) ∧
    ((∀ l, load file ≠ .ok l) → ∀ r, resolve file env = r ↔ env.Gives r) ∧
    (Respects file env (resolve file env) ↔ file = .absent ∨ (∃ l, load file = .ok l) ∨
      ∃ address e, env.address = some address ∧ Location.Named address (.error e)) := by
  refine ⟨fun l h => resolve_of_load h env, fun h _ => resolve_eq_iff h, ?_⟩
  cases file with
  | absent =>
    have hundeclared : ∀ l, load .absent ≠ .ok l := by
      intro l h
      cases h
    exact iff_of_true (resolve_gives hundeclared env) (.inl rfl)
  | directory | contents bytes =>
    rw [Respects, only_declared_iff]
    simp only [reduceCtorEq, false_or]

def brokenFile : FileState :=
  .contents "\x7b invalid json \x7d".toUTF8

/-- The broken file is passed over for a database in memory. -/
theorem brokenFile_ignored : load brokenFile = .error .invalid ∧
    resolve brokenFile ⟨some ":memory:", none⟩ = .ok .memory ∧
    ¬Respects brokenFile ⟨some ":memory:", none⟩ (resolve brokenFile ⟨some ":memory:", none⟩) := by
  have hload : load brokenFile = .error .invalid := by decide +kernel
  have hresolve : resolve brokenFile ⟨some ":memory:", none⟩ = .ok .memory := by
    rw [resolve, hload]
    rfl
  refine ⟨hload, hresolve, fun hrespects => ?_⟩
  cases hload.symm.trans (hrespects .memory hresolve)

end Settings

end RelQuery
