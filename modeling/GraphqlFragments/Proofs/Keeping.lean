import GraphqlFragments.Proofs.Documents
import GraphqlFragments.Proofs.Plans
/-!
# Members that are kept

The document of a configuration is written anew from what was read of it. It has all of its
members again, at every depth, but those that say nothing and, of one project, those that belong
to the extensions for fragments.
-/

namespace GraphqlFragments

/-! ## Members of documents -/

namespace Json

variable {E F : List String → Json → Prop} {v w old new : Json} {t u : Table Json}
  {path more : List String} {name : String}

/-- The value that names of members lead to, from object to object. -/
def at? : Json → List String → Option Json
  | v, [] => some v
  | .object members, name :: path => (Table.get? members name).bind fun v => v.at? path
  | _, _ :: _ => none

def IsObject : Json → Prop
  | .object _ => True
  | _ => False

/-- Every member of one document, at any depth, is a member of another one with the same
value, unless it or a member around it is exempt. Of an object that stays one only its members
are compared. -/
def KeepsMembers (exempt : List String → Json → Prop) (old new : Json) : Prop :=
  ∀ path v, old.at? path = some v →
    (∃ above w, above <+: path ∧ old.at? above = some w ∧ exempt above w) ∨
      ∃ v', new.at? path = some v' ∧ (v' = v ∨ v.IsObject ∧ v'.IsObject)

@[simp] theorem at?_nil (v : Json) : v.at? [] = some v := by
  cases v <;> rfl

@[simp] theorem at?_object_cons (t : Table Json) (name : String) (path : List String) :
    (Json.object t).at? (name :: path) = (t.get? name).bind fun v => v.at? path := rfl

theorem at?_append (v : Json) (path more : List String) :
    v.at? (path ++ more) = (v.at? path).bind fun w => w.at? more := by
  induction path generalizing v with
  | nil => simp
  | cons name path ih =>
      cases v with
      | object members =>
          rw [List.cons_append, at?_object_cons, at?_object_cons, Option.bind_assoc]
          exact Option.bind_congr fun w _ => ih w
      | _ => rfl

theorem KeepsMembers.refl (E : List String → Json → Prop) (v : Json) : KeepsMembers E v v :=
  fun _ w hw => Or.inr ⟨w, hw, Or.inl rfl⟩

theorem KeepsMembers.mono (h : KeepsMembers E old new) (himp : ∀ path v, E path v → F path v) :
    KeepsMembers F old new := by
  intro path v hv
  rcases h path v hv with ⟨above, w, habove, hw, hexempt⟩ | hkept
  · exact Or.inl ⟨above, w, habove, hw, himp above w hexempt⟩
  · exact Or.inr hkept

/-- Objects are compared member by member. -/
theorem keepsMembers_object
    (h : ∀ name v, t.get? name = some v →
      E [name] v ∨ ∃ v', u.get? name = some v' ∧ KeepsMembers (fun path => E (name :: path)) v v') :
    KeepsMembers E (.object t) (.object u) := by
  intro path v hv
  cases path with
  | nil =>
      rw [at?_nil] at hv
      cases hv
      exact Or.inr ⟨.object u, at?_nil _, Or.inr ⟨trivial, trivial⟩⟩
  | cons name path =>
      obtain ⟨w, hw, hpath⟩ := Option.bind_eq_some_iff.mp hv
      rcases h name w hw with hexempt | ⟨w', hw', hkept⟩
      · refine Or.inl ⟨[name], w, ⟨path, rfl⟩, ?_, hexempt⟩
        rw [at?_object_cons, hw, Option.bind_some, at?_nil]
      · rcases hkept path v hpath with ⟨above, x, habove, hx, hexempt⟩ | ⟨v', hv', hsame⟩
        · refine Or.inl ⟨name :: above, x, List.cons_prefix_cons.mpr ⟨rfl, habove⟩, ?_, hexempt⟩
          rw [at?_object_cons, hw, Option.bind_some, hx]
        · refine Or.inr ⟨v', ?_, hsame⟩
          rw [at?_object_cons, hw', Option.bind_some, hv']

end Json

open Json (KeepsMembers)

/-! ## Settings -/

namespace ProjectSettings

variable {levels : Nat} {p p' : ProjectSettings} {d : Draft} {key : String} {v : Json}
  {E : List String → Json → Prop} {settings : FragmentSettings}

/-- The members that settings are written with. -/
theorem get?_members (hp : p.Readable levels) (key : String) :
    p.members.get? key =
      if key = schemaPathKey then p.schemaPath.map fun path => .string path
      else if key = extensionsKey then
        if p.extensions.isEmpty then none else some (.object p.extensions)
      else p.other.get? key := by
  have hpath : Table.get? (p.schemaPath.map fun path =>
      (schemaPathKey, Json.string path)).toList key =
        if key = schemaPathKey then p.schemaPath.map fun path => .string path else none := by
    cases p.schemaPath with
    | none => simp
    | some path => simp [Table.get?, eq_comm]
  have hextensions : Table.get?
      (if p.extensions.isEmpty then [] else [(extensionsKey, Json.object p.extensions)]) key =
        if key = extensionsKey then
          if p.extensions.isEmpty then none else some (.object p.extensions)
        else none := by
    by_cases hempty : p.extensions.isEmpty = true <;> simp [hempty, Table.get?, eq_comm]
  rw [members, Table.get?_append, Table.get?_append, hpath, hextensions]
  by_cases hkey : key = schemaPathKey
  · subst hkey
    have hnone : p.other.get? schemaPathKey = none :=
      Table.get?_eq_none_iff.mpr hp.schemaPath_notMem
    have hne : schemaPathKey ≠ extensionsKey := by decide
    rw [if_pos rfl, if_pos rfl, if_neg hne, hnone, Option.or_none, Option.or_none]
  · by_cases hextension : key = extensionsKey
    · have hnone : p.other.get? key = none :=
        Table.get?_eq_none_iff.mpr (hextension ▸ hp.extensions_notMem)
      rw [if_neg hkey, if_neg hkey, if_pos hextension, if_pos hextension, hnone, Option.or_none,
        Option.none_or]
    · simp [hkey, hextension]

theorem Readable.holds_draft (hp : p.Readable levels) : p.draft.Holds p.members := by
  intro key
  rw [get?_members hp, Draft.member?]
  by_cases hpath : key = schemaPathKey
  · rw [if_pos hpath, if_pos hpath]
    cases hschema : p.schemaPath <;> simp [draft, hschema]
  rw [if_neg hpath, if_neg hpath]
  by_cases hextension : key = extensionsKey
  · rw [if_pos hextension, if_pos hextension]
    by_cases hempty : p.extensions.isEmpty = true <;> simp [draft, hempty]
  · rw [if_neg hextension, if_neg hextension]
    rfl

/-- Extensions are a member of the document if there are any. -/
theorem member?_extensionsKey (hv : d.settings.extensions.get? key = some v) :
    d.member? extensionsKey = some (.object d.settings.extensions) := by
  have hmember : d.member? extensionsKey = d.extensions.map .object := rfl
  cases hextensions : d.extensions with
  | none =>
      rw [Draft.settings, hextensions] at hv
      cases hv
  | some extensions =>
      rw [hmember, Draft.settings, hextensions]
      rfl

/-- The extension for fragments, if there is one, is an object without members that mean
nothing there. -/
def HasKnownSettingsOnly (p : ProjectSettings) : Prop :=
  ∀ v, p.extensions.get? fragmentsExtension = some v → ∃ members : Table Json,
    v = .object members ∧ ∀ key ∈ members.keys, key = "output" ∨ key = "generator"

/-- Settings with other extensions, of which all members are kept that are not exempt. -/
structure Edits (E : List String → Json → Prop) (p p' : ProjectSettings) : Prop where
  schemaPath : p'.schemaPath = p.schemaPath
  other : p'.other = p.other
  extensions : p.extensions ≠ [] →
    p'.extensions ≠ [] ∧ KeepsMembers E (.object p.extensions) (.object p'.extensions)

theorem Edits.refl (E : List String → Json → Prop) (p : ProjectSettings) : Edits E p p :=
  ⟨rfl, rfl, fun h => ⟨h, .refl E _⟩⟩

theorem edits_setFragmentSettings
    (h : KeepsMembers E (.object p.extensions)
      (.object (p.setFragmentSettings settings).extensions)) :
    Edits E p (p.setFragmentSettings settings) := by
  refine ⟨rfl, rfl, fun _ => ⟨fun hnil => ?_, h⟩⟩
  have hsome := get?_setFragmentSettings_self p settings
  rw [hnil] at hsome
  cases hsome

/-- The extensions that new settings for fragments take the place of. -/
def replacedExtensions : List (List String) := [[formerFragmentsExtension], [fragmentsExtension]]

/-- The former extension for fragments and the settings in the present one. -/
def replacedMembers : List (List String) :=
  [[formerFragmentsExtension], [fragmentsExtension, "output"], [fragmentsExtension, "generator"]]

/-- New settings for fragments keep all other extensions. -/
theorem keepsMembers_extensions (hp : p.extensions.keys.Nodup) (settings : FragmentSettings) :
    KeepsMembers (fun path _ => path ∈ replacedExtensions) (.object p.extensions)
      (.object (p.setFragmentSettings settings).extensions) := by
  refine Json.keepsMembers_object fun key v hv => ?_
  by_cases hformer : key = formerFragmentsExtension
  · exact Or.inl (by simp [replacedExtensions, hformer])
  by_cases hfragments : key = fragmentsExtension
  · exact Or.inl (by simp [replacedExtensions, hfragments])
  · rw [get?_setFragmentSettings_of_ne hp hfragments hformer]
    exact Or.inr ⟨v, hv, .refl _ _⟩

theorem keepsMembers_extensions_of_known (hp : p.extensions.keys.Nodup)
    (hknown : p.HasKnownSettingsOnly) (settings : FragmentSettings) :
    KeepsMembers (fun path _ => path ∈ replacedMembers) (.object p.extensions)
      (.object (p.setFragmentSettings settings).extensions) := by
  refine Json.keepsMembers_object fun key v hv => ?_
  by_cases hformer : key = formerFragmentsExtension
  · exact Or.inl (by simp [replacedMembers, hformer])
  by_cases hfragments : key = fragmentsExtension
  · subst hfragments
    obtain ⟨members, rfl, hkeys⟩ := hknown v hv
    refine Or.inr ⟨settings.toJson, get?_setFragmentSettings_self p settings, ?_⟩
    refine Json.keepsMembers_object fun member w hw => Or.inl ?_
    have hmember : member ∈ members.keys :=
      Table.isSome_get?_iff.mp (Option.isSome_of_eq_some hw)
    rcases hkeys member hmember with rfl | rfl <;> simp [replacedMembers]
  · rw [get?_setFragmentSettings_of_ne hp hfragments hformer]
    exact Or.inr ⟨v, hv, .refl _ _⟩

/-- A member that was read of the settings is written, unless it is null or empty. -/
theorem exists_member_of_edits (hp' : p'.Readable levels)
    (hedits : Edits (fun path => E (extensionsKey :: path)) d.settings p')
    (hnull : E [schemaPathKey] .null) (hempty : E [extensionsKey] (.object []))
    (hv : d.member? key = some v) :
    E [key] v ∨
      ∃ v', p'.members.get? key = some v' ∧ KeepsMembers (fun path => E (key :: path)) v v' := by
  rw [get?_members hp']
  by_cases hpath : key = schemaPathKey
  · subst hpath
    obtain ⟨path, hpath, rfl⟩ := Option.map_eq_some_iff.mp hv
    cases path with
    | none => exact Or.inl hnull
    | some path =>
        have hsame : p'.schemaPath = some path := by
          rw [hedits.schemaPath, Draft.settings, hpath]
          rfl
        refine Or.inr ⟨.string path, ?_, .refl _ _⟩
        rw [if_pos rfl, hsame]
        rfl
  rw [Draft.member?, if_neg hpath] at hv
  rw [if_neg hpath]
  by_cases hextension : key = extensionsKey
  · subst hextension
    rw [if_pos rfl] at hv
    obtain ⟨extensions, hextensions, rfl⟩ := Option.map_eq_some_iff.mp hv
    by_cases hnil : extensions = []
    · rw [hnil]
      exact Or.inl hempty
    · have hread : d.settings.extensions = extensions := by
        rw [Draft.settings, hextensions]
        rfl
      obtain ⟨hnil', hkept⟩ := hedits.extensions (hread ▸ hnil)
      rw [hread] at hkept
      refine Or.inr ⟨.object p'.extensions, ?_, hkept⟩
      rw [if_pos rfl, if_neg fun h => hnil' (List.isEmpty_iff.mp h)]
  · rw [if_neg hextension] at hv
    refine Or.inr ⟨v, ?_, .refl _ _⟩
    rw [if_neg hextension, hedits.other]
    exact hv

end ProjectSettings

/-! ## Configurations -/

namespace Configuration

open ProjectSettings (Edits)

variable {c c' : Configuration} {t : Table Json} {E : List String → Json → Prop} {name : String}

/-- Where the settings of a project stand in the document. -/
def place (c : Configuration) (name : String) : List String :=
  if c.projects.isEmpty then [] else [projectsKey, name]

/-- A member that is understood and says nothing: a schema path that is null, or extensions or
projects that are empty. -/
inductive SaysNothing : List String → Json → Prop
  | rootSchemaPath : SaysNothing [schemaPathKey] .null
  | rootExtensions : SaysNothing [extensionsKey] (.object [])
  | projects : SaysNothing [projectsKey] (.object [])
  | schemaPath (name : String) : SaysNothing [projectsKey, name, schemaPathKey] .null
  | extensions (name : String) : SaysNothing [projectsKey, name, extensionsKey] (.object [])

/-- The members that a configuration is written with. -/
theorem get?_root_append_projects (hc : c.Readable) (key : String) :
    Table.get? (c.root.members ++ c.projectMembers) key =
      if key = projectsKey then
        if c.projects.isEmpty then none
        else some (.object (c.projects.map fun e => (e.1, e.2.toJson)))
      else c.root.members.get? key := by
  rw [Table.get?_append, projectMembers]
  by_cases hkey : key = projectsKey
  · have hnone : c.root.members.get? key = none := by
      refine Table.get?_eq_none_iff.mpr fun hmem => ?_
      obtain ⟨e, he, hsame⟩ := List.mem_map.mp hmem
      exact hc.root.ne_of_mem_members he (hsame.trans hkey)
    rw [if_pos hkey, hnone, Option.none_or, hkey]
    by_cases hempty : c.projects.isEmpty = true <;> simp [hempty, Table.get?]
  · rw [if_neg hkey]
    by_cases hempty : c.projects.isEmpty = true
    · rw [if_pos hempty]
      exact Option.or_none
    · have hne : projectsKey ≠ key := Ne.symm hkey
      simp [hempty, Table.get?, hne]

theorem keepsMembers_toJson (ht : c.StatedBy t) (hc' : c'.Readable)
    (hE : ∀ path v, SaysNothing path v → E path v)
    (hroot : Edits (fun path => E (extensionsKey :: path)) c.root c'.root)
    (hprojects : ∀ name p, c.projects.get? name = some p →
      ∃ p', c'.projects.get? name = some p' ∧
        Edits (fun path => E (projectsKey :: name :: extensionsKey :: path)) p p') :
    KeepsMembers E (.object t) c'.toJson := by
  rw [toJson_eq]
  refine Json.keepsMembers_object fun key v hv => ?_
  rw [get?_root_append_projects hc']
  by_cases hkey : key = projectsKey
  · subst hkey
    rcases ht.projects with ⟨hnone, -⟩ | ⟨u, hu, hsame⟩
    · rw [hnone] at hv
      cases hv
    rw [hu] at hv
    cases hv
    cases u with
    | nil => exact Or.inl (hE _ _ .projects)
    | cons first more =>
        have hfirst : Table.get? (first :: more) first.1 = some first.2 := by
          rw [Table.get?, if_pos rfl]
        obtain ⟨p, hp, -⟩ := hsame.exists_left hfirst
        obtain ⟨p', hp', -⟩ := hprojects _ p hp
        have hempty : ¬c'.projects.isEmpty := by
          intro h
          rw [List.isEmpty_iff.mp h] at hp'
          cases hp'
        rw [if_pos rfl, if_neg hempty]
        refine Or.inr ⟨_, rfl, Json.keepsMembers_object fun name w hw => ?_⟩
        obtain ⟨p, hp, t', d, rfl, hdt, rfl⟩ := hsame.exists_left hw
        obtain ⟨p', hp', hedits⟩ := hprojects name _ hp
        refine Or.inr ⟨p'.toJson, ?_, ?_⟩
        · rw [Table.get?_map, hp']
          rfl
        · have hreadable := hc'.projects.values _ (Table.mem_of_get? hp')
          refine Json.keepsMembers_object fun key x hx => ?_
          exact ProjectSettings.exists_member_of_edits
            (E := fun path => E (projectsKey :: name :: path)) hreadable hedits
            (hE _ _ (.schemaPath name)) (hE _ _ (.extensions name)) ((hdt key).symm.trans hx)
  · rw [if_neg hkey]
    obtain ⟨d, hd, hroots⟩ := ht.root
    rw [← hd] at hroot
    exact ProjectSettings.exists_member_of_edits hc'.root.settings hroot
      (hE _ _ .rootSchemaPath) (hE _ _ .rootExtensions) ((hroots key hkey).symm.trans hv)

/-- Exempt are members that say nothing and some of the extensions of a project. -/
def Exempt (c : Configuration) (name : String) (replaced : List (List String))
    (path : List String) (v : Json) : Prop :=
  SaysNothing path v ∨ ∃ below ∈ replaced, path = c.place name ++ extensionsKey :: below

/-- What becomes of the extensions of a project becomes of the document. -/
theorem keepsMembers_setFragmentSettings {settings : FragmentSettings}
    {replaced : List (List String)} (ht : c.StatedBy t) (hc : c.Readable)
    (hname : name ∈ c.projectNames)
    (h : ∀ p, c.project? name = some p → KeepsMembers (fun path _ => path ∈ replaced)
      (.object p.extensions) (.object (p.setFragmentSettings settings).extensions)) :
    KeepsMembers (c.Exempt name replaced) (.object t)
      (c.modifyProject name (·.setFragmentSettings settings)).toJson := by
  have hc' := hc.setFragmentSettings name settings
  cases hempty : c.projects.isEmpty with
  | true =>
      have hdefault : name = defaultProject := by
        rw [projectNames, if_pos hempty] at hname
        exact List.mem_singleton.mp hname
      have hplace : c.place name = [] := if_pos hempty
      have hproject : c.project? name = some c.root := by
        rw [project?, if_pos hempty, if_pos hdefault]
      have hroot : (c.modifyProject name (·.setFragmentSettings settings)).root =
          c.root.setFragmentSettings settings := by
        rw [modifyProject, if_pos hempty, if_pos hdefault]
      refine keepsMembers_toJson ht hc' (fun path v => Or.inl) ?_ ?_
      · rw [hroot]
        refine ProjectSettings.edits_setFragmentSettings ((h c.root hproject).mono ?_)
        intro path v hpath
        exact Or.inr ⟨path, hpath, by rw [hplace, List.nil_append]⟩
      · intro other p hp
        rw [List.isEmpty_iff.mp hempty] at hp
        cases hp
  | false =>
      have hplace : c.place name = [projectsKey, name] := by
        rw [place, hempty, if_neg Bool.false_ne_true]
      have hprojects : (c.modifyProject name (·.setFragmentSettings settings)).projects =
          c.projects.modify name (·.setFragmentSettings settings) := by
        rw [modifyProject, hempty, if_neg Bool.false_ne_true]
      refine keepsMembers_toJson ht hc' (fun path v => Or.inl) ?_ ?_
      · rw [root_modifyProject hempty]
        exact .refl _ _
      · intro other p hp
        rw [hprojects]
        by_cases hother : other = name
        · subst hother
          have hproject : c.project? other = some p := by
            rw [project?, hempty, if_neg Bool.false_ne_true, hp]
          refine ⟨_, by rw [Table.get?_modify_self, hp]; rfl, ?_⟩
          refine ProjectSettings.edits_setFragmentSettings ((h p hproject).mono ?_)
          intro path v hpath
          exact Or.inr ⟨path, hpath, by rw [hplace]; rfl⟩
        · rw [Table.get?_modify_of_ne _ _ hother]
          exact ⟨p, hp, .refl _ _⟩

end Configuration

end GraphqlFragments
