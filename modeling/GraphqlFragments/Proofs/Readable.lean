import GraphqlFragments.Project.Configuration
import GraphqlFragments.Proofs.Faults
import GraphqlFragments.Proofs.Json.Values
/-!
# What configurations hold

A configuration that has been read names each of its members once, has none of the
members it understands among the other ones, and its values nest no deeper than a document
may. An empty configuration does so as well, and new settings for fragments keep it so.
-/

namespace GraphqlFragments

open Json.Reader

/-! ## Settings -/

/-- The settings are such as can be read where values may nest to so many levels. -/
structure ProjectSettings.Readable (levels : Nat) (p : ProjectSettings) : Prop where
  extensions : p.extensions.IsSound (Json.Fits (levels - 1))
  other : p.other.IsSound (Json.Fits levels)
  schemaPath_notMem : schemaPathKey ∉ p.other.keys
  extensions_notMem : extensionsKey ∉ p.other.keys

theorem FragmentSettings.fits_toJson (settings : FragmentSettings) (levels : Nat) :
    settings.toJson.Fits (levels + 1) := by
  obtain ⟨output, generator⟩ := settings
  have hstring (s : String) : Json.Fits levels (.string s) := Json.fits_string s
  show Table.IsSound (Json.Fits levels) _
  constructor
  · show (Table.keys ((output.map fun text => ("output", Json.string text)).toList ++
      (generator.map fun text => ("generator", Json.string text)).toList)).Nodup
    cases output <;> cases generator <;> simp [Table.keys]
  · intro member hmember
    rcases List.mem_append.mp hmember with h | h
    · obtain ⟨text, -, rfl⟩ := Option.map_eq_some_iff.mp (Option.mem_toList.mp h)
      exact hstring text
    · obtain ⟨text, -, rfl⟩ := Option.map_eq_some_iff.mp (Option.mem_toList.mp h)
      exact hstring text

namespace ProjectSettings

variable {levels : Nat} {p : ProjectSettings} {d : Draft} {key : String} {v : Json}

theorem readable_empty (levels : Nat) : empty.Readable levels :=
  ⟨Table.isSound_nil, Table.isSound_nil, List.not_mem_nil, List.not_mem_nil⟩

theorem Readable.withSchemaPath (h : p.Readable levels) (path : Option String) :
    ({ p with schemaPath := path } : ProjectSettings).Readable levels :=
  ⟨h.extensions, h.other, h.schemaPath_notMem, h.extensions_notMem⟩

theorem Readable.withExtensions (h : p.Readable levels) {extensions : Table Json}
    (hextensions : extensions.IsSound (Json.Fits (levels - 1))) :
    ({ p with extensions := extensions } : ProjectSettings).Readable levels :=
  ⟨hextensions, h.other, h.schemaPath_notMem, h.extensions_notMem⟩

theorem Readable.setFragmentSettings (h : p.Readable levels) (hlevels : 2 ≤ levels)
    (settings : FragmentSettings) : (p.setFragmentSettings settings).Readable levels := by
  -- The settings are an object of texts among the extensions, which are an object, too.
  obtain ⟨n, rfl⟩ : ∃ n, levels = n + 2 := ⟨levels - 2, by omega⟩
  exact h.withExtensions ((h.extensions.erase _).insert _ (settings.fits_toJson n))

/-- A member that is not understood goes to the other ones. -/
theorem Readable.insertOther (h : p.Readable levels) (hpath : key ≠ schemaPathKey)
    (hextensions : key ≠ extensionsKey) (hv : v.Fits levels) :
    ({ p with other := p.other.insert key v } : ProjectSettings).Readable levels := by
  refine ⟨h.extensions, h.other.insert key hv, fun hmem => ?_, fun hmem => ?_⟩
  · rcases Table.mem_keys_insert_iff.mp hmem with hkey | hold
    · exact hpath hkey.symm
    · exact h.schemaPath_notMem hold
  · rcases Table.mem_keys_insert_iff.mp hmem with hkey | hold
    · exact hextensions hkey.symm
    · exact h.extensions_notMem hold

theorem yields_memberReader (hd : d.settings.Readable levels) :
    Yields (memberReader levels key d) fun d => d.settings.Readable levels := by
  unfold memberReader
  refine .ite (fun _ => ?_) fun hpath => .ite (fun _ => ?_) fun hextensions => ?_
  · exact .optional fun _ => .seq fun _ => .seq fun path => .pure (hd.withSchemaPath path)
  · refine .optional fun _ => .seq fun _ => (yields_tableOf .map yields_value).bind fun t ht => ?_
    exact .pure (hd.withExtensions ht)
  · exact .seq fun _ => yields_value.bind fun v hv =>
      .pure (hd.insertOther hpath hextensions hv)

theorem yields_reader (levels : Nat) : Yields (reader levels) (Readable levels) := by
  unfold reader
  have hmembers : Yields (Json.Reader.members (memberReader levels) .empty)
      fun d => d.settings.Readable levels :=
    yields_members (fun key d hd => yields_memberReader hd) (readable_empty levels)
  exact .seq fun _ => hmembers.bind fun d hd => .seq fun _ => .pure hd

end ProjectSettings

/-! ## Configurations -/

namespace Configuration

/-- The settings at the top level have no member for the projects among the other ones. -/
structure RootReadable (levels : Nat) (p : ProjectSettings) : Prop where
  settings : p.Readable levels
  projects_notMem : projectsKey ∉ p.other.keys

/-- The settings of the configuration can be read as deep as they stand in it. Those of
projects stand two levels below those at the top level. -/
structure Readable (c : Configuration) : Prop where
  root : RootReadable (Json.nestingLimit - 1) c.root
  projects : c.projects.IsSound (ProjectSettings.Readable (Json.nestingLimit - 3))

theorem Readable.project {c : Configuration} (h : c.Readable) {name : String}
    {p : ProjectSettings} (hp : c.project? name = some p) : ∃ levels, p.Readable levels := by
  unfold project? at hp
  split at hp
  · split at hp
    · cases hp
      exact ⟨_, h.root.settings⟩
    · cases hp
  · exact ⟨_, h.projects.values _ (Table.mem_of_get? hp)⟩

theorem rootReadable_empty (levels : Nat) : RootReadable levels .empty :=
  ⟨ProjectSettings.readable_empty levels, List.not_mem_nil⟩

theorem readable_empty (path : FilePath) : (empty path).Readable :=
  ⟨rootReadable_empty _, Table.isSound_nil⟩

theorem Readable.setFragmentSettings {c : Configuration} (h : c.Readable) (name : String)
    (settings : FragmentSettings) :
    (c.modifyProject name (·.setFragmentSettings settings)).Readable := by
  unfold modifyProject
  split
  · split
    · have hroot := h.root.settings.setFragmentSettings (by decide) settings
      exact ⟨⟨hroot, h.root.projects_notMem⟩, h.projects⟩
    · exact h
  · have hprojects : (c.projects.modify name (·.setFragmentSettings settings)).IsSound
        (ProjectSettings.Readable (Json.nestingLimit - 3)) :=
      h.projects.modify name fun p hp => hp.setFragmentSettings (by decide) settings
    exact ⟨h.root, hprojects⟩

/-! ## Reading -/

section Reading

variable {levels : Nat} {key : String} {d d' : ProjectSettings.Draft} {v : Json}

/-- The draft holds projects that can be read and other members that are no projects. -/
structure Draft.Readable (levels : Nat) (d : Draft) : Prop where
  projects : (d.projects.getD []).IsSound (ProjectSettings.Readable (levels - 2))
  rest : ∀ member ∈ d.rest, member.1 ≠ projectsKey ∧ member.2.Fits levels

theorem yields_memberReader {d : Draft} (hd : d.Readable levels) :
    Yields (memberReader levels key d) (Draft.Readable levels) := by
  unfold memberReader
  refine .ite (fun _ => ?_) fun hkey => ?_
  · refine .optional fun _ => .seq fun _ => ?_
    exact (yields_tableOf .map (ProjectSettings.yields_reader _)).bind fun t ht =>
      .pure ⟨ht, hd.rest⟩
  · refine .seq fun _ => yields_value.bind fun v hv => .pure ⟨hd.projects, ?_⟩
    intro member hmember
    rcases List.mem_append.mp hmember with hold | hnew
    · exact hd.rest member hold
    · rw [List.mem_singleton.mp hnew]
      exact ⟨hkey, hv⟩

theorem readable_rootMember (hd : RootReadable levels d.settings) (hkey : key ≠ projectsKey)
    (hv : v.Fits levels) (h : rootMember d (key, v) = .ok d') :
    RootReadable levels d'.settings := by
  obtain ⟨hsettings, hprojects⟩ := hd
  unfold rootMember at h
  dsimp only at h
  split at h
  · -- The path of the schema.
    split at h
    · cases h
    · split at h
      · cases h
        exact ⟨hsettings.withSchemaPath none, hprojects⟩
      · cases h
        exact ⟨hsettings.withSchemaPath _, hprojects⟩
      · cases h
  · next hpath =>
      split at h
      · -- The extensions.
        split at h
        · cases h
        · split at h
          · cases h
            exact ⟨hsettings.withExtensions hv.of_object, hprojects⟩
          · cases h
      · next hextensions =>
          cases h
          refine ⟨hsettings.insertOther hpath hextensions hv, fun hmem => ?_⟩
          rcases Table.mem_keys_insert_iff.mp hmem with hnew | hold
          · exact hkey hnew.symm
          · exact hprojects hold

theorem readable_rootMembers {members : List (String × Json)}
    (hmembers : ∀ member ∈ members, member.1 ≠ projectsKey ∧ member.2.Fits levels)
    (hd : RootReadable levels d.settings) (h : members.foldlM rootMember d = .ok d') :
    RootReadable levels d'.settings := by
  induction members generalizing d with
  | nil =>
      cases h
      exact hd
  | cons member more ih =>
      rw [List.foldlM_cons] at h
      obtain ⟨next, hnext, hmore⟩ := exists_of_bind_eq_ok h
      obtain ⟨hkey, hv⟩ := hmembers member List.mem_cons_self
      have hstep := readable_rootMember hd hkey hv hnext
      exact ih (fun e he => hmembers e (List.mem_cons_of_mem _ he)) hstep hmore

theorem yields_reader (path : FilePath) : Yields (reader path) Readable := by
  unfold reader
  have hstart : Draft.Readable (Json.nestingLimit - 1) ⟨none, []⟩ :=
    ⟨Table.isSound_nil, fun _ hmember => nomatch hmember⟩
  refine .seq fun _ => (yields_members (fun _ _ => yields_memberReader) hstart).bind fun d hd => ?_
  refine .seq fun _ => ?_
  split
  · exact yields_fail _
  · next root hroot =>
      have hsettings := readable_rootMembers hd.rest (rootReadable_empty _) hroot
      exact .seq fun _ => .pure ⟨hsettings, hd.projects⟩

theorem readable_of_load {fs : FileSystem} {path : FilePath} {c : Configuration}
    (h : load fs path = .ok c) : c.Readable := by
  unfold load at h
  split at h
  · cases h
  · next text _ =>
      cases hread : Json.readDocument (reader path) text with
      | error problem =>
          rw [hread] at h
          cases h
      | ok found =>
          rw [hread] at h
          cases h
          exact (yields_reader path).readDocument hread

theorem yields_path (path : FilePath) : Yields (reader path) fun c => c.path = path := by
  unfold reader
  refine .seq fun _ => .seq fun _ => .seq fun _ => ?_
  split
  · exact yields_fail _
  · exact .seq fun _ => .pure rfl

theorem path_of_load {fs : FileSystem} {path : FilePath} {c : Configuration}
    (h : load fs path = .ok c) : c.path = path := by
  unfold load at h
  split at h
  · cases h
  · next text _ =>
      cases hread : Json.readDocument (reader path) text with
      | error problem =>
          rw [hread] at h
          cases h
      | ok found =>
          rw [hread] at h
          cases h
          exact (yields_path path).readDocument hread

end Reading

/-! ## Configurations that come up -/

/-- Configurations that are read or empty, and what becomes of them by settings for the
fragments of their projects. -/
inductive Reachable : Configuration → Prop
  | load {fs : FileSystem} {path : FilePath} {c : Configuration}
      (h : Configuration.load fs path = .ok c) : Reachable c
  | empty (path : FilePath) : Reachable (.empty path)
  | set {c : Configuration} (h : Reachable c) (name : String) (settings : FragmentSettings) :
      Reachable (c.modifyProject name (·.setFragmentSettings settings))

theorem Reachable.readable {c : Configuration} (h : c.Reachable) : c.Readable := by
  induction h with
  | load h => exact readable_of_load h
  | empty path => exact readable_empty path
  | set _ name settings ih => exact ih.setFragmentSettings name settings

end Configuration

end GraphqlFragments
