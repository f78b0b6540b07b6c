import GraphqlFragments.Proofs.Json.Following
import GraphqlFragments.Proofs.Saving
/-!
# The documents of configurations

A text that can be read as a configuration can be read as a document of any sort as well. The
members of that document are the settings of the configuration, except for those members that
are null or empty.
-/

namespace GraphqlFragments

open Json.Reader

/-! ## Settings -/

namespace ProjectSettings

variable {levels : Nat} {d d' : Draft} {t : Table Json} {key : String} {v : Json}

/-- The value of a member as far as it has been read. -/
def Draft.member? (d : Draft) (key : String) : Option Json :=
  if key = schemaPathKey then d.schemaPath.map fun path => path.elim .null .string
  else if key = extensionsKey then d.extensions.map .object
  else d.other.get? key

/-- The members of an object are those that have been read. -/
def Draft.Holds (d : Draft) (t : Table Json) : Prop := ∀ key, t.get? key = d.member? key

/-- The value is an object that is read as the settings. -/
def StatedBy (p : ProjectSettings) (v : Json) : Prop :=
  ∃ (t : Table Json) (d : Draft), v = .object t ∧ d.Holds t ∧ d.settings = p

theorem Draft.holds_empty : empty.Holds [] := by
  intro key
  simp [member?, empty]

/-- One more member has been read. -/
theorem Draft.Holds.insert (h : d.Holds t) (hkey : d'.member? key = some v)
    (hother : ∀ other, other ≠ key → d'.member? other = d.member? other) :
    d'.Holds (t.insert key v) := by
  intro other
  by_cases hsame : other = key
  · rw [hsame, Table.get?_insert_self, hkey]
  · rw [Table.get?_insert_of_ne _ _ hsame, hother other hsame, h other]

theorem Draft.Holds.insertSchemaPath (h : d.Holds t) (path : Option String) :
    { d with schemaPath := some path : Draft }.Holds
      (t.insert schemaPathKey (path.elim .null .string)) := by
  refine h.insert (if_pos rfl) fun other hother => ?_
  simp only [member?, if_neg hother]

theorem Draft.Holds.insertExtensions (h : d.Holds t) (extensions : Table Json) :
    { d with extensions := some extensions : Draft }.Holds
      (t.insert extensionsKey (.object extensions)) := by
  refine h.insert (by rfl) fun other hother => ?_
  simp only [member?, if_neg hother]

theorem Draft.Holds.insertOther (h : d.Holds t) (hpath : key ≠ schemaPathKey)
    (hextensions : key ≠ extensionsKey) (v : Json) :
    { d with other := d.other.insert key v : Draft }.Holds (t.insert key v) := by
  refine h.insert ?_ fun other hother => ?_
  · simp only [member?, if_neg hpath, if_neg hextensions, Table.get?_insert_self]
  · simp only [member?, Table.get?_insert_of_ne _ _ hother]

/-! ### Reading -/

theorem yields_repeatedMember {α : Type} (key : String) :
    Yields (repeatedMember (α := α) key) fun _ => False :=
  .seq fun _ => yields_fail _

/-- A path is a string or null. -/
theorem follows_pathReader : Follows pathReader (value levels)
    fun path v => v = path.elim .null .string := by
  rw [pathReader, value_eq]
  refine .next fun c cs path rest hhead hblank hrun => ?_
  by_cases hnull : c = 'n'
  · subst hnull
    obtain ⟨v, mid, hscalar, hnone⟩ := run_bind_eq_ok_iff.mp hrun
    cases hnone
    rw [valueFrom_of_plain (by decide) (by decide)]
    exact ⟨v, hscalar, eq_null_of_run_scalar hhead hscalar⟩
  · rw [if_neg hnull] at hrun
    obtain ⟨text, mid, htext, hsome⟩ := run_bind_eq_ok_iff.mp hrun
    cases hsome
    obtain ⟨rfl, hscalar⟩ := run_scalar_of_textOf hhead hblank htext
    rw [valueFrom_of_plain (by decide) (by decide)]
    exact ⟨_, hscalar, rfl⟩

theorem follows_memberReader (h : d.Holds t) :
    Follows (memberReader (levels + 1) key d) (tableMember (value (levels + 1)) key t)
      Draft.Holds := by
  unfold memberReader tableMember
  by_cases hpath : key = schemaPathKey
  · rw [if_pos hpath, hpath]
    refine .check (yields_repeatedMember _) fun _ => .seq fun _ => ?_
    refine follows_pathReader.bind fun path v hv => .pure ?_
    rw [hv]
    exact h.insertSchemaPath path
  rw [if_neg hpath]
  by_cases hextensions : key = extensionsKey
  · rw [if_pos hextensions, hextensions]
    refine .check (yields_repeatedMember _) fun _ => .seq fun _ => ?_
    refine (follows_object .map (.refl (Json.Reader.table (value levels)))).bind ?_
    rintro extensions v ⟨_, rfl, rfl⟩
    exact .pure (h.insertExtensions extensions)
  · rw [if_neg hextensions]
    exact .seq fun _ => .seq fun v => .pure (h.insertOther hpath hextensions v)

theorem follows_reader (levels : Nat) :
    Follows (reader (levels + 1)) (value (levels + 2)) StatedBy := by
  have hmembers : Follows (Json.Reader.members (memberReader (levels + 1)) .empty)
      (Json.Reader.members (tableMember (value (levels + 1))) []) Draft.Holds :=
    follows_members (fun _ _ _ => follows_memberReader) Draft.holds_empty
  have hreader : Follows (reader (levels + 1)) (value (levels + 2))
      fun p v => ∃ t, v = .object t ∧ ∃ d : Draft, d.Holds t ∧ d.settings = p :=
    follows_object .project (hmembers.bind fun d t hdt => .seq fun _ => .pure ⟨d, hdt, rfl⟩)
  refine hreader.imp fun p v => ?_
  rintro ⟨t, hv, d, hdt, hp⟩
  exact ⟨t, d, hv, hdt, hp⟩

end ProjectSettings

/-! ## Configurations -/

namespace Configuration

variable {levels : Nat} {d : Draft} {t : Table Json} {key : String} {v : Json}

/-- The members of an object are those that have been read. -/
structure Draft.Holds (d : Draft) (t : Table Json) : Prop where
  projects : Option.Rel (fun projects v => ∃ u, v = .object u ∧
    SameNames ProjectSettings.StatedBy projects u) d.projects (t.get? projectsKey)
  rest : ∀ key, key ≠ projectsKey → t.get? key = (Table.ofList d.rest).get? key

/-- The members of an object are what the configuration is read from. -/
structure StatedBy (c : Configuration) (t : Table Json) : Prop where
  root : ∃ d : ProjectSettings.Draft, d.settings = c.root ∧
    ∀ key, key ≠ projectsKey → t.get? key = d.member? key
  projects : (t.get? projectsKey = none ∧ c.projects = []) ∨
    ∃ u, t.get? projectsKey = some (.object u) ∧
      SameNames ProjectSettings.StatedBy c.projects u

theorem Draft.holds_empty : Draft.Holds ⟨none, []⟩ [] := ⟨.none, fun _ _ => rfl⟩

theorem follows_memberReader (h : d.Holds t) :
    Follows (memberReader (levels + 3) key d) (tableMember (value (levels + 3)) key t)
      Draft.Holds := by
  unfold memberReader tableMember
  by_cases hkey : key = projectsKey
  · rw [if_pos hkey, hkey]
    refine .check (ProjectSettings.yields_repeatedMember _) fun _ => .seq fun _ => ?_
    refine (follows_object .map (follows_table (ProjectSettings.follows_reader levels))).bind ?_
    rintro projects v ⟨u, rfl, hu⟩
    refine .pure ⟨?_, fun other hother => ?_⟩
    · rw [Table.get?_insert_self]
      exact .some ⟨u, rfl, hu⟩
    · rw [Table.get?_insert_of_ne _ _ hother, h.rest other hother]
  · rw [if_neg hkey]
    refine .seq fun _ => .seq fun v => .pure ⟨?_, fun other hother => ?_⟩
    · rw [Table.get?_insert_of_ne _ _ (Ne.symm hkey)]
      exact h.projects
    · rw [Table.ofList_concat]
      by_cases hsame : other = key
      · rw [hsame, Table.get?_insert_self, Table.get?_insert_self]
      · rw [Table.get?_insert_of_ne _ _ hsame, Table.get?_insert_of_ne _ _ hsame,
          h.rest other hother]

/-- A member at the top level becomes one of the settings there. -/
theorem holds_of_rootMember {d d' : ProjectSettings.Draft} (h : d.Holds t)
    (hmember : rootMember d (key, v) = .ok d') : d'.Holds (t.insert key v) := by
  unfold rootMember at hmember
  dsimp only at hmember
  split at hmember
  · next hpath =>
      subst hpath
      split at hmember
      · cases hmember
      · split at hmember
        · cases hmember
          exact h.insertSchemaPath none
        · cases hmember
          exact h.insertSchemaPath (some _)
        · cases hmember
  · next hpath =>
      split at hmember
      · next hextensions =>
          subst hextensions
          split at hmember
          · cases hmember
          · split at hmember
            · cases hmember
              exact h.insertExtensions _
            · cases hmember
      · next hextensions =>
          cases hmember
          exact h.insertOther hpath hextensions v

theorem holds_of_rootMembers {members : List (String × Json)} {d d' : ProjectSettings.Draft}
    (h : d.Holds t) (hmembers : members.foldlM rootMember d = .ok d') :
    d'.Holds (members.foldl (fun t member => t.insert member.1 member.2) t) := by
  induction members generalizing d t with
  | nil =>
      cases hmembers
      exact h
  | cons member more ih =>
      rw [List.foldlM_cons] at hmembers
      obtain ⟨next, hnext, hmore⟩ := exists_of_bind_eq_ok hmembers
      exact ih (holds_of_rootMember h hnext) hmore

theorem Draft.Holds.statedBy {root : ProjectSettings.Draft} (h : d.Holds t)
    (hroot : d.rest.foldlM rootMember .empty = .ok root) (path : FilePath) :
    StatedBy ⟨path, root.settings, d.projects.getD []⟩ t := by
  refine ⟨⟨root, rfl, fun key hkey => ?_⟩, ?_⟩
  · rw [h.rest key hkey]
    exact holds_of_rootMembers ProjectSettings.Draft.holds_empty hroot key
  · have hprojects := h.projects
    cases hd : d.projects with
    | none =>
        rw [hd] at hprojects
        cases ht : t.get? projectsKey with
        | none => exact Or.inl ⟨rfl, rfl⟩
        | some v =>
            rw [ht] at hprojects
            cases hprojects
    | some projects =>
        rw [hd] at hprojects
        cases ht : t.get? projectsKey with
        | none =>
            rw [ht] at hprojects
            cases hprojects
        | some v =>
            rw [ht] at hprojects
            cases hprojects with
            | some hu =>
                obtain ⟨u, rfl, hsame⟩ := hu
                exact Or.inr ⟨u, rfl, hsame⟩

theorem follows_reader (path : FilePath) :
    Follows (reader path) (do
      let v ← value Json.nestingLimit
      finish
      return v) fun c v => ∃ t, v = .object t ∧ c.StatedBy t := by
  have hmembers : Follows (Json.Reader.members (memberReader (Json.nestingLimit - 1)) ⟨none, []⟩)
      (Json.Reader.members (tableMember (value (Json.nestingLimit - 1))) []) Draft.Holds :=
    follows_members (fun _ _ _ => follows_memberReader) Draft.holds_empty
  have hobject := follows_object .configuration
    (hmembers.bind fun d t hdt => Follows.seq fun _ => Follows.pure (R := Draft.Holds) hdt)
  have hassoc (k : Draft → Json.Reader Configuration) : (do
      begins '{' .configuration
      let draft ← Json.Reader.members (memberReader (Json.nestingLimit - 1)) ⟨none, []⟩
      closeObject
      k draft) = (do
        begins '{' .configuration
        let draft ← Json.Reader.members (memberReader (Json.nestingLimit - 1)) ⟨none, []⟩
        closeObject
        return draft) >>= k := by
    simp only [bind_assoc, pure_bind]
  rw [reader, hassoc]
  refine hobject.bind ?_
  rintro d v ⟨t, rfl, hdt⟩
  split
  · exact .of_never (yields_fail _)
  · next root hroot => exact .seq fun _ => .pure ⟨t, rfl, hdt.statedBy hroot path⟩

/-- The text of a configuration is a document with the members of the configuration. -/
theorem parse_of_load {fs : FileSystem} {path : FilePath} {c : Configuration}
    (h : load fs path = .ok c) :
    ∃ text t, fs.readText path = .ok text ∧ Json.parse text = .ok (.object t) ∧
      c.StatedBy t := by
  unfold load at h
  cases htext : fs.readText path with
  | error fault =>
      rw [htext] at h
      cases h
  | ok text =>
      rw [htext] at h
      cases hread : Json.readDocument (reader path) text with
      | error problem =>
          simp only [hread] at h
          cases h
      | ok found =>
          simp only [hread] at h
          cases h
          obtain ⟨v, hv, t, rfl, ht⟩ := (follows_reader path).readDocument hread
          exact ⟨text, t, rfl, hv, ht⟩

end Configuration

/-! ## Writing -/

namespace ProjectSettings

variable {levels : Nat} {p : ProjectSettings}

theorem Readable.nodup_keys_members (hp : p.Readable levels) : p.members.keys.Nodup := by
  have hother := hp.other.nodup
  have hpath := hp.schemaPath_notMem
  have hextensions := hp.extensions_notMem
  have hne : schemaPathKey ≠ extensionsKey := by decide
  simp only [Table.keys] at hother hpath hextensions
  unfold members Table.keys
  cases p.schemaPath <;> by_cases hempty : p.extensions.isEmpty = true <;>
    simp only [hempty, Option.map_none, Option.map_some, Option.toList_none, Option.toList_some,
      if_pos, if_neg, List.nil_append, List.cons_append, List.map_cons, List.nodup_cons,
      List.mem_cons, not_or, hne, hother, hpath, hextensions, not_false_eq_true, and_self,
      Bool.false_eq_true]

end ProjectSettings

namespace Configuration

variable {c : Configuration}

theorem fits_toJson (hc : c.Readable) : c.toJson.Fits Json.nestingLimit := by
  have hsettings (p : ProjectSettings) (hp : p.Readable (Json.nestingLimit - 3)) :
      p.toJson.Fits (Json.nestingLimit - 2) :=
    ⟨hp.nodup_keys_members, fun e he => hp.fits_of_mem_members he⟩
  have hprojects : ∀ e ∈ c.projectMembers, e.2.Fits (Json.nestingLimit - 1) := by
    intro e he
    rw [projectMembers] at he
    split at he
    · cases he
    · rw [List.mem_singleton.mp he]
      refine ⟨?_, List.forall_mem_map.mpr fun e he => hsettings e.2 (hc.projects.values e he)⟩
      rw [Table.keys, List.map_map]
      exact hc.projects.nodup
  have hkeys : (Table.keys (c.root.members ++ c.projectMembers)).Nodup := by
    rw [Table.keys, List.map_append, List.nodup_append]
    refine ⟨hc.root.settings.nodup_keys_members, ?_, ?_⟩
    · rw [projectMembers]
      split
      · exact List.nodup_nil
      · exact List.pairwise_singleton _ _
    · intro key hkey other hother
      obtain ⟨e, he, rfl⟩ := List.mem_map.mp hkey
      obtain ⟨e', he', rfl⟩ := List.mem_map.mp hother
      rw [projectMembers] at he'
      split at he'
      · cases he'
      · rw [List.mem_singleton.mp he']
        exact hc.root.ne_of_mem_members he
  rw [toJson_eq]
  exact ⟨hkeys, List.forall_mem_append.mpr
    ⟨fun e he => hc.root.settings.fits_of_mem_members he, hprojects⟩⟩

theorem parse_toText (hc : c.Readable) (hwords : c.toJson.HasWordsOnly) :
    Json.parse c.toText = .ok c.toJson := by
  have hline : Json.Reader.AllBlank ['\n'] := Json.Reader.allBlank_singleton (by decide)
  have hvalue : (Json.Reader.value Json.nestingLimit).run
      (c.toJson.chars .indented 0 ++ ['\n']) = .ok (c.toJson, ['\n']) :=
    Json.Reader.run_value (fits_toJson hc) hwords [] ['\n'] Json.Reader.allBlank_nil
      (Json.Reader.endsNumber_cons (by decide))
  rw [Json.parse, Json.readDocument, toList_toText, Json.Reader.run_bind_of_ok hvalue,
    Json.Reader.run_bind_of_ok (Json.Reader.run_finish hline)]
  rfl

end Configuration

/-! ## Numbers -/

/-- Every number in the settings is an integer of 64 bits. -/
structure ProjectSettings.HasWordsOnly (p : ProjectSettings) : Prop where
  extensions : ∀ e ∈ p.extensions, e.2.HasWordsOnly
  other : ∀ e ∈ p.other, e.2.HasWordsOnly

namespace ProjectSettings

variable {levels : Nat} {p : ProjectSettings}

theorem HasWordsOnly.toJson (h : p.HasWordsOnly) : p.toJson.HasWordsOnly := by
  refine Json.hasWordsOnly_object_iff.mpr fun e he => ?_
  rcases mem_members_cases he with ⟨-, text, hv⟩ | rfl | hother
  · rw [hv]
    exact Json.hasWordsOnly_string text
  · exact Json.hasWordsOnly_object_iff.mpr h.extensions
  · exact h.other e hother

theorem hasWordsOnly_settings {d : Draft} (hp : d.settings.Readable levels)
    (h : ∀ key v, d.member? key = some v → v.HasWordsOnly) : d.settings.HasWordsOnly := by
  constructor
  · intro e he
    cases hextensions : d.extensions with
    | none =>
        rw [Draft.settings, hextensions] at he
        cases he
    | some extensions =>
        rw [Draft.settings, hextensions] at he
        have hmember : d.member? extensionsKey = some (.object extensions) := by
          show d.extensions.map Json.object = _
          rw [hextensions]
          rfl
        exact (h _ _ hmember).of_member he
  · intro e he
    obtain ⟨hpath, hextensions⟩ := hp.ne_of_mem_other he
    refine h e.1 e.2 ?_
    rw [Draft.member?, if_neg hpath, if_neg hextensions]
    exact (Table.mem_iff_get? hp.other.nodup).mp he

theorem HasWordsOnly.setFragmentSettings (h : p.HasWordsOnly) (hp : p.Readable levels)
    (settings : FragmentSettings) : (p.setFragmentSettings settings).HasWordsOnly := by
  have hsettings : settings.toJson.HasWordsOnly := by
    obtain ⟨output, generator⟩ := settings
    cases output <;> cases generator <;> simp [FragmentSettings.toJson]
  have hextensions : p.extensions.IsSound Json.HasWordsOnly := ⟨hp.extensions.nodup, h.extensions⟩
  exact ⟨((hextensions.erase _).insert _ hsettings).values, h.other⟩

end ProjectSettings

namespace Configuration

variable {c : Configuration} {t : Table Json}

/-- Every number in the configuration is an integer of 64 bits. -/
structure HasWordsOnly (c : Configuration) : Prop where
  root : c.root.HasWordsOnly
  projects : ∀ e ∈ c.projects, e.2.HasWordsOnly

theorem HasWordsOnly.toJson (h : c.HasWordsOnly) : c.toJson.HasWordsOnly := by
  have hroot := Json.hasWordsOnly_object_iff.mp h.root.toJson
  rw [toJson_eq, Json.hasWordsOnly_object_iff]
  refine List.forall_mem_append.mpr ⟨hroot, fun e he => ?_⟩
  rw [projectMembers] at he
  split at he
  · cases he
  · rw [List.mem_singleton.mp he, Json.hasWordsOnly_object_iff]
    exact List.forall_mem_map.mpr fun project hproject => (h.projects project hproject).toJson

theorem StatedBy.hasWordsOnly (h : c.StatedBy t) (hc : c.Readable)
    (hwords : Json.HasWordsOnly (.object t)) : c.HasWordsOnly := by
  have hmember (key : String) (v : Json) (hv : t.get? key = some v) : v.HasWordsOnly :=
    hwords.of_member (Table.mem_of_get? hv)
  constructor
  · obtain ⟨d, hd, hmembers⟩ := h.root
    have hroot := hc.root
    rw [← hd] at hroot ⊢
    refine ProjectSettings.hasWordsOnly_settings hroot.settings fun key v hv => ?_
    by_cases hkey : key = projectsKey
    · -- Projects are no settings of the top level.
      have hnone : d.member? projectsKey = d.settings.other.get? projectsKey := rfl
      rw [hkey, hnone, Table.get?_eq_none_iff.mpr hroot.projects_notMem] at hv
      cases hv
    · exact hmember key v ((hmembers key hkey).trans hv)
  · intro e he
    rcases h.projects with ⟨-, hnone⟩ | ⟨u, hu, hsame⟩
    · rw [hnone] at he
      cases he
    · obtain ⟨v, hv, t', d, rfl, hdt, hd⟩ :=
        hsame.exists_right ((Table.mem_iff_get? hc.projects.nodup).mp he)
      have hvalue : Json.HasWordsOnly (.object t') :=
        (hmember _ _ hu).of_member (Table.mem_of_get? hv)
      have hreadable := hc.projects.values e he
      rw [← hd] at hreadable ⊢
      refine ProjectSettings.hasWordsOnly_settings hreadable fun key w hw => ?_
      exact hvalue.of_member (Table.mem_of_get? ((hdt key).trans hw))

theorem HasWordsOnly.setFragmentSettings (h : c.HasWordsOnly) (hc : c.Readable) (name : String)
    (settings : FragmentSettings) :
    (c.modifyProject name (·.setFragmentSettings settings)).HasWordsOnly := by
  unfold modifyProject
  split
  · split
    · exact ⟨h.root.setFragmentSettings hc.root.settings settings, h.projects⟩
    · exact h
  · refine ⟨h.root, fun e he => ?_⟩
    have hprojects : c.projects.IsSound fun p =>
        p.Readable (Json.nestingLimit - 3) ∧ p.HasWordsOnly :=
      ⟨hc.projects.nodup, fun e he => ⟨hc.projects.values e he, h.projects e he⟩⟩
    have hchanged := hprojects.modify name fun p hp =>
      ⟨hp.1.setFragmentSettings (by decide) settings, hp.2.setFragmentSettings hp.1 settings⟩
    exact (hchanged.values e he).2

end Configuration

end GraphqlFragments
