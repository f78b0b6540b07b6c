import GraphqlFragments.Proofs.Keeping
/-!
# What survives a save

All members of a document survive new settings for the fragments of a project, at every depth,
but those that say nothing and the extensions for fragments. Members of the latter that are no
settings are lost with them.
-/

namespace GraphqlFragments

open Json (KeepsMembers)

namespace Configuration

variable {c : Configuration} {t : Table Json} {name : String}

/-! ## Losses -/

section Losses

variable {p : ProjectSettings} {settings : FragmentSettings} {key : String} {v w : Json}
  {above rest : List String}

theorem Readable.statedBy (hc : c.Readable) : c.StatedBy (c.root.members ++ c.projectMembers) := by
  refine ⟨⟨c.root.draft, c.root.settings_draft, fun key hkey => ?_⟩, ?_⟩
  · rw [get?_root_append_projects hc, if_neg hkey]
    exact hc.root.settings.holds_draft key
  · rw [get?_root_append_projects hc, if_pos rfl]
    by_cases hempty : c.projects.isEmpty = true
    · exact Or.inl ⟨if_pos hempty, List.isEmpty_iff.mp hempty⟩
    · refine Or.inr ⟨_, if_neg hempty, fun name => ?_⟩
      rw [Table.get?_map]
      cases hp : c.projects.get? name with
      | none => exact .none
      | some p =>
          have hreadable := hc.projects.values _ (Table.mem_of_get? hp)
          exact .some ⟨_, p.draft, rfl, hreadable.holds_draft, p.settings_draft⟩

/-- The extensions of a project stand at its place. -/
theorem at?_place (ht : c.StatedBy t) (hp : c.project? name = some p)
    (hv : p.extensions.get? key = some v) (rest : List String) :
    (Json.object t).at? (c.place name ++ extensionsKey :: key :: rest) = v.at? rest := by
  cases hempty : c.projects.isEmpty with
  | true =>
      have hroot : p = c.root := by
        rw [project?, if_pos hempty] at hp
        split at hp
        · cases hp
          rfl
        · cases hp
      obtain ⟨d, hd, hmembers⟩ := ht.root
      subst hroot
      rw [← hd] at hv
      have hextensions := hmembers extensionsKey (by decide)
      rw [ProjectSettings.member?_extensionsKey hv] at hextensions
      rw [place, if_pos hempty, List.nil_append, Json.at?_object_cons, hextensions,
        Option.bind_some, Json.at?_object_cons, hv, Option.bind_some]
  | false =>
      rw [project?, hempty, if_neg Bool.false_ne_true] at hp
      rcases ht.projects with ⟨-, hnil⟩ | ⟨u, hu, hsame⟩
      · rw [hnil] at hp
        cases hp
      · obtain ⟨x, hx, t', d, rfl, hdt, rfl⟩ := hsame.exists_right hp
        have hextensions := hdt extensionsKey
        rw [ProjectSettings.member?_extensionsKey hv] at hextensions
        rw [place, hempty, if_neg Bool.false_ne_true, List.cons_append, Json.at?_object_cons, hu,
          Option.bind_some, List.cons_append, Json.at?_object_cons, hx, Option.bind_some,
          List.nil_append, Json.at?_object_cons, hextensions, Option.bind_some,
          Json.at?_object_cons, hv, Option.bind_some]

theorem SaysNothing.at?_eq_none (h : SaysNothing above w) (hrest : rest ≠ []) :
    w.at? rest = none := by
  obtain ⟨key, more, rfl⟩ := List.exists_cons_of_ne_nil hrest
  cases h <;> rfl

theorem SaysNothing.shape (h : SaysNothing above w) :
    above.length = 1 ∨ ∃ name key, above = [projectsKey, name, key] := by
  cases h with
  | schemaPath name => exact Or.inr ⟨name, _, rfl⟩
  | extensions name => exact Or.inr ⟨name, _, rfl⟩
  | _ => exact Or.inl rfl

theorem not_saysNothing_place (c : Configuration) (name key : String) (rest : List String) :
    ¬SaysNothing (c.place name ++ extensionsKey :: key :: rest) v := by
  intro h
  have hkey : extensionsKey ≠ projectsKey := by decide
  rcases h.shape with hlength | ⟨other, member, hpath⟩
  · rw [List.length_append, List.length_cons, List.length_cons] at hlength
    omega
  · unfold place at hpath
    split at hpath
    · exact hkey (List.cons.inj hpath).1
    · have hlength := congrArg List.length hpath
      simp at hlength

/-- A member of the extension for fragments that means nothing there is not exempt. -/
theorem not_exempt (hv : (Json.object t).at?
      (c.place name ++ extensionsKey :: fragmentsExtension :: rest) = some v)
    (hrest : ∀ key ∈ rest, key ≠ "output" ∧ key ≠ "generator")
    (habove : above <+: c.place name ++ extensionsKey :: fragmentsExtension :: rest)
    (hw : (Json.object t).at? above = some w) :
    ¬c.Exempt name ProjectSettings.replacedMembers above w := by
  rintro (hnothing | ⟨below, hbelow, rfl⟩)
  · obtain ⟨more, hmore⟩ := habove
    rw [← hmore, Json.at?_append, hw, Option.bind_some] at hv
    by_cases hnil : more = []
    · rw [hnil, List.append_nil] at hmore
      rw [hmore] at hnothing
      exact not_saysNothing_place c name _ _ hnothing
    · rw [hnothing.at?_eq_none hnil] at hv
      cases hv
  · have hbegins := (List.cons_prefix_cons.mp ((List.prefix_append_right_inj _).mp habove)).2
    have hformer : formerFragmentsExtension ≠ fragmentsExtension := by decide
    simp only [ProjectSettings.replacedMembers, List.mem_cons, List.not_mem_nil, or_false]
      at hbelow
    rcases hbelow with rfl | rfl | rfl
    · exact hformer (List.cons_prefix_cons.mp hbegins).1
    · have hmem := (List.cons_prefix_cons.mp hbegins).2.subset List.mem_cons_self
      exact (hrest _ hmem).1 rfl
    · have hmem := (List.cons_prefix_cons.mp hbegins).2.subset List.mem_cons_self
      exact (hrest _ hmem).2 rfl

theorem at?_toJson_of_unknown (settings : FragmentSettings)
    (hkey : ¬(key = "output" ∨ key = "generator")) : settings.toJson.at? [key] = none := by
  obtain ⟨houtput, hgenerator⟩ := not_or.mp hkey
  obtain ⟨output, generator⟩ := settings
  cases output <;> cases generator <;>
    simp [FragmentSettings.toJson, Table.get?, Ne.symm houtput, Ne.symm hgenerator]

/-- Other members of the extension for fragments are lost. -/
theorem hasKnownSettingsOnly_of_keepsMembers (ht : c.StatedBy t) (hc : c.Readable)
    (hp : c.project? name = some p)
    (h : KeepsMembers (c.Exempt name ProjectSettings.replacedMembers) (.object t)
      (c.modifyProject name (·.setFragmentSettings settings)).toJson) :
    p.HasKnownSettingsOnly := by
  intro v hv
  have hc' := hc.setFragmentSettings name settings
  have hp' : (c.modifyProject name (·.setFragmentSettings settings)).project? name =
      some (p.setFragmentSettings settings) := by
    rw [project?_modifyProject_self, hp]
    rfl
  have hplace : (c.modifyProject name (·.setFragmentSettings settings)).place name =
      c.place name := by
    rw [place, place, isEmpty_projects_modifyProject]
  have hkept (rest : List String) (w : Json)
      (hrest : ∀ key ∈ rest, key ≠ "output" ∧ key ≠ "generator") (hw : v.at? rest = some w) :
      ∃ w', settings.toJson.at? rest = some w' ∧ (w' = w ∨ w.IsObject ∧ w'.IsObject) := by
    have hold := (at?_place ht hp hv rest).trans hw
    have hnew := at?_place hc'.statedBy hp' (ProjectSettings.get?_setFragmentSettings_self p _) rest
    rw [hplace, ← toJson_eq] at hnew
    rcases h _ w hold with ⟨above, x, habove, hx, hexempt⟩ | hfound
    · exact absurd hexempt (not_exempt hold hrest habove hx)
    · rwa [hnew] at hfound
  obtain ⟨members, rfl⟩ : ∃ members, v = .object members := by
    obtain ⟨w', hw', hsame⟩ :=
      hkept [] v (fun _ hkey => absurd hkey List.not_mem_nil) (Json.at?_nil v)
    rw [Json.at?_nil] at hw'
    cases hw'
    rcases hsame with rfl | ⟨hobject, -⟩
    · exact ⟨_, rfl⟩
    · cases v with
      | object members => exact ⟨members, rfl⟩
      | _ => exact absurd hobject id
  refine ⟨members, rfl, fun key hkey => ?_⟩
  by_contra hunknown
  obtain ⟨w, hw⟩ := Option.isSome_iff_exists.mp (Table.isSome_get?_iff.mpr hkey)
  have hfound : (Json.object members).at? [key] = some w := by
    rw [Json.at?_object_cons, hw, Option.bind_some, Json.at?_nil]
  obtain ⟨w', hw', -⟩ := hkept [key] w
    (fun other hother => List.mem_singleton.mp hother ▸ not_or.mp hunknown) hfound
  rw [at?_toJson_of_unknown settings hunknown] at hw'
  cases hw'

end Losses

/-! ## Saving -/

/-- New settings for the fragments of a project can be saved where the configuration comes
from. The document that is saved keeps every member of the former one that says something, but
the extensions for fragments. It even keeps the members of the present extension for fragments
that are no settings, as long as there are none. -/
theorem keepsMembers_of_save {fs : FileSystem} {path : FilePath} (h : load fs path = .ok c)
    (hname : name ∈ c.projectNames) (settings : FragmentSettings) :
    ∃ text doc, fs.readText path = .ok text ∧ Json.parse text = .ok doc ∧
      (doc.HasWordsOnly →
        (∃ saved, (c.modifyProject name (·.setFragmentSettings settings)).save fs = .ok saved) ∧
        ∀ fs' saved,
          (c.modifyProject name (·.setFragmentSettings settings)).save fs' = .ok saved →
          ∃ text' doc', saved.readText path = .ok text' ∧ Json.parse text' = .ok doc' ∧
            KeepsMembers (c.Exempt name ProjectSettings.replacedExtensions) doc doc' ∧
            (KeepsMembers (c.Exempt name ProjectSettings.replacedMembers) doc doc' ↔
              ∀ p, c.project? name = some p → p.HasKnownSettingsOnly)) := by
  obtain ⟨text, t, htext, hparse, ht⟩ := parse_of_load h
  have hc := readable_of_load h
  have hc' := hc.setFragmentSettings name settings
  have hpath : (c.modifyProject name (·.setFragmentSettings settings)).path = path := by
    rw [path_modifyProject, path_of_load h]
  have hnodup (p : ProjectSettings) (hp : c.project? name = some p) :
      p.extensions.keys.Nodup := by
    obtain ⟨_, hreadable⟩ := hc.project hp
    exact hreadable.extensions.nodup
  refine ⟨text, .object t, htext, hparse, fun hwords => ⟨?_, fun fs' saved hsave => ?_⟩⟩
  · rw [save, hpath]
    exact FileSystem.write_of_readText htext _
  · have hnumbers := ((ht.hasWordsOnly hc hwords).setFragmentSettings hc name settings).toJson
    refine ⟨_, _, hpath ▸ FileSystem.readText_of_write hsave, parse_toText hc' hnumbers, ?_, ?_⟩
    · exact keepsMembers_setFragmentSettings ht hc hname fun p hp =>
        ProjectSettings.keepsMembers_extensions (hnodup p hp) settings
    · constructor
      · exact fun hkept p hp => hasKnownSettingsOnly_of_keepsMembers ht hc hp hkept
      · exact fun hknown => keepsMembers_setFragmentSettings ht hc hname fun p hp =>
          ProjectSettings.keepsMembers_extensions_of_known (hnodup p hp) (hknown p hp) settings

/-! ### A site with two projects -/

/-- The settings of one project stand under their former name. Those of the other one stand
with a header that means nothing there. -/
def site : Configuration where
  path := ⟨"/site/.graphqlconfig"⟩
  root := ⟨none, [], [("since", .integer 2019)]⟩
  projects := [("web", ⟨none, [("fragments", .string "old.js"), ("bundle", .string "web.graphql")],
      []⟩),
    ("app", ⟨none, [("generate-fragments",
      .object [("output", .string "app.js"), ("header", .string "// app")])], []⟩)]

def siteDisk : FileSystem where
  entries := [(["site"], .directory), (["site", ".graphqlconfig"], .file (.text site.toText))]
  workingDirectory := ⟨"/"⟩

theorem readable_site : site.Readable := by
  have hsettings (extensions : Table Json) (h : extensions.IsSound (Json.Fits 123)) :
      ProjectSettings.Readable 124 ⟨none, extensions, []⟩ :=
    (ProjectSettings.readable_empty 124).withExtensions h
  refine ⟨⟨⟨Table.isSound_nil, ⟨by decide, by simp [site, Json.Fits]⟩, by decide, by decide⟩,
    by decide⟩, ⟨by decide, fun entry hentry => ?_⟩⟩
  simp only [site, List.mem_cons, List.not_mem_nil, or_false] at hentry
  rcases hentry with rfl | rfl
  · exact hsettings _ ⟨by decide, by simp [Json.Fits]⟩
  · exact hsettings _ ⟨by decide, by simp [Json.Fits]; exact ⟨by decide, by simp [Json.Fits]⟩⟩

theorem toJson_site : site.toJson = .object [("since", .integer 2019), ("projects", .object
    [("web", .object [("extensions", .object
      [("fragments", .string "old.js"), ("bundle", .string "web.graphql")])]),
    ("app", .object [("extensions", .object [("generate-fragments", .object
      [("output", .string "app.js"), ("header", .string "// app")])])])])] := rfl

theorem hasWordsOnly_site : site.toJson.HasWordsOnly := by
  rw [toJson_site]
  simp [Json.Reader.isWord64]

theorem readText_site : siteDisk.readText site.path = .ok site.toText := by
  have hlocate : siteDisk.locate site.path = .ok ["site", ".graphqlconfig"] :=
    eq_ok_of_toOption (by decide +kernel)
  have hentry : siteDisk.get? ["site", ".graphqlconfig"] = some (.file (.text site.toText)) := by
    simp [siteDisk, FileSystem.get?, List.lookup_cons]
  exact FileSystem.readText_eq_ok_iff.mpr ⟨_, hlocate, hentry⟩

theorem load_site : load siteDisk site.path = .ok site :=
  load_of_readText readable_site hasWordsOnly_site readText_site

/-- The header survives new settings for the other project. -/
theorem keepsMembers_of_save_site : ∃ saved text doc,
    (site.modifyProject "web" (·.setFragmentSettings ⟨some "web.js", none⟩)).save siteDisk =
        .ok saved ∧
      saved.readText site.path = .ok text ∧ Json.parse text = .ok doc ∧
      KeepsMembers (site.Exempt "web" ProjectSettings.replacedMembers) site.toJson doc := by
  have hname : "web" ∈ site.projectNames := by decide
  obtain ⟨text, doc, htext, hparse, hsurvive⟩ :=
    keepsMembers_of_save load_site hname ⟨some "web.js", none⟩
  obtain rfl : site.toText = text := Except.ok.inj (readText_site.symm.trans htext)
  obtain rfl : site.toJson = doc :=
    Except.ok.inj ((parse_toText readable_site hasWordsOnly_site).symm.trans hparse)
  obtain ⟨⟨saved, hsaved⟩, hkept⟩ := hsurvive hasWordsOnly_site
  obtain ⟨text', doc', htext', hparse', -, hknown⟩ := hkept siteDisk saved hsaved
  refine ⟨saved, text', doc', hsaved, htext', hparse', hknown.mpr fun p hp v hv => ?_⟩
  have hweb : site.project? "web" = some
      ⟨none, [("fragments", .string "old.js"), ("bundle", .string "web.graphql")], []⟩ := rfl
  rw [hweb] at hp
  cases hp
  simp [Table.get?, fragmentsExtension] at hv

/-- The header does not survive new settings for its own project. -/
theorem not_keepsMembers_site : ∃ saved text doc,
    load siteDisk site.path = .ok site ∧ "app" ∈ site.projectNames ∧
      Json.parse site.toText = .ok site.toJson ∧ site.toJson.HasWordsOnly ∧
      (site.modifyProject "app" (·.setFragmentSettings ⟨some "app.js", none⟩)).save siteDisk =
        .ok saved ∧
      saved.readText site.path = .ok text ∧ Json.parse text = .ok doc ∧
      ¬KeepsMembers (site.Exempt "app" ProjectSettings.replacedMembers) site.toJson doc := by
  have happ : site.project? "app" = some ⟨none, [("generate-fragments",
      .object [("output", .string "app.js"), ("header", .string "// app")])], []⟩ := rfl
  have hpath : (site.modifyProject "app" (·.setFragmentSettings ⟨some "app.js", none⟩)).path =
      site.path := path_modifyProject _ _ _
  have hreadable := readable_site.setFragmentSettings "app" ⟨some "app.js", none⟩
  have hjson : (site.modifyProject "app" (·.setFragmentSettings ⟨some "app.js", none⟩)).toJson =
      .object [("since", .integer 2019), ("projects", .object
        [("web", .object [("extensions", .object
          [("fragments", .string "old.js"), ("bundle", .string "web.graphql")])]),
        ("app", .object [("extensions", .object [("generate-fragments", .object
          [("output", .string "app.js")])])])])] := rfl
  obtain ⟨saved, hsaved⟩ := FileSystem.write_of_readText readText_site
    (.text (site.modifyProject "app" (·.setFragmentSettings ⟨some "app.js", none⟩)).toText)
  have hparse := parse_toText hreadable (by rw [hjson]; simp [Json.Reader.isWord64])
  refine ⟨saved, _, _, load_site, by decide, parse_toText readable_site hasWordsOnly_site,
    hasWordsOnly_site, hsaved, FileSystem.readText_of_write hsaved, hparse, fun hkept => ?_⟩
  rw [toJson_eq] at hkept
  have hknown :=
    hasKnownSettingsOnly_of_keepsMembers readable_site.statedBy readable_site happ hkept
  obtain ⟨members, hmembers, hkeys⟩ := hknown _ rfl
  cases hmembers
  have hheader := hkeys "header" (by decide)
  simp at hheader

end Configuration

end GraphqlFragments
