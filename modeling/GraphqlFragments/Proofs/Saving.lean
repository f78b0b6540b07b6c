import GraphqlFragments.Proofs.Files
import GraphqlFragments.Proofs.Readable
/-!
# Loading what has been saved

The text of a configuration is read as that configuration, with all its members in their
order, if its numbers are integers of 64 bits. So a configuration that has been saved can be
loaded from its path and is the same.
-/

namespace GraphqlFragments

open Json Json.Reader

variable {layout : Layout} {level levels : Nat}

/-! ## Settings -/

namespace ProjectSettings

variable {p : ProjectSettings}

/-! ### Paths -/

theorem run_textOf (wanted : Shape) (s : String) (rest : List Char) :
    (textOf wanted).run (stringChars s ++ rest) = .ok (s, rest) := by
  have hbegins : (begins '"' wanted).run (stringChars s ++ rest) =
      .ok ((), stringChars s ++ rest) :=
    run_begins allBlank_nil (head?_stringChars s rest) (by decide)
  rw [textOf, run_bind_of_ok hbegins]
  exact run_string s rest

theorem run_pathReader (path : String) :
    ReadsBack layout level pathReader (.string path) (some path) := by
  intro blank rest hblank _
  rw [Json.chars, pathReader,
    run_bind_of_ok (run_nextOr hblank (head?_stringChars _ _) (by decide)), if_neg (by decide),
    run_bind_of_ok (run_textOf .path path rest)]
  rfl

/-! ### Members -/

/-- Each member of settings is the path of their schema, their extensions or another one. -/
theorem mem_members_cases {e : String × Json} (he : e ∈ p.members) :
    (e.1 = schemaPathKey ∧ ∃ text, e.2 = .string text) ∨
      e = (extensionsKey, .object p.extensions) ∨ e ∈ p.other := by
  rcases List.mem_append.mp he with h | hother
  · rcases List.mem_append.mp h with hpath | hextensions
    · obtain ⟨path, -, rfl⟩ := Option.map_eq_some_iff.mp (Option.mem_toList.mp hpath)
      exact Or.inl ⟨rfl, path, rfl⟩
    · split at hextensions
      · cases hextensions
      · exact Or.inr (Or.inl (List.mem_singleton.mp hextensions))
  · exact Or.inr (Or.inr hother)

theorem mem_members_of_mem_other {e : String × Json} (he : e ∈ p.other) : e ∈ p.members :=
  List.mem_append_right _ he

theorem extensions_mem_members (h : ¬p.extensions.isEmpty) :
    (extensionsKey, Json.object p.extensions) ∈ p.members := by
  refine List.mem_append_left _ (List.mem_append_right _ ?_)
  rw [if_neg h]
  exact List.mem_singleton_self _

theorem Readable.ne_of_mem_other (hp : p.Readable levels) {e : String × Json}
    (he : e ∈ p.other) : e.1 ≠ schemaPathKey ∧ e.1 ≠ extensionsKey := by
  have hkey : e.1 ∈ p.other.keys := List.mem_map_of_mem he
  exact ⟨fun h => hp.schemaPath_notMem (h ▸ hkey), fun h => hp.extensions_notMem (h ▸ hkey)⟩

theorem Readable.fits_of_mem_members (hp : p.Readable (levels + 1)) {e : String × Json}
    (he : e ∈ p.members) : e.2.Fits (levels + 1) := by
  rcases mem_members_cases he with ⟨-, text, hvalue⟩ | rfl | hother
  · rw [hvalue]
    exact fits_string text
  · exact hp.extensions
  · exact hp.other.values e hother

/-! ### Reading -/

/-- What has been read when all members of the settings have come. -/
def draft (p : ProjectSettings) : Draft where
  schemaPath := p.schemaPath.map some
  extensions := if p.extensions.isEmpty then none else some p.extensions
  other := p.other

theorem settings_draft (p : ProjectSettings) : p.draft.settings = p := by
  obtain ⟨path, extensions, other⟩ := p
  cases path <;> cases extensions <;> rfl

theorem membersRead_schemaPath (levels : Nat) (path : Option String) :
    MembersRead layout level (memberReader levels)
      (path.map fun path => (schemaPathKey, Json.string path)).toList .empty
      ⟨path.map some, none, []⟩ := by
  cases path with
  | none => exact .nil _
  | some path => exact .ofValue rfl (run_pathReader path) (.nil _)

theorem membersRead_extensions (hp : p.Readable levels) (hwords : p.toJson.HasWordsOnly)
    (path : Option (Option String)) :
    MembersRead layout level (memberReader levels)
      (if p.extensions.isEmpty then [] else [(extensionsKey, Json.object p.extensions)])
      ⟨path, none, []⟩ ⟨path, p.draft.extensions, []⟩ := by
  by_cases hempty : p.extensions.isEmpty = true
  · have hnone : p.draft.extensions = none := if_pos hempty
    rw [if_pos hempty, hnone]
    exact .nil _
  · have hsome : p.draft.extensions = some p.extensions := if_neg hempty
    rw [if_neg hempty, hsome]
    have hobject := hwords.of_member (extensions_mem_members hempty)
    have htable : ReadsBack layout level (tableOf .map (value (levels - 1)))
        (.object (p.extensions.map fun e => (e.1, id e.2))) p.extensions :=
      run_tableOf .map
        (fun e he => run_value (hp.extensions.values e he) (hobject.of_member he))
        hp.extensions.nodup
    rw [map_entries_id] at htable
    exact .ofValue rfl htable (.nil _)

theorem membersRead_other (hp : p.Readable levels) (hwords : p.toJson.HasWordsOnly)
    (path : Option (Option String)) (extensions : Option (Table Json)) :
    MembersRead layout level (memberReader levels) p.other ⟨path, extensions, []⟩
      ⟨path, extensions, p.other⟩ := by
  have hmember : ∀ e ∈ p.other, ∀ d : Draft, memberReader levels e.1 d = do
      colon
      return { d with other := d.other.insert e.1 (← value levels) } := by
    intro e he d
    obtain ⟨hpath, hextensions⟩ := hp.ne_of_mem_other he
    rw [memberReader, if_neg hpath, if_neg hextensions]
  have hread : MembersRead layout level (memberReader levels)
      (p.other.map fun e => (e.1, id e.2)) ⟨path, extensions, []⟩
      (p.other.foldl (fun d e => { d with other := d.other.insert e.1 e.2 })
        ⟨path, extensions, []⟩) :=
    membersRead_foldl hmember fun e he =>
      run_value (hp.other.values e he) (hwords.of_member (mem_members_of_mem_other he))
  have hfold : p.other.foldl (fun d e => { d with other := d.other.insert e.1 e.2 })
      ⟨path, extensions, []⟩ =
        Draft.mk path extensions (p.other.foldl (fun (t : Table Json) e => t.insert e.1 e.2) []) :=
    List.foldl_hom (Draft.mk path extensions) fun _ _ => rfl
  have htable : p.other.foldl (fun (t : Table Json) e => t.insert e.1 e.2) [] = p.other :=
    Table.ofList_of_nodup hp.other.nodup
  rw [map_entries_id, hfold, htable] at hread
  exact hread

/-- The members of settings are read one after another. -/
theorem membersRead_members (hp : p.Readable levels) (hwords : p.toJson.HasWordsOnly) :
    MembersRead layout level (memberReader levels) p.members .empty p.draft :=
  ((membersRead_schemaPath levels p.schemaPath).append
    (membersRead_extensions hp hwords _)).append (membersRead_other hp hwords _ _)

theorem run_reader (hp : p.Readable levels) (hwords : p.toJson.HasWordsOnly) :
    ReadsBack layout level (reader levels) p.toJson p := by
  intro blank rest hblank _
  have hmembers : (Json.Reader.members (memberReader levels) Draft.empty).run
      (p.toJson.chars layout level ++ rest) = .ok (p.draft, '}' :: rest) :=
    run_members (membersRead_members hp hwords)
  have hhead : (p.toJson.chars layout level ++ rest).head? = some '{' :=
    head?_chars_object layout level p.members rest
  rw [reader, run_bind_of_ok (run_begins hblank hhead (by decide)), run_bind_of_ok hmembers,
    run_bind_of_ok (run_closeObject _), settings_draft]
  rfl

end ProjectSettings

/-! ## Configurations -/

namespace Configuration

open ProjectSettings (draft)

variable {c : Configuration} {p : ProjectSettings}

/-! ### The top level -/

theorem RootReadable.ne_of_mem_members (hp : RootReadable levels p) {e : String × Json}
    (he : e ∈ p.members) : e.1 ≠ projectsKey := by
  rcases ProjectSettings.mem_members_cases he with ⟨hkey, -⟩ | rfl | hother
  · rw [hkey]
    decide
  · show extensionsKey ≠ projectsKey
    decide
  · exact fun hkey => hp.projects_notMem (hkey ▸ List.mem_map_of_mem hother)

theorem membersRead_root (hc : c.Readable) (hwords : ∀ e ∈ c.root.members, e.2.HasWordsOnly) :
    MembersRead layout level (memberReader (nestingLimit - 1)) c.root.members ⟨none, []⟩
      ⟨none, c.root.members⟩ := by
  have hmember : ∀ e ∈ c.root.members, ∀ d : Draft, memberReader (nestingLimit - 1) e.1 d = do
      colon
      return { d with rest := d.rest ++ [(e.1, ← value (nestingLimit - 1))] } := by
    intro e he d
    rw [memberReader, if_neg (hc.root.ne_of_mem_members he)]
  have hread : MembersRead layout level (memberReader (nestingLimit - 1))
      (c.root.members.map fun e => (e.1, id e.2)) ⟨none, []⟩
      (c.root.members.foldl (fun d e => { d with rest := d.rest ++ [(e.1, e.2)] }) ⟨none, []⟩) :=
    membersRead_foldl hmember fun e he =>
      run_value (hc.root.settings.fits_of_mem_members he) (hwords e he)
  have hfold : c.root.members.foldl (fun d e => { d with rest := d.rest ++ [(e.1, e.2)] })
      ⟨none, []⟩ = Draft.mk none (c.root.members.foldl (fun rest e => rest ++ [e]) []) :=
    List.foldl_hom (Draft.mk none) fun _ _ => rfl
  have hlist : c.root.members.foldl (fun rest e => rest ++ [e]) [] = c.root.members := by
    rw [List.foldl_append_eq_append, List.nil_append, ← List.flatMap_def,
      List.flatMap_singleton']
  rw [map_entries_id, hfold, hlist] at hread
  exact hread

theorem foldlM_rootMember_other {d : ProjectSettings.Draft} {other : List (String × Json)}
    (hkeys : ∀ e ∈ other, e.1 ≠ schemaPathKey ∧ e.1 ≠ extensionsKey) :
    other.foldlM rootMember d =
      .ok { d with other := other.foldl (fun t e => t.insert e.1 e.2) d.other } := by
  induction other generalizing d with
  | nil => rfl
  | cons e more ih =>
      obtain ⟨hpath, hextensions⟩ := hkeys e List.mem_cons_self
      have hstep : rootMember d e = .ok { d with other := d.other.insert e.1 e.2 } := by
        unfold rootMember
        dsimp only
        rw [if_neg hpath, if_neg hextensions]
      rw [List.foldlM_cons, hstep]
      exact ih fun e he => hkeys e (List.mem_cons_of_mem _ he)

/-- The settings at the top level are found among the members there. -/
theorem foldlM_rootMember_members (hp : p.Readable levels) :
    p.members.foldlM rootMember .empty = .ok p.draft := by
  have hpath : (p.schemaPath.map fun path => (schemaPathKey, Json.string path)).toList.foldlM
      rootMember .empty = .ok ⟨p.schemaPath.map some, none, []⟩ := by
    cases p.schemaPath <;> rfl
  have hextensions : List.foldlM rootMember ⟨p.schemaPath.map some, none, []⟩
      (if p.extensions.isEmpty then [] else [(extensionsKey, Json.object p.extensions)]) =
        .ok ⟨p.schemaPath.map some, p.draft.extensions, []⟩ := by
    unfold draft
    split <;> rfl
  have hother : p.other.foldlM rootMember ⟨p.schemaPath.map some, p.draft.extensions, []⟩ =
      .ok p.draft := by
    have htable : p.other.foldl (fun (t : Table Json) e => t.insert e.1 e.2) [] = p.other :=
      Table.ofList_of_nodup hp.other.nodup
    rw [foldlM_rootMember_other fun e he => hp.ne_of_mem_other he, htable]
    rfl
  rw [ProjectSettings.members, List.foldlM_append, List.foldlM_append, hpath]
  change (List.foldlM rootMember _ _ >>= fun d => p.other.foldlM rootMember d) = _
  rw [hextensions]
  exact hother

/-! ### The projects -/

/-- The member for the projects, if there are any. -/
def projectMembers (c : Configuration) : List (String × Json) :=
  if c.projects.isEmpty then []
  else [(projectsKey, .object (c.projects.map fun e => (e.1, e.2.toJson)))]

theorem toJson_eq (c : Configuration) :
    c.toJson = .object (c.root.members ++ c.projectMembers) := by
  have hempty : (c.projects.map fun e => (e.1, e.2.toJson)).isEmpty = c.projects.isEmpty :=
    List.isEmpty_map
  unfold projectMembers
  rw [← hempty]
  rfl

theorem membersRead_projects (hc : c.Readable)
    (hwords : ∀ e ∈ c.projectMembers, e.2.HasWordsOnly) (rest : List (String × Json)) :
    MembersRead layout level (memberReader (nestingLimit - 1)) c.projectMembers ⟨none, rest⟩
      ⟨if c.projects.isEmpty then none else some c.projects, rest⟩ := by
  unfold projectMembers at hwords ⊢
  by_cases hempty : c.projects.isEmpty = true
  · rw [if_pos hempty, if_pos hempty]
    exact .nil _
  · rw [if_neg hempty] at hwords ⊢
    rw [if_neg hempty]
    have hobject := hwords _ List.mem_cons_self
    have htable : ReadsBack layout level
        (tableOf .map (ProjectSettings.reader (nestingLimit - 1 - 2)))
        (.object (c.projects.map fun e => (e.1, e.2.toJson))) c.projects :=
      run_tableOf .map (fun e he => ProjectSettings.run_reader (hc.projects.values e he)
        (hobject.of_member (List.mem_map_of_mem he))) hc.projects.nodup
    exact .ofValue rfl htable (.nil _)

/-! ### The file -/

theorem toList_toText (c : Configuration) :
    c.toText.toList = c.toJson.chars .indented 0 ++ ['\n'] := by
  rw [toText, String.toList_append, indented, String.toList_ofList]
  rfl

/-- The text of a configuration is read as that configuration. -/
theorem run_reader (hc : c.Readable) (hwords : c.toJson.HasWordsOnly) :
    (reader c.path).run c.toText.toList = .ok (c, []) := by
  have hline : AllBlank ['\n'] := allBlank_singleton (by decide)
  rw [toJson_eq] at hwords
  -- Before the closing brace the members at the top level are only collected.
  let last : Draft := ⟨if c.projects.isEmpty then none else some c.projects, c.root.members⟩
  have hread : MembersRead .indented 1 (memberReader (nestingLimit - 1))
      (c.root.members ++ c.projectMembers) ⟨none, []⟩ last :=
    (membersRead_root hc fun e he => hwords.of_member (List.mem_append_left _ he)).append
      (membersRead_projects hc (fun e he => hwords.of_member (List.mem_append_right _ he)) _)
  have hmembers : (Json.Reader.members (memberReader (nestingLimit - 1)) ⟨none, []⟩).run
      (c.toJson.chars .indented 0 ++ ['\n']) = .ok (last, ['}', '\n']) := by
    rw [toJson_eq]
    exact run_members hread
  have hlast : last.projects.getD [] = c.projects := by
    show (if c.projects.isEmpty then none else some c.projects).getD [] = c.projects
    cases c.projects <;> rfl
  have hbegins : (begins '{' .configuration).run (c.toJson.chars .indented 0 ++ ['\n']) =
      .ok ((), c.toJson.chars .indented 0 ++ ['\n']) := by
    rw [toJson_eq]
    exact run_begins allBlank_nil (head?_chars_object _ _ _ _) (by decide)
  rw [toList_toText, reader, run_bind_of_ok hbegins, run_bind_of_ok hmembers,
    run_bind_of_ok (run_closeObject _), foldlM_rootMember_members hc.root.settings,
    run_bind_of_ok (run_finish hline), hlast, ProjectSettings.settings_draft]
  rfl

/-- A file with the text of a configuration is loaded as that configuration. -/
theorem load_of_readText {fs : FileSystem} (hc : c.Readable) (hwords : c.toJson.HasWordsOnly)
    (htext : fs.readText c.path = .ok c.toText) : load fs c.path = .ok c := by
  have hread : readDocument (reader c.path) c.toText = .ok c := by
    rw [readDocument, run_reader hc hwords]
  rw [load, htext]
  show (readDocument (reader c.path) c.toText).mapError (ConfigFault.malformed c.path) = .ok c
  rw [hread]
  rfl

def blogConfiguration : Configuration where
  path := ⟨"/blog/.graphqlconfig"⟩
  root := ⟨none, [], [("owner", .object [("since", .integer 2019),
    ("tags", .array [.bool true, .null])])]⟩
  projects := [("web", ⟨none, [("fragments", .string "old"), ("bundle", .string "é\n")],
    [("limit", .integer (-7))]⟩)]

def blogDisk : FileSystem where
  entries := [(["blog"], .directory),
    (["blog", ".graphqlconfig"], .file (.text blogConfiguration.toText))]
  workingDirectory := ⟨"/"⟩

theorem readable_blog : blogConfiguration.Readable := by
  refine ⟨⟨⟨Table.isSound_nil, ⟨by decide, ?_⟩, by decide, by decide⟩, by decide⟩,
    ⟨by decide, ?_⟩⟩
  · simp [blogConfiguration]
    exact ⟨by decide, by simp [Json.Fits]⟩
  · simp only [blogConfiguration, List.mem_singleton, forall_eq]
    exact ⟨⟨by decide, by simp [Json.Fits]⟩, ⟨by decide, by simp [Json.Fits]⟩, by decide,
      by decide⟩

theorem hasWordsOnly_blog : blogConfiguration.toJson.HasWordsOnly := by
  have hjson : blogConfiguration.toJson = .object
      [("owner", .object [("since", .integer 2019), ("tags", .array [.bool true, .null])]),
        ("projects", .object [("web", .object
          [("extensions", .object [("fragments", .string "old"), ("bundle", .string "é\n")]),
            ("limit", .integer (-7))])])] := rfl
  rw [hjson]
  simp [isWord64]

theorem locate_blog : blogDisk.locate blogConfiguration.path = .ok ["blog", ".graphqlconfig"] :=
  eq_ok_of_toOption (by decide +kernel)

theorem load_blog : load blogDisk blogConfiguration.path = .ok blogConfiguration := by
  have hentry : blogDisk.get? ["blog", ".graphqlconfig"] =
      some (.file (.text blogConfiguration.toText)) := by
    simp [blogDisk, FileSystem.get?, List.lookup_cons]
  exact load_of_readText readable_blog hasWordsOnly_blog
    (FileSystem.readText_eq_ok_iff.mpr ⟨_, locate_blog, hentry⟩)

/-- The blog with new settings for the fragments of its project. -/
def changedBlog : Configuration :=
  blogConfiguration.modifyProject "web" (·.setFragmentSettings ⟨some "src/\"é\"", none⟩)

theorem toJson_changedBlog : changedBlog.toJson = .object
    [("owner", .object [("since", .integer 2019), ("tags", .array [.bool true, .null])]),
      ("projects", .object [("web", .object
        [("extensions", .object [("bundle", .string "é\n"),
          ("generate-fragments", .object [("output", .string "src/\"é\"")])]),
          ("limit", .integer (-7))])])] := rfl

end Configuration

end GraphqlFragments
