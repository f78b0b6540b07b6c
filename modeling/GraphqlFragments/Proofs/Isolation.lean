import GraphqlFragments.CommandLine.Run
import GraphqlFragments.Proofs.Plans
import GraphqlFragments.Proofs.Saving
/-!
# Projects in isolation

The settings that are kept of one project are never looked at by another one. So the run of
several projects comes to what each of them comes to with the configuration as it was loaded,
on the files that those before it have left.
-/

namespace GraphqlFragments

/-! ## Runs -/

/-- The run of a project between the files that it finds and those that it leaves. -/
structure ProjectRun where
  name : String
  before : FileSystem
  ran : Logged (Option (Plan × FilePath))
  after : FileSystem

namespace ProjectRun

/-- The plan that has been carried out with success. -/
def plan? (r : ProjectRun) : Option Plan :=
  match r.ran.result with
  | .ok (some (plan, _)) => some plan
  | _ => none

def hasFailed (r : ProjectRun) : Bool :=
  match r.ran.result with
  | .ok _ => false
  | .error _ => true

/-- The last notice about a project. -/
def verdict (r : ProjectRun) : Notice :=
  match r.ran.result with
  | .ok (some (_, path)) => .written r.name path
  | .ok none => .skipping r.name
  | .error failure => .failed r.name failure

def notices (r : ProjectRun) : List Notice := [.generating r.name] ++ r.ran.log ++ [r.verdict]

/-- What becomes of the settings of the project. -/
def keep (r : ProjectRun) (project : ProjectSettings) : ProjectSettings :=
  match r.plan? with
  | some plan => project.setFragmentSettings plan.fragmentSettings
  | none => project

def failedNames (runs : List ProjectRun) : List String :=
  (runs.filter hasFailed).map ProjectRun.name

end ProjectRun

namespace Configuration

/-- The run of a project with the configuration as it is. -/
def projectRun (c : Configuration) (overrides : Overrides) (explicit : Bool) (name : String)
    (fs : FileSystem) : ProjectRun :=
  let (ran, after) := c.runProject name overrides explicit fs
  ⟨name, fs, ran, after⟩

/-- Runs of projects one after the other, all with the configuration as it is. -/
def projectRuns (c : Configuration) (overrides : Overrides) (explicit : Bool) :
    List String → FileSystem → List ProjectRun
  | [], _ => []
  | name :: rest, fs =>
      let run := c.projectRun overrides explicit name fs
      run :: c.projectRuns overrides explicit rest run.after

/-- The configuration with the settings of the projects that have been run with success. -/
def keepAll (c : Configuration) (runs : List ProjectRun) : Configuration :=
  runs.foldl (fun c run => c.modifyProject run.name run.keep) c

variable {c d : Configuration} {overrides : Overrides} {explicit : Bool} {fs : FileSystem}
  {name : String} {names : List String} {runs : List ProjectRun}

@[simp] theorem name_projectRun (c : Configuration) (overrides : Overrides) (explicit : Bool)
    (name : String) (fs : FileSystem) :
    (c.projectRun overrides explicit name fs).name = name := rfl

theorem map_name_projectRuns (c : Configuration) (overrides : Overrides) (explicit : Bool)
    (names : List String) (fs : FileSystem) :
    (c.projectRuns overrides explicit names fs).map ProjectRun.name = names := by
  induction names generalizing fs with
  | nil => rfl
  | cons name rest ih => rw [projectRuns, List.map_cons, ih, name_projectRun]

theorem projectRuns_append (c : Configuration) (overrides : Overrides) (explicit : Bool)
    (first rest : List String) (fs : FileSystem) :
    c.projectRuns overrides explicit (first ++ rest) fs =
      c.projectRuns overrides explicit first fs ++
        c.projectRuns overrides explicit rest
          ((c.projectRuns overrides explicit first fs).foldl (fun _ run => run.after) fs) := by
  induction first generalizing fs with
  | nil => rfl
  | cons name more ih => simp [projectRuns, ih]

/-! ## Settings that are kept -/

@[simp] theorem path_keepAll (c : Configuration) (runs : List ProjectRun) :
    (c.keepAll runs).path = c.path := by
  induction runs generalizing c with
  | nil => rfl
  | cons run rest ih =>
      rw [keepAll, List.foldl_cons]
      exact (ih _).trans (path_modifyProject c run.name run.keep)

theorem project?_keepAll_of_notMem (h : name ∉ runs.map ProjectRun.name) :
    (c.keepAll runs).project? name = c.project? name := by
  induction runs generalizing c with
  | nil => rfl
  | cons run rest ih =>
      rw [List.map_cons, List.mem_cons, not_or] at h
      rw [keepAll, List.foldl_cons]
      exact (ih h.2).trans (project?_modifyProject_of_ne c run.keep h.1)

theorem project?_keepAll_of_mem (hnodup : (runs.map ProjectRun.name).Nodup) {run : ProjectRun}
    (hrun : run ∈ runs) :
    (c.keepAll runs).project? run.name = (c.project? run.name).map run.keep := by
  induction runs generalizing c with
  | nil => cases hrun
  | cons first rest ih =>
      rw [List.map_cons, List.nodup_cons] at hnodup
      rw [keepAll, List.foldl_cons]
      rcases List.mem_cons.mp hrun with rfl | hrest
      · exact (project?_keepAll_of_notMem hnodup.1).trans
          (project?_modifyProject_self c run.name run.keep)
      · have hne : run.name ≠ first.name := fun he =>
          hnodup.1 (he ▸ List.mem_map_of_mem hrest)
        refine (ih hnodup.2 hrest).trans ?_
        rw [project?_modifyProject_of_ne c first.keep hne]

theorem root_keepAll (h : c.projects.isEmpty = false) (runs : List ProjectRun) :
    (c.keepAll runs).root = c.root := by
  induction runs generalizing c with
  | nil => rfl
  | cons run rest ih =>
      rw [keepAll, List.foldl_cons]
      refine (ih ?_).trans (root_modifyProject h run.name run.keep)
      rw [isEmpty_projects_modifyProject, h]

theorem projectNames_keepAll (c : Configuration) (runs : List ProjectRun) :
    (c.keepAll runs).projectNames = c.projectNames := by
  induction runs generalizing c with
  | nil => rfl
  | cons run rest ih =>
      rw [keepAll, List.foldl_cons]
      exact (ih _).trans (projectNames_modifyProject c run.name run.keep)

end Configuration

/-! ## The loop -/

namespace CommandLine

open GraphqlFragments.Configuration

variable {c : Configuration} {overrides : Overrides} {explicit : Bool} {fs : FileSystem}
  {name : String} {names : List String}

/-- Where the program stands after some runs that began somewhere. -/
def Progress.after (s : Progress) (runs : List ProjectRun) : Progress where
  configuration := s.configuration.keepAll runs
  failed := s.failed ++ ProjectRun.failedNames runs
  log := s.log ++ runs.flatMap ProjectRun.notices
  files := runs.foldl (fun _ run => run.after) s.files

theorem Progress.after_cons (s : Progress) (run : ProjectRun) (runs : List ProjectRun) :
    s.after (run :: runs) = (s.after [run]).after runs := by
  simp [after, keepAll, ProjectRun.failedNames, List.filter_cons]
  split <;> simp

/-- One project is run as it would be with another configuration that has the same path and the
same settings for it. -/
theorem runProject_eq_after {s : Progress} (hpath : s.configuration.path = c.path)
    (hproject : s.configuration.project? name = c.project? name) :
    runProject overrides explicit s name =
      s.after [c.projectRun overrides explicit name s.files] := by
  rw [runProject, runProject_congr hpath hproject, projectRun]
  obtain ⟨⟨log, result⟩, files⟩ := c.runProject name overrides explicit s.files
  have hafter (run : ProjectRun) : s.after [run] =
      ⟨s.configuration.modifyProject run.name run.keep, s.failed ++ ProjectRun.failedNames [run],
        s.log ++ run.notices, run.after⟩ := by
    simp [Progress.after, keepAll]
  have hfixed {run : ProjectRun} (h : run.plan? = none) :
      s.configuration.modifyProject run.name run.keep = s.configuration :=
    modifyProject_of_fixed fun project _ => by rw [ProjectRun.keep, h]
  rw [hafter]
  match result with
  | .error failure =>
      rw [hfixed rfl]
      simp [ProjectRun.failedNames, ProjectRun.hasFailed, ProjectRun.notices, ProjectRun.verdict,
        List.filter_cons]
  | .ok none =>
      rw [hfixed rfl]
      simp [ProjectRun.failedNames, ProjectRun.hasFailed, ProjectRun.notices, ProjectRun.verdict]
  | .ok (some (plan, path)) =>
      simp [ProjectRun.failedNames, ProjectRun.hasFailed, ProjectRun.notices, ProjectRun.verdict]
      rfl

/-- Running projects one after the other, each with what has become of the configuration, comes
to running them all with the configuration as it was. -/
theorem foldl_runProject_eq_after {s : Progress} (hnodup : names.Nodup)
    (hpath : s.configuration.path = c.path)
    (hprojects : ∀ name ∈ names, s.configuration.project? name = c.project? name) :
    names.foldl (runProject overrides explicit) s =
      s.after (c.projectRuns overrides explicit names s.files) := by
  induction names generalizing s with
  | nil => simp [projectRuns, Progress.after, keepAll, ProjectRun.failedNames]
  | cons name rest ih =>
      obtain ⟨hname, hrest⟩ := List.nodup_cons.mp hnodup
      let run := c.projectRun overrides explicit name s.files
      have hstep : runProject overrides explicit s name = s.after [run] :=
        runProject_eq_after hpath (hprojects name List.mem_cons_self)
      rw [List.foldl_cons, hstep]
      refine (ih hrest ?_ fun other hother => ?_).trans (Progress.after_cons s run _).symm
      · exact (path_keepAll s.configuration [run]).trans hpath
      · -- The project that has been run is none of those that are left.
        have hne : other ∉ [run].map ProjectRun.name := by
          intro hmem
          have hother' : other = name := List.mem_singleton.mp hmem
          exact hname (hother' ▸ hother)
        exact (project?_keepAll_of_notMem hne).trans
          (hprojects other (List.mem_cons_of_mem _ hother))

theorem runProjects_eq_after (hnodup : names.Nodup) :
    runProjects c names overrides explicit fs =
      Progress.after ⟨c, [], [], fs⟩ (c.projectRuns overrides explicit names fs) :=
  foldl_runProject_eq_after (s := ⟨c, [], [], fs⟩) hnodup rfl fun _ _ => rfl

/-- What has become of the configuration makes no difference to a project that is run after some
others. -/
theorem runProject_runProjects {before later : List String}
    (hnodup : (before ++ name :: later).Nodup) :
    let t := runProjects c before overrides explicit fs
    t.configuration.runProject name overrides explicit t.files =
        c.runProject name overrides explicit t.files ∧
      (c.projectRuns overrides explicit (before ++ name :: later) fs)[before.length]? =
        some (c.projectRun overrides explicit name t.files) := by
  intro t
  rw [List.nodup_append] at hnodup
  have ht : t = Progress.after ⟨c, [], [], fs⟩ (c.projectRuns overrides explicit before fs) :=
    runProjects_eq_after hnodup.1
  have hpath : t.configuration.path = c.path := by
    rw [ht]
    exact path_keepAll c _
  have hproject : t.configuration.project? name = c.project? name := by
    rw [ht]
    refine project?_keepAll_of_notMem ?_
    rw [map_name_projectRuns]
    exact fun hmem => hnodup.2.2 name hmem name List.mem_cons_self rfl
  refine ⟨runProject_congr hpath hproject _ _ _, ?_⟩
  have hlength : (c.projectRuns overrides explicit before fs).length = before.length := by
    rw [← List.length_map ProjectRun.name, map_name_projectRuns]
  rw [projectRuns_append, List.getElem?_append_right (Nat.le_of_eq hlength), hlength,
    Nat.sub_self, ht]
  rfl

/-! ## The program -/

theorem nodup_projectNames {options : Options} (h : loadConfiguration fs options = .ok c) :
    c.projectNames.Nodup := by
  have hreadable : c.Readable := by
    unfold loadConfiguration at h
    split at h
    · cases h
      exact readable_empty _
    · exact readable_of_load h
  unfold projectNames
  split
  · exact List.pairwise_singleton _ _
  · exact hreadable.projects.nodup

/-- The projects that the program runs. -/
def selected (options : Options) (c : Configuration) : List String :=
  (options.project.map fun name => [name]).getD c.projectNames

theorem nodup_selected {options : Options} (h : loadConfiguration fs options = .ok c) :
    (selected options c).Nodup := by
  unfold selected
  cases options.project with
  | none => exact nodup_projectNames h
  | some name => exact List.pairwise_singleton _ _

/-- What is left when saving, if it is asked for, succeeds. -/
theorem saveProgress_eq {options : Options} {s : Progress} {files : FileSystem}
    (h : (if options.save then s.configuration.save s.files else .ok s.files) = .ok files) :
    (saveProgress options s).files = files ∧
      (saveProgress options s).failing =
        if s.failed.isEmpty then none else some (.projects s.failed) := by
  unfold saveProgress
  cases hsave : options.save with
  | false =>
      rw [hsave] at h
      cases h
      exact ⟨rfl, rfl⟩
  | true =>
      rw [hsave, if_pos rfl] at h
      simp [h]

/-- What a run of the program comes to where the projects do not disturb each other: `runs` are
those of the projects with the configuration as it was loaded, `s` is where the program stands
after them, and `exit` is what it leaves. -/
structure Isolated (options : Options) (c : Configuration) (fs : FileSystem)
    (runs : List ProjectRun) (s : Progress) (exit : Exit) : Prop where
  nodup : (selected options c).Nodup
  names : runs.map ProjectRun.name = selected options c
  /-- On the files that the projects before it have left, each project is run as it would be
  with the configuration as it was loaded. -/
  each : ∀ before name later, selected options c = before ++ name :: later →
    let t := runProjects c before (overridesOf options) options.project.isSome fs
    t.configuration.runProject name (overridesOf options) options.project.isSome t.files =
        c.runProject name (overridesOf options) options.project.isSome t.files ∧
      runs[before.length]? =
        some (c.projectRun (overridesOf options) options.project.isSome name t.files)
  log : s.log = runs.flatMap ProjectRun.notices
  failed : s.failed = ProjectRun.failedNames runs
  configuration : s.configuration = c.keepAll runs
  kept : ∀ run ∈ runs, s.configuration.project? run.name = (c.project? run.name).map run.keep
  unchanged : ∀ name ∉ selected options c, s.configuration.project? name = c.project? name
  projectNames : s.configuration.projectNames = c.projectNames
  path : s.configuration.path = c.path
  root : c.projects.isEmpty = false → s.configuration.root = c.root
  /-- Unless saving fails, which project has failed is all that counts. -/
  saved : ∀ files,
    (if options.save then s.configuration.save s.files else .ok s.files) = .ok files →
      exit.files = files ∧ (exit.code ≠ 0 ↔ s.failed ≠ []) ∧
        exit.report = if s.failed.isEmpty then [] else (Failing.projects s.failed).report

/-- Each selected project is run once, in order, as it would be with the configuration that has
been loaded, on the files that the projects before it have left. Only the settings of those that
succeed change, this configuration is the one that is saved, and the program fails exactly if a
project has failed, and tells which. -/
theorem run_isolated {args : List String} {options : Options}
    (hrequest : request args = some (.run options)) (hload : loadConfiguration fs options = .ok c) :
    Isolated options c fs
      (c.projectRuns (overridesOf options) options.project.isSome (selected options c) fs)
      (runProjects c (selected options c) (overridesOf options) options.project.isSome fs)
      (run args fs) := by
  let runs := c.projectRuns (overridesOf options) options.project.isSome (selected options c) fs
  have hnodup : (selected options c).Nodup := nodup_selected hload
  have hnames : runs.map ProjectRun.name = selected options c := map_name_projectRuns _ _ _ _ _
  have hs : runProjects c (selected options c) (overridesOf options) options.project.isSome fs =
      Progress.after ⟨c, [], [], fs⟩ runs := runProjects_eq_after hnodup
  rw [hs]
  refine ⟨hnodup, hnames, ?_, List.nil_append _, List.nil_append _, rfl, ?_, ?_,
    projectNames_keepAll c runs, path_keepAll c runs, fun hmany => root_keepAll hmany runs, ?_⟩
  · intro before name later hsplit
    rw [hsplit] at hnodup ⊢
    exact runProject_runProjects hnodup
  · intro run hrun
    exact project?_keepAll_of_mem (hnames ▸ hnodup) hrun
  · intro name hname
    exact project?_keepAll_of_notMem (hnames ▸ hname)
  · intro files hfiles
    obtain ⟨hsaved, hfailing⟩ := saveProgress_eq hfiles
    have houtcome : runOptions options fs =
        saveProgress options (Progress.after ⟨c, [], [], fs⟩ runs) := by
      rw [runOptions, hload, ← hs]
      rfl
    rw [CommandLine.run, hrequest]
    dsimp only
    rw [houtcome, hsaved, hfailing]
    cases hfailed : (Progress.after ⟨c, [], [], fs⟩ runs).failed with
    | nil => simp
    | cons name more => simp

/-! ### A shop with three projects -/

/-- Settings of a project with a schema, as they are kept after a run. -/
def shopProject (schema : String) (settings : FragmentSettings) : ProjectSettings :=
  ({ ProjectSettings.empty with schemaPath := some schema } : ProjectSettings).setFragmentSettings
    settings

/-- One project is to be left out, the schema of another one is missing. -/
def shop : Configuration where
  path := ⟨"/shop/.graphqlconfig"⟩
  root := .empty
  projects := [("idle", .empty),
    ("broken", shopProject "missing.graphql" ⟨some "broken.js", some "js"⟩),
    ("app", shopProject "app.graphql" ⟨some "out/app.js", some "js"⟩)]

def shopDisk : FileSystem where
  entries := [(["shop"], .directory), (["shop", ".graphqlconfig"], .file (.text shop.toText)),
    (["shop", "app.graphql"], .file (.text "type Post \x7b id: ID \x7d"))]
  workingDirectory := ⟨"/"⟩

def shopArgs : List String := ["--config", "/shop/.graphqlconfig", "-s"]

def shopOptions : Options where
  config := ⟨"/shop/.graphqlconfig"⟩
  project := none
  schema := none
  generator := none
  output := none
  tiers := none
  save := true
  verbose := false
  quiet := false

theorem readable_shop : shop.Readable := by
  have hlevels : 2 ≤ Json.nestingLimit - 3 := by decide
  refine ⟨rootReadable_empty _, ⟨by decide, fun entry hentry => ?_⟩⟩
  have hempty := ProjectSettings.readable_empty (Json.nestingLimit - 3)
  simp only [shop, List.mem_cons, List.not_mem_nil, or_false] at hentry
  rcases hentry with rfl | rfl | rfl
  · exact hempty
  · exact (hempty.withSchemaPath _).setFragmentSettings hlevels _
  · exact (hempty.withSchemaPath _).setFragmentSettings hlevels _

theorem hasWordsOnly_shop : shop.toJson.HasWordsOnly := by
  have hjson : shop.toJson = .object [("projects", .object [("idle", .object []),
      ("broken", .object [("schemaPath", .string "missing.graphql"),
        ("extensions", .object [("generate-fragments",
          .object [("output", .string "broken.js"), ("generator", .string "js")])])]),
      ("app", .object [("schemaPath", .string "app.graphql"),
        ("extensions", .object [("generate-fragments",
          .object [("output", .string "out/app.js"), ("generator", .string "js")])])])])] := rfl
  rw [hjson]
  simp

theorem readText_shop : shopDisk.readText shop.path = .ok shop.toText := by
  have hlocate : shopDisk.locate shop.path = .ok ["shop", ".graphqlconfig"] :=
    eq_ok_of_toOption (by decide +kernel)
  have hentry : shopDisk.get? ["shop", ".graphqlconfig"] = some (.file (.text shop.toText)) := by
    simp [shopDisk, FileSystem.get?, List.lookup_cons]
  exact FileSystem.readText_eq_ok_iff.mpr ⟨_, hlocate, hentry⟩

theorem load_shop : loadConfiguration shopDisk shopOptions = .ok shop := by
  have hload : Configuration.load shopDisk shop.path = .ok shop :=
    load_of_readText readable_shop hasWordsOnly_shop readText_shop
  have hpath : shopOptions.config = shop.path := rfl
  rw [loadConfiguration, if_neg (by decide), hpath, hload]

theorem run_isolated_shop :
    request shopArgs = some (.run shopOptions) ∧
      loadConfiguration shopDisk shopOptions = .ok shop ∧
      selected shopOptions shop = ["idle", "broken", "app"] ∧
      Isolated shopOptions shop shopDisk
        (shop.projectRuns (overridesOf shopOptions) shopOptions.project.isSome
          (selected shopOptions shop) shopDisk)
        (runProjects shop (selected shopOptions shop) (overridesOf shopOptions)
          shopOptions.project.isSome shopDisk)
        (run shopArgs shopDisk) := by
  have hrequest : request shopArgs = some (.run shopOptions) := by decide +kernel
  exact ⟨hrequest, load_shop, rfl, run_isolated hrequest load_shop⟩

end CommandLine

end GraphqlFragments
