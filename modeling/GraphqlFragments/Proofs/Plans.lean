import GraphqlFragments.Project.Run
import GraphqlFragments.Proofs.Faults
import GraphqlFragments.Proofs.KeptPaths
/-!
# Plans of projects

What is planned for a project depends on its own settings and on the path of the
configuration. The settings that a plan leaves in its project lead to the same plan again,
whether or not the command line repeats the generator and the output directory.
-/

namespace GraphqlFragments

/-! ## Settings -/

namespace FragmentSettings

theorem ofJson_toJson (settings : FragmentSettings) : ofJson settings.toJson = .ok settings := by
  obtain ⟨output, generator⟩ := settings
  cases output <;> cases generator <;> rfl

end FragmentSettings

namespace ProjectSettings

variable {p : ProjectSettings} {settings : FragmentSettings} {key : String}

theorem get?_setFragmentSettings_self (p : ProjectSettings) (settings : FragmentSettings) :
    (p.setFragmentSettings settings).extensions.get? fragmentsExtension =
      some settings.toJson :=
  Table.get?_insert_self _ _ _

/-- Only the two extensions for fragments change. -/
theorem get?_setFragmentSettings_of_ne (h : p.extensions.keys.Nodup)
    (hnew : key ≠ fragmentsExtension) (hformer : key ≠ formerFragmentsExtension) :
    (p.setFragmentSettings settings).extensions.get? key = p.extensions.get? key := by
  show ((p.extensions.erase formerFragmentsExtension).insert fragmentsExtension _).get? key = _
  rw [Table.get?_insert_of_ne _ _ hnew, Table.get?_erase_of_ne h hformer]

theorem fragmentSettings?_setFragmentSettings (p : ProjectSettings)
    (settings : FragmentSettings) :
    (p.setFragmentSettings settings).fragmentSettings? = .ok (some settings) := by
  rw [fragmentSettings?, get?_setFragmentSettings_self]
  show ((FragmentSettings.ofJson settings.toJson).mapError ConfigFault.badSettings).map some = _
  rw [FragmentSettings.ofJson_toJson]
  rfl

theorem extensionPath?_setFragmentSettings (h : p.extensions.keys.Nodup)
    (hnew : key ≠ fragmentsExtension) (hformer : key ≠ formerFragmentsExtension) :
    (p.setFragmentSettings settings).extensionPath? key = p.extensionPath? key := by
  rw [extensionPath?, extensionPath?, get?_setFragmentSettings_of_ne h hnew hformer]

end ProjectSettings

/-! ## Projects -/

namespace Configuration

variable {c d : Configuration} {fs : FileSystem} {name other : String} {overrides : Overrides}
  {f : ProjectSettings → ProjectSettings} {p : Plan}

@[simp] theorem path_modifyProject (c : Configuration) (name : String)
    (f : ProjectSettings → ProjectSettings) : (c.modifyProject name f).path = c.path := by
  unfold modifyProject
  split
  · split <;> rfl
  · rfl

theorem isEmpty_projects_modifyProject (c : Configuration) (name : String)
    (f : ProjectSettings → ProjectSettings) :
    (c.modifyProject name f).projects.isEmpty = c.projects.isEmpty := by
  unfold modifyProject
  split
  · split <;> rfl
  · exact Table.isEmpty_modify c.projects name f

theorem keys_projects_modifyProject (c : Configuration) (name : String)
    (f : ProjectSettings → ProjectSettings) :
    (c.modifyProject name f).projects.keys = c.projects.keys := by
  unfold modifyProject
  split
  · split <;> rfl
  · exact Table.keys_modify c.projects name f

theorem projectNames_modifyProject (c : Configuration) (name : String)
    (f : ProjectSettings → ProjectSettings) :
    (c.modifyProject name f).projectNames = c.projectNames := by
  rw [projectNames, projectNames, isEmpty_projects_modifyProject, keys_projects_modifyProject]

theorem project?_modifyProject_self (c : Configuration) (name : String)
    (f : ProjectSettings → ProjectSettings) :
    (c.modifyProject name f).project? name = (c.project? name).map f := by
  cases hempty : c.projects.isEmpty with
  | true =>
      by_cases hname : name = defaultProject <;> simp [modifyProject, project?, hempty, hname]
  | false =>
      have hmodified := isEmpty_projects_modifyProject c name f
      rw [modifyProject, hempty, if_neg Bool.false_ne_true] at hmodified ⊢
      rw [project?, project?, hmodified, hempty, if_neg Bool.false_ne_true,
        if_neg Bool.false_ne_true]
      exact Table.get?_modify_self c.projects name f

theorem project?_modifyProject_of_ne (c : Configuration) (f : ProjectSettings → ProjectSettings)
    (h : other ≠ name) : (c.modifyProject name f).project? other = c.project? other := by
  cases hempty : c.projects.isEmpty with
  | true =>
      by_cases hname : name = defaultProject
      · have hother : other ≠ defaultProject := hname ▸ h
        simp [modifyProject, project?, hempty, hname, hother]
      · simp [modifyProject, hempty, hname]
  | false =>
      have hmodified := isEmpty_projects_modifyProject c name f
      rw [modifyProject, hempty, if_neg Bool.false_ne_true] at hmodified ⊢
      rw [project?, project?, hmodified, hempty, if_neg Bool.false_ne_true,
        if_neg Bool.false_ne_true]
      exact Table.get?_modify_of_ne c.projects f h

/-- A change that keeps the settings of the project changes nothing. -/
theorem modifyProject_of_fixed
    (h : ∀ project, c.project? name = some project → f project = project) :
    c.modifyProject name f = c := by
  obtain ⟨path, root, projects⟩ := c
  unfold project? at h
  unfold modifyProject
  split
  · next hempty =>
      rw [if_pos hempty] at h
      split
      · next hname =>
          rw [if_pos hname] at h
          rw [h root rfl]
      · rfl
  · next hempty =>
      rw [if_neg hempty] at h
      rw [Table.modify_of_fixed h]

theorem root_modifyProject (h : c.projects.isEmpty = false) (name : String)
    (f : ProjectSettings → ProjectSettings) : (c.modifyProject name f).root = c.root := by
  rw [modifyProject, h, if_neg Bool.false_ne_true]

/-! ## What a plan depends on -/

theorem resolvePath_congr (hpath : d.path = c.path) : d.resolvePath = c.resolvePath := by
  funext p
  rw [resolvePath, resolvePath, hpath]

theorem resolveOutput_congr (hpath : d.path = c.path) : d.resolveOutput = c.resolveOutput := by
  funext workingDirectory project settings overrides generator
  simp only [resolveOutput, relativePath, resolvePath_congr hpath, hpath]

theorem resolveSchemaPath_congr (hpath : d.path = c.path) :
    d.resolveSchemaPath = c.resolveSchemaPath := by
  funext fs project overrides
  simp only [resolveSchemaPath, schemaPath?, resolvePath_congr hpath]

theorem tiersPath?_congr (hpath : d.path = c.path) : d.tiersPath? = c.tiersPath? := by
  funext project overrides
  simp only [tiersPath?, resolvePath_congr hpath]

section Congr

variable (hpath : d.path = c.path) (hproject : d.project? name = c.project? name)
include hpath hproject

theorem findProject_congr : d.findProject name = c.findProject name := by
  rw [findProject, findProject, hproject, hpath]

theorem shouldSkip_congr (overrides : Overrides) (explicit : Bool) :
    d.shouldSkip name overrides explicit = c.shouldSkip name overrides explicit := by
  simp only [shouldSkip, findProject_congr hpath hproject]

theorem plan_congr (fs : FileSystem) (overrides : Overrides) :
    d.plan fs name overrides = c.plan fs name overrides := by
  simp only [plan, findProject_congr hpath hproject, resolveOutput_congr hpath,
    resolveSchemaPath_congr hpath, tiersPath?_congr hpath]

/-- A configuration with the same path that gives a project the same settings runs it the same
way. -/
theorem runProject_congr (overrides : Overrides) (explicit : Bool) (fs : FileSystem) :
    d.runProject name overrides explicit fs = c.runProject name overrides explicit fs := by
  have hprepare : d.prepare fs name overrides explicit = c.prepare fs name overrides explicit := by
    simp only [prepare, shouldSkip_congr hpath hproject, plan_congr hpath hproject]
  simp only [runProject, runProjectOn, hprepare]

end Congr

/-! ## What is planned -/

/-- The generator that a label stands for. -/
theorem result_ofLabel (label : String) :
    (Generator.ofLabel label).result =
      .ok ((Generator.ofLabel? label).getD .singleDocument) := by
  unfold Generator.ofLabel
  cases Generator.ofLabel? label <;> rfl

theorem findProject_eq_ok_iff {project : ProjectSettings} :
    c.findProject name = .ok project ↔ c.project? name = some project := by
  rw [findProject]
  cases c.project? name with
  | none => exact ⟨nofun, nofun⟩
  | some found =>
      exact ⟨fun h => congrArg some (Except.ok.inj h), fun h => by rw [Option.some.inj h]⟩

/-- A plan holds what its project, the command line and the files determine, one part after the
other. -/
theorem plan_eq_ok_iff : (c.plan fs name overrides).result = .ok p ↔
    ∃ project settings, c.project? name = some project ∧
      project.fragmentSettings? = .ok settings ∧
      (overrides.generator <|> (settings.getD .none).generator) = some p.generatorLabel ∧
      p.generator = (Generator.ofLabel? p.generatorLabel).getD .singleDocument ∧
      c.resolveOutput fs.workingDirectory name (settings.getD .none) overrides p.generator =
        .ok (p.output, p.outputSetting) ∧
      c.resolveSchemaPath fs project overrides = .ok p.schemaPath ∧
      loadTiers fs (c.tiersPath? project overrides) = .ok p.tiers ∧ p.project = name := by
  obtain ⟨planned, schemaPath, label, generator, output, setting, tiers⟩ := p
  unfold plan
  simp only [Logged.result_bind_eq_ok_iff, Logged.result_ofExcept_eq_ok_iff,
    findProject_eq_ok_iff]
  constructor
  · rintro ⟨project, hproject, settings, hsettings, hrest⟩
    -- What follows stands in both branches of the choice of a label.
    cases hlabel : (overrides.generator <|> (settings.getD .none).generator) with
    | none =>
        rw [hlabel] at hrest
        cases hrest
    | some given =>
        rw [hlabel] at hrest
        simp only [pure_bind, Logged.result_bind_eq_ok_iff, Logged.result_ofExcept_eq_ok_iff,
          result_ofLabel] at hrest
        obtain ⟨_, hgenerator, _, houtput, _, hschema, _, htiers, hplan⟩ := hrest
        cases hplan
        cases hgenerator
        exact ⟨project, settings, hproject, hsettings, hlabel, rfl, houtput, hschema, htiers, rfl⟩
  · rintro ⟨project, settings, hproject, hsettings, hlabel, hgenerator, houtput, hschema, htiers,
      hplanned⟩
    refine ⟨project, hproject, settings, hsettings, ?_⟩
    rw [hlabel]
    simp only [pure_bind, Logged.result_bind_eq_ok_iff, Logged.result_ofExcept_eq_ok_iff,
      result_ofLabel]
    exact ⟨generator, congrArg _ hgenerator.symm, _, houtput, schemaPath, hschema, tiers, htiers,
      by rw [hplanned]; rfl⟩

/-! ## Planning again -/

/-- The command line names the same schema and tiers again, and it names the same generator and
output directory or leaves them to the settings. -/
structure Repeats (again overrides : Overrides) : Prop where
  schema : again.schema = overrides.schema
  tiers : again.tiers = overrides.tiers
  generator : again.generator = overrides.generator ∨ again.generator = none
  outputDirectory :
    again.outputDirectory = overrides.outputDirectory ∨ again.outputDirectory = none

section Again

variable {again : Overrides} {project : ProjectSettings} {settings : FragmentSettings}

theorem schemaPath?_setFragmentSettings (h : project.extensions.keys.Nodup)
    (hagain : Repeats again overrides) :
    c.schemaPath? (project.setFragmentSettings settings) again =
      c.schemaPath? project overrides := by
  have hbundle (key : String) (hkey : key ∈ bundleExtensions) :
      (project.setFragmentSettings settings).extensionPath? key = project.extensionPath? key := by
    refine ProjectSettings.extensionPath?_setFragmentSettings h ?_ ?_
    · rintro rfl
      exact absurd hkey (by decide)
    · rintro rfl
      exact absurd hkey (by decide)
  rw [schemaPath?, schemaPath?, hagain.schema]
  simp only [bundleExtensions, List.findSome?_cons, hbundle _ List.mem_cons_self,
    hbundle _ (List.mem_cons_of_mem _ List.mem_cons_self)]
  rfl

theorem tiersPath?_setFragmentSettings (h : project.extensions.keys.Nodup)
    (hagain : Repeats again overrides) :
    c.tiersPath? (project.setFragmentSettings settings) again =
      c.tiersPath? project overrides := by
  rw [tiersPath?, tiersPath?, hagain.tiers,
    ProjectSettings.extensionPath?_setFragmentSettings h (by decide) (by decide)]

theorem label_again {label : String} (hagain : Repeats again overrides)
    (h : (overrides.generator <|> settings.generator) = some label) :
    (again.generator <|> some label) = some label := by
  rcases hagain.generator with hsame | hnone
  · rw [hsame]
    cases hgiven : overrides.generator with
    | none => rfl
    | some given =>
        rw [hgiven] at h
        exact h
  · rw [hnone]
    rfl

/-- The kept setting leads to the same output, although the command line does not name a
directory any more, unless it is shown in another way than it is. -/
theorem resolveOutput_again {workingDirectory output : FilePath} {setting : String}
    {generator : Generator} (label : Option String) (hagain : Repeats again overrides)
    (h : c.resolveOutput workingDirectory name settings overrides generator =
      .ok (output, setting)) :
    ∃ same, c.resolveOutput workingDirectory name ⟨some setting, label⟩ again generator =
        .ok (same, setting) ∧
      (workingDirectory.isAbsolute = true →
        ((workingDirectory.join same).components = (workingDirectory.join output).components ↔
          again.outputDirectory = overrides.outputDirectory ∨
            (c.relativePath workingDirectory output).IsText)) ∧
      (again.outputDirectory = overrides.outputDirectory → same = output) := by
  unfold resolveOutput at h ⊢
  cases hgiven : overrides.outputDirectory with
  | some dir =>
      rw [hgiven] at h
      cases h
      rcases hagain.outputDirectory with hsame | hnone
      · rw [hsame, hgiven]
        exact ⟨_, rfl, fun _ => iff_of_true rfl (Or.inl rfl), fun _ => rfl⟩
      · rw [hnone]
        refine ⟨_, rfl, fun hwd => ?_, fun hsame => nomatch hsame⟩
        rw [or_iff_right nofun]
        exact components_resolvePath_shown_iff hwd c _
  | none =>
      have hnone : again.outputDirectory = none := by
        rcases hagain.outputDirectory with hsame | hnone
        · rw [hsame, hgiven]
        · exact hnone
      cases houtput : settings.output with
      | none =>
          rw [hgiven, houtput] at h
          cases h
      | some kept =>
          rw [hgiven, houtput] at h
          cases h
          rw [hnone]
          exact ⟨_, rfl, fun _ => iff_of_true rfl (Or.inl rfl), fun _ => rfl⟩

/-- With the settings that a plan leaves in its project, the same plan comes about again, up to
the way in which the path of its output is written. -/
theorem plan_again (hplan : (c.plan fs name overrides).result = .ok p)
    (hkeys : ∀ project, c.project? name = some project → project.extensions.keys.Nodup)
    (hpath : d.path = c.path)
    (hproject : d.project? name =
      (c.project? name).map (·.setFragmentSettings p.fragmentSettings))
    (hagain : Repeats again overrides) :
    ∃ same, (d.plan fs name again).result = .ok { p with output := same } ∧
      (fs.workingDirectory.isAbsolute = true →
        ((fs.workingDirectory.join same).components =
            (fs.workingDirectory.join p.output).components ↔
          again.outputDirectory = overrides.outputDirectory ∨
            (c.relativePath fs.workingDirectory p.output).IsText)) ∧
      (again.outputDirectory = overrides.outputDirectory → same = p.output) := by
  obtain ⟨project, settings, hfound, hsettings, hlabel, hgenerator, houtput, hschema, htiers,
    hname⟩ := plan_eq_ok_iff.mp hplan
  have hnodup := hkeys project hfound
  rw [hfound, Option.map_some] at hproject
  obtain ⟨same, hsame, hcomponents, hsameDirectory⟩ :=
    resolveOutput_again (some p.generatorLabel) hagain houtput
  refine ⟨same, plan_eq_ok_iff.mpr ⟨_, _, hproject,
    ProjectSettings.fragmentSettings?_setFragmentSettings _ _, label_again hagain hlabel,
    hgenerator, ?_, ?_, ?_, hname⟩, hcomponents, hsameDirectory⟩
  · rw [resolveOutput_congr hpath]
    exact hsame
  · rw [resolveSchemaPath_congr hpath, resolveSchemaPath,
      schemaPath?_setFragmentSettings hnodup hagain]
    exact hschema
  · rw [tiersPath?_congr hpath, tiersPath?_setFragmentSettings hnodup hagain]
    exact htiers

end Again

/-- A project that is run with the settings kept from another run, with neither generator nor
output directory given, has the same plan. Its output is at the same place exactly if the other run
was given no output directory either or the path that is kept for its output is a text. -/
theorem plan_of_keptSettings
    (hkeys : ∀ project, c.project? name = some project → project.extensions.keys.Nodup)
    (hwd : fs.workingDirectory.isAbsolute = true)
    (hplan : (c.plan fs name overrides).result = .ok p) :
    ∃ q, ((c.modifyProject name (·.setFragmentSettings p.fragmentSettings)).plan fs name
        ⟨overrides.schema, none, none, overrides.tiers⟩).result = .ok q ∧
      q.project = p.project ∧ q.schemaPath = p.schemaPath ∧
      q.generatorLabel = p.generatorLabel ∧ q.generator = p.generator ∧ q.tiers = p.tiers ∧
      q.outputSetting = p.outputSetting ∧
      ((fs.workingDirectory.join q.output).components =
          (fs.workingDirectory.join p.output).components ↔
        overrides.outputDirectory = none ∨
          (c.relativePath fs.workingDirectory p.output).IsText) := by
  have hrepeats : Repeats ⟨overrides.schema, none, none, overrides.tiers⟩ overrides :=
    ⟨rfl, rfl, Or.inr rfl, Or.inr rfl⟩
  obtain ⟨output, hagain, hcomponents, -⟩ := plan_again hplan hkeys (path_modifyProject c name _)
    (project?_modifyProject_self c name _) hrepeats
  refine ⟨_, hagain, rfl, rfl, rfl, rfl, rfl, rfl, (hcomponents hwd).trans ?_⟩
  rw [eq_comm]

/-! ### A blog with a directory of its own -/

def dottedBlog : Configuration where
  path := ⟨"blog/.graphqlconfig"⟩
  root := .empty
  projects := [("web", ⟨some "schema.graphql",
    [("fragments", .string "old.js"), ("fragment-tiers", .string "tiers.json")], []⟩)]

def dottedDisk : FileSystem where
  entries := [(["home"], .directory), (["home", "blog"], .directory),
    (["home", "blog", "schema.graphql"], .file (.text "type Post \x7b id: ID \x7d")),
    (["home", "blog", "tiers.json"],
      .file (.text "\x7b\"Post\": \x7b\"Public\": [\"id\"]\x7d\x7d"))]
  workingDirectory := ⟨"/home"⟩

def dottedOverrides : Overrides := ⟨none, some "js", some ⟨"./blog//src/../out"⟩, none⟩

def dottedPlan : Plan where
  project := "web"
  schemaPath := ⟨"blog/schema.graphql"⟩
  generatorLabel := "js"
  generator := .sourceModule
  output := ⟨"./blog//src/../out/web.fragments.js"⟩
  outputSetting := "src/../out/web.fragments.js"
  tiers := some [("Post", [("Public", ["id"])])]

theorem plan_dottedBlog :
    (dottedBlog.plan dottedDisk "web" dottedOverrides).result = .ok dottedPlan := by
  refine plan_eq_ok_iff.mpr ⟨_, none, rfl, rfl, rfl, rfl, ?_, ?_, ?_, rfl⟩
  · exact eq_ok_of_toOption (by decide +kernel)
  · exact eq_ok_of_toOption (by decide +kernel)
  · exact eq_ok_of_toOption (by decide +kernel)

/-- The kept path is taken from the directory of the configuration, so it is written in another
way. -/
theorem plan_of_keptSettings_dotted : dottedDisk.workingDirectory.isAbsolute = true ∧
    (dottedBlog.plan dottedDisk "web" dottedOverrides).result = .ok dottedPlan ∧
    ∃ q, ((dottedBlog.modifyProject "web"
        (·.setFragmentSettings dottedPlan.fragmentSettings)).plan dottedDisk "web"
          ⟨dottedOverrides.schema, none, none, dottedOverrides.tiers⟩).result = .ok q ∧
      q.project = dottedPlan.project ∧ q.schemaPath = dottedPlan.schemaPath ∧
      q.generatorLabel = dottedPlan.generatorLabel ∧ q.generator = dottedPlan.generator ∧
      q.tiers = dottedPlan.tiers ∧ q.outputSetting = dottedPlan.outputSetting ∧
      (dottedDisk.workingDirectory.join q.output).components =
        (dottedDisk.workingDirectory.join dottedPlan.output).components := by
  have hwd : dottedDisk.workingDirectory.isAbsolute = true := by decide
  have hkeys : ∀ project, dottedBlog.project? "web" = some project →
      project.extensions.keys.Nodup := by
    intro project hproject
    cases hproject
    decide
  have htext : (dottedBlog.relativePath dottedDisk.workingDirectory dottedPlan.output).IsText := by
    decide +kernel
  obtain ⟨q, hq, hproject, hschema, hlabel, hgenerator, htiers, hsetting, houtput⟩ :=
    plan_of_keptSettings hkeys hwd plan_dottedBlog
  exact ⟨hwd, plan_dottedBlog, q, hq, hproject, hschema, hlabel, hgenerator, htiers, hsetting,
    houtput.mpr (Or.inr htext)⟩

/-! ### An output directory that is no text -/

/-- The last byte of the name is that of no character. -/
def strayDirectory : FilePath := ⟨Letter.ofText "blog/out" ++ [.stray [0xff]]⟩

def strayOverrides : Overrides := ⟨none, some "js", some strayDirectory, none⟩

def strayPlan : Plan :=
  { dottedPlan with
    output := strayDirectory.join ⟨"web.fragments.js"⟩
    outputSetting := "out\uFFFD/web.fragments.js" }

theorem plan_stray : (dottedBlog.plan dottedDisk "web" strayOverrides).result = .ok strayPlan := by
  refine plan_eq_ok_iff.mpr ⟨_, none, rfl, rfl, rfl, rfl, ?_, ?_, ?_, rfl⟩
  · exact eq_ok_of_toOption (by decide +kernel)
  · exact eq_ok_of_toOption (by decide +kernel)
  · exact eq_ok_of_toOption (by decide +kernel)

/-- The settings that are kept name another directory. -/
theorem output_ne_of_keptSettings_stray :
    (dottedBlog.plan dottedDisk "web" strayOverrides).result = .ok strayPlan ∧
    ∃ q, ((dottedBlog.modifyProject "web"
        (·.setFragmentSettings strayPlan.fragmentSettings)).plan dottedDisk "web"
          ⟨strayOverrides.schema, none, none, strayOverrides.tiers⟩).result = .ok q ∧
      q.output = ⟨"blog/out\uFFFD/web.fragments.js"⟩ ∧
      (dottedDisk.workingDirectory.join q.output).components ≠
        (dottedDisk.workingDirectory.join strayPlan.output).components := by
  refine ⟨plan_stray, { strayPlan with output := ⟨"blog/out\uFFFD/web.fragments.js"⟩ },
    plan_eq_ok_iff.mpr ⟨_, some strayPlan.fragmentSettings, rfl, rfl, rfl, rfl, ?_, ?_, ?_, rfl⟩,
    rfl, ?_⟩
  · exact eq_ok_of_toOption (by decide +kernel)
  · exact eq_ok_of_toOption (by decide +kernel)
  · exact eq_ok_of_toOption (by decide +kernel)
  · decide +kernel

end Configuration

end GraphqlFragments
