import GraphqlFragments.Proofs.Writing
import GraphqlFragments.Proofs.Isolation
/-!
# Running projects again

The run of a project that succeeds leaves everything in place for the same run: its directories
exist, the settings that it left lead to the same plan, and unless the texts that it read have
changed, it writes the same texts to the same files.
-/

namespace GraphqlFragments

open FileSystem (Grows Leaves)

variable {fs after : FileSystem}

/-! ## Output -/

namespace Output

variable {m : Medium} {output : Output} {dir path result : FilePath} {parts : List OutputFile}

/-- The paths that output is written to. -/
def paths (output : Output) (path : FilePath) : List FilePath :=
  match output with
  | .bundle _ => [path]
  | .files parts => parts.map fun part => path.dir.join ⟨part.name⟩

theorem writeFiles_cons_eq_ok_iff {part : OutputFile} :
    writeFiles dir (part :: parts) fs = (.ok (), after) ↔
      ∃ mid, fs.write (dir.join ⟨part.name⟩) (.text part.contents) = .ok mid ∧
        writeFiles dir parts mid = (.ok (), after) := by
  simp only [← Medium.write_sound_eq_ok_iff]
  rw [writeFiles, writeFilesOn]
  cases hwrite : Medium.sound.write fs (dir.join ⟨part.name⟩) part.contents with
  | mk ended mid =>
      cases ended with
      | error fault => simp
      | ok => simp [writeFiles]

/-- All that writing can come to: there is no directory, or a bundle is written or not, or files
are, up to the last one or not. -/
theorem write_cases {written : Except IoFault FilePath}
    (h : output.writeOn m path fs = (written, after)) :
    (∃ fault, m.ensureDirectories fs path.dir = (.error fault, after) ∧
        written = .error fault) ∨
      ∃ mid ended, m.ensureDirectories fs path.dir = (.ok (), mid) ∧
        ((∃ text, output = .bundle text ∧ m.write mid path text = (ended, after) ∧
            written = ended.map fun _ => path) ∨
          ∃ parts, output = .files parts ∧
            writeFilesOn m path.dir parts mid = (ended, after) ∧
            written = ended.map fun _ => path.dir) := by
  unfold writeOn at h
  cases hensure : m.ensureDirectories fs path.dir with
  | mk made mid =>
      rw [hensure] at h
      cases made with
      | error fault =>
          cases h
          exact Or.inl ⟨fault, rfl, rfl⟩
      | ok =>
          cases output with
          | bundle text =>
              cases hwrite : m.write mid path text with
              | mk ended last =>
                  simp only [hwrite] at h
                  cases h
                  exact Or.inr ⟨mid, ended, rfl, Or.inl ⟨text, rfl, hwrite, rfl⟩⟩
          | files parts =>
              cases hwrite : writeFilesOn m path.dir parts mid with
              | mk ended last =>
                  simp only [hwrite] at h
                  cases h
                  exact Or.inr ⟨mid, ended, rfl, Or.inr ⟨parts, rfl, hwrite, rfl⟩⟩

/-- Output is written on a sound medium if its directory is made and then the bundle, or all the
files, are written. -/
theorem write_eq_ok_iff : output.write path fs = (.ok result, after) ↔
    ∃ mid, fs.ensureDirectories path.dir = (.ok (), mid) ∧
      ((∃ text, output = .bundle text ∧ mid.write path (.text text) = .ok after ∧
          result = path) ∨
        ∃ parts, output = .files parts ∧ writeFiles path.dir parts mid = (.ok (), after) ∧
          result = path.dir) := by
  constructor
  · intro h
    rcases write_cases h with ⟨fault, -, hfault⟩ | ⟨mid, ended, hensure, hwrite⟩
    · cases hfault
    refine ⟨mid, hensure, ?_⟩
    rcases hwrite with ⟨text, rfl, hwrite, hpath⟩ | ⟨parts, rfl, hwrite, hpath⟩
    · cases ended with
      | error fault => cases hpath
      | ok =>
          cases hpath
          exact Or.inl ⟨text, rfl, Medium.write_sound_eq_ok_iff.mp hwrite, rfl⟩
    · cases ended with
      | error fault => cases hpath
      | ok =>
          cases hpath
          exact Or.inr ⟨parts, rfl, hwrite, rfl⟩
  · rintro ⟨mid, hensure, ⟨text, rfl, hwrite, rfl⟩ | ⟨parts, rfl, hwrite, rfl⟩⟩
    · rw [write, writeOn, ← FileSystem.ensureDirectories, hensure]
      simp only [Medium.write_sound_eq_ok_iff.mpr hwrite]
      rfl
    · rw [writeFiles] at hwrite
      rw [write, writeOn, ← FileSystem.ensureDirectories, hensure]
      simp only [hwrite]
      rfl

theorem writeFiles_again (h : writeFiles dir parts fs = (.ok (), after)) :
    ∃ written, (∀ w ∈ written, ∃ part ∈ parts, after.locate (dir.join ⟨part.name⟩) = .ok w.1) ∧
      Leaves written fs after ∧
      ∀ changed later, Grows changed after later →
        writeFiles dir parts later = (.ok (), later.putAll written) := by
  induction parts generalizing fs with
  | nil =>
      cases h
      refine ⟨[], fun w hw => ?_, (Grows.refl [] _).leaves, fun _ _ _ => rfl⟩
      cases hw
  | cons part rest ih =>
      obtain ⟨mid, hwrite, h⟩ := writeFiles_cons_eq_ok_iff.mp h
      obtain ⟨location, hlocate, hleaves, hagain⟩ := FileSystem.leaves_of_write hwrite
      obtain ⟨written, hlocated, hrest, hrestAgain⟩ := ih h
      refine ⟨(location, part.contents) :: written, ?_, hleaves.trans hrest, ?_⟩
      · intro w hw
        rcases List.mem_cons.mp hw with rfl | hw
        · exact ⟨part, List.mem_cons_self, hrest.grows.locate hlocate⟩
        · obtain ⟨other, hother, hfound⟩ := hlocated w hw
          exact ⟨other, List.mem_cons_of_mem _ hother, hfound⟩
      · intro changed later hlater
        have hmid := hrest.grows.trans hlater
        exact writeFiles_cons_eq_ok_iff.mpr ⟨_, hagain _ later hmid,
          hrestAgain _ _ (hlater.trans (hleaves.grows_putAll hmid))⟩

/-- Output that has been written can be written again ever after. -/
theorem write_again (h : output.write path fs = (.ok result, after)) :
    ∃ written, (∀ w ∈ written, ∃ o ∈ output.paths path, after.locate o = .ok w.1) ∧
      Leaves written fs after ∧
      ∀ changed later, Grows changed after later →
        output.write path later = (.ok result, later.putAll written) := by
  obtain ⟨mid, hensure, hwrite⟩ := write_eq_ok_iff.mp h
  obtain ⟨hmade, hensured⟩ := FileSystem.ensureDirectories_again hensure
  rcases hwrite with ⟨text, rfl, hwrite, rfl⟩ | ⟨parts, rfl, hwrite, rfl⟩
  · obtain ⟨location, hlocate, hleaves, hagain⟩ := FileSystem.leaves_of_write hwrite
    refine ⟨[(location, text)], fun w hw => ?_, hmade.leaves.trans hleaves, ?_⟩
    · rw [List.mem_singleton.mp hw]
      exact ⟨_, List.mem_singleton_self _, hlocate⟩
    · intro changed later hlater
      exact write_eq_ok_iff.mpr ⟨later, hensured _ _ (hleaves.grows.trans hlater),
        Or.inl ⟨text, rfl, hagain _ later hlater, rfl⟩⟩
  · obtain ⟨written, hlocated, hleaves, hagain⟩ := writeFiles_again hwrite
    refine ⟨written, fun w hw => ?_, hmade.leaves.trans hleaves, ?_⟩
    · obtain ⟨part, hpart, hfound⟩ := hlocated w hw
      exact ⟨_, List.mem_map_of_mem hpart, hfound⟩
    · intro changed later hlater
      exact write_eq_ok_iff.mpr ⟨later, hensured _ _ (hleaves.grows.trans hlater),
        Or.inr ⟨parts, rfl, hagain _ later hlater, rfl⟩⟩

end Output

/-! ## Plans -/

namespace Plan

variable {p : Plan} {path : FilePath} {set : FragmentSet} {later : FileSystem}
  {ran : Logged FilePath} {m : Medium}

/-- The fragments of a plan are those of the text at its schema path. -/
theorem generate_eq_ok_iff : (p.generate fs).result = .ok set ↔
    ∃ text, fs.readText p.schemaPath = .ok text ∧
      (GraphqlFragments.generate text p.tiers).result = .ok set := by
  unfold generate
  simp only [Logged.result_bind_eq_ok_iff, Logged.result_ofExcept_eq_ok_iff]
  constructor
  · rintro ⟨text, htext, found, hfound, _, -, hset⟩
    cases hset
    exact ⟨text, htext, hfound⟩
  · rintro ⟨text, htext, hset⟩
    exact ⟨text, htext, set, hset, (), rfl, rfl⟩

/-- The fragments depend on nothing but the text of the schema. -/
theorem generate_congr (h : later.readText p.schemaPath = fs.readText p.schemaPath) :
    p.generate later = p.generate fs := by
  unfold generate
  rw [h]

theorem runOn_of_writeOn (hset : (p.generate fs).result = .ok set)
    {written : Except IoFault FilePath}
    (hwrite : (set.output p.generator).writeOn m p.output fs = (written, after)) :
    (p.runOn m fs).1.result = written.mapError .io ∧ (p.runOn m fs).2 = after := by
  simp only [runOn, hset, hwrite, and_self]

theorem run_of_write (hset : (p.generate fs).result = .ok set)
    (hwrite : (set.output p.generator).write p.output fs = (.ok path, after)) :
    (p.run fs).1.result = .ok path ∧ (p.run fs).2 = after :=
  runOn_of_writeOn hset hwrite

/-- A run writes the output of its fragments, or has none and fails. -/
theorem run_cases (h : p.runOn m fs = (ran, after)) :
    (∃ failure, ran.result = .error failure ∧ after = fs) ∨
      ∃ text set written, fs.readText p.schemaPath = .ok text ∧
        (GraphqlFragments.generate text p.tiers).result = .ok set ∧
        (set.output p.generator).writeOn m p.output fs = (written, after) ∧
        ran.result = written.mapError .io := by
  cases hset : (p.generate fs).result with
  | error failure =>
      simp only [runOn, hset] at h
      cases h
      exact Or.inl ⟨failure, rfl, rfl⟩
  | ok set =>
      obtain ⟨text, htext, hgenerated⟩ := Plan.generate_eq_ok_iff.mp hset
      cases hwrite : (set.output p.generator).writeOn m p.output fs with
      | mk written last =>
          simp only [runOn, hset, hwrite] at h
          cases h
          exact Or.inr ⟨text, set, written, htext, hgenerated, hwrite, rfl⟩

theorem exists_write_of_run (h : (p.run fs).1.result = .ok path) :
    ∃ set, (p.generate fs).result = .ok set ∧
      (set.output p.generator).write p.output fs = (.ok path, (p.run fs).2) := by
  have hrun : p.run fs = ((p.run fs).1, (p.run fs).2) := rfl
  rcases run_cases hrun with ⟨failure, hfailed, -⟩ | ⟨text, set, written, htext, hset, hwrite, hran⟩
  · rw [hfailed] at h
    cases h
  · rw [hran] at h
    cases written with
    | error fault => cases h
    | ok found =>
        cases h
        exact ⟨set, generate_eq_ok_iff.mpr ⟨text, htext, hset⟩, hwrite⟩

end Plan

/-! ## Settings -/

/-- To keep the same settings again changes nothing. -/
theorem ProjectSettings.setFragmentSettings_again {p : ProjectSettings}
    (h : p.extensions.keys.Nodup) (settings : FragmentSettings) :
    (p.setFragmentSettings settings).setFragmentSettings settings =
      p.setFragmentSettings settings := by
  have hne : formerFragmentsExtension ≠ fragmentsExtension := by decide
  have hformer : formerFragmentsExtension ∉ (p.setFragmentSettings settings).extensions.keys := by
    refine Table.get?_eq_none_iff.mp ?_
    show ((p.extensions.erase formerFragmentsExtension).insert fragmentsExtension _).get? _ = none
    rw [Table.get?_insert_of_ne _ _ hne, Table.get?_erase_self h]
  have hextensions : ((p.setFragmentSettings settings).extensions.erase
      formerFragmentsExtension).insert fragmentsExtension settings.toJson =
        (p.setFragmentSettings settings).extensions := by
    rw [Table.erase_of_notMem hformer]
    exact Table.insert_of_get? (get?_setFragmentSettings_self p settings)
  exact congrArg (fun extensions => ({ p with extensions := extensions } : ProjectSettings))
    hextensions

theorem ProjectRun.keep_of_plan {r : ProjectRun} {plan : Plan} (h : r.plan? = some plan) :
    r.keep = (·.setFragmentSettings plan.fragmentSettings) := by
  funext project
  rw [keep, h]

theorem ProjectRun.keep_of_skipped {r : ProjectRun} (h : r.plan? = none) : r.keep = id := by
  funext project
  rw [keep, h]
  rfl

theorem ProjectRun.keep_again (r : ProjectRun) {p : ProjectSettings}
    (h : p.extensions.keys.Nodup) : r.keep (r.keep p) = r.keep p := by
  unfold keep
  cases r.plan? with
  | none => rfl
  | some plan => exact p.setFragmentSettings_again h plan.fragmentSettings

/-! ## Projects -/

/-- The paths of the files that a project has been run to. -/
def ProjectRun.outputs (r : ProjectRun) : List FilePath :=
  match r.plan? with
  | none => []
  | some plan =>
      match (plan.generate r.before).result with
      | .error _ => []
      | .ok set => (set.output plan.generator).paths plan.output

namespace Configuration

variable {c d : Configuration} {overrides : Overrides} {explicit : Bool} {name : String}
  {plan : Plan} {path : FilePath} {later : FileSystem} {m : Medium}

/-- The schema and the tiers that a project has been run with. -/
def inputs (c : Configuration) (overrides : Overrides) (r : ProjectRun) : List FilePath :=
  match r.plan? with
  | none => []
  | some plan =>
      plan.schemaPath :: ((c.project? r.name).bind (c.tiersPath? · overrides)).toList

/-! ### Preparing -/

theorem prepare_eq_none_iff : (c.prepare fs name overrides explicit).result = .ok none ↔
    c.shouldSkip name overrides explicit = .ok true := by
  unfold prepare
  rw [Logged.result_bind_eq_ok_iff]
  constructor
  · rintro ⟨skip, hskip, hrest⟩
    cases skip with
    | true => exact Logged.result_ofExcept_eq_ok_iff.mp hskip
    | false =>
        obtain ⟨plan, -, hplan⟩ := Logged.result_bind_eq_ok_iff.mp hrest
        cases hplan
  · intro hskip
    exact ⟨true, Logged.result_ofExcept_eq_ok_iff.mpr hskip, rfl⟩

theorem prepare_eq_some_iff : (c.prepare fs name overrides explicit).result = .ok (some plan) ↔
    c.shouldSkip name overrides explicit = .ok false ∧
      (c.plan fs name overrides).result = .ok plan := by
  unfold prepare
  rw [Logged.result_bind_eq_ok_iff]
  constructor
  · rintro ⟨skip, hskip, hrest⟩
    cases skip with
    | true => cases hrest
    | false =>
        obtain ⟨found, hfound, hplan⟩ := Logged.result_bind_eq_ok_iff.mp hrest
        cases hplan
        exact ⟨Logged.result_ofExcept_eq_ok_iff.mp hskip, hfound⟩
  · rintro ⟨hskip, hplan⟩
    exact ⟨false, Logged.result_ofExcept_eq_ok_iff.mpr hskip,
      Logged.result_bind_eq_ok_iff.mpr ⟨plan, hplan, rfl⟩⟩

theorem runProject_of_skipped (fs : FileSystem)
    (h : c.shouldSkip name overrides explicit = .ok true) :
    (c.runProject name overrides explicit fs).1.result = .ok none ∧
      (c.runProject name overrides explicit fs).2 = fs := by
  have hprepared : (c.prepare fs name overrides explicit).result = .ok none :=
    prepare_eq_none_iff.mpr h
  unfold runProject runProjectOn
  simp only [hprepared, and_self]

theorem runProjectOn_of_plan (m : Medium) (h : c.shouldSkip name overrides explicit = .ok false)
    (hplan : (c.plan fs name overrides).result = .ok plan) :
    (c.runProjectOn m name overrides explicit fs).1.result =
        ((plan.runOn m fs).1.result.map fun path => some (plan, path)) ∧
      (c.runProjectOn m name overrides explicit fs).2 = (plan.runOn m fs).2 := by
  have hprepared := prepare_eq_some_iff.mpr ⟨h, hplan⟩
  unfold runProjectOn
  simp only [hprepared, and_self]

theorem runProject_of_plan (h : c.shouldSkip name overrides explicit = .ok false)
    (hplan : (c.plan fs name overrides).result = .ok plan)
    (hrun : (plan.run fs).1.result = .ok path) :
    (c.runProject name overrides explicit fs).1.result = .ok (some (plan, path)) ∧
      (c.runProject name overrides explicit fs).2 = (plan.run fs).2 := by
  obtain ⟨hresult, hafter⟩ := runProjectOn_of_plan .sound h hplan
  refine ⟨hresult.trans ?_, hafter⟩
  rw [Plan.run] at hrun
  rw [hrun]
  rfl

/-- A project is left out, or has no plan, or has its plan run. -/
theorem runProjectOn_inv {ran : Logged (Option (Plan × FilePath))}
    (h : c.runProjectOn m name overrides explicit fs = (ran, after)) :
    (ran.result = .ok none ∧ c.shouldSkip name overrides explicit = .ok true ∧ after = fs) ∨
      (∃ failure, ran.result = .error failure ∧ after = fs) ∨
      ∃ plan ranPlan, c.shouldSkip name overrides explicit = .ok false ∧
        (c.plan fs name overrides).result = .ok plan ∧ plan.runOn m fs = (ranPlan, after) ∧
        ran.result = ranPlan.result.map fun path => some (plan, path) := by
  cases hprepared : (c.prepare fs name overrides explicit).result with
  | error failure =>
      simp only [runProjectOn, hprepared] at h
      cases h
      exact Or.inr (Or.inl ⟨failure, rfl, rfl⟩)
  | ok prepared =>
      cases prepared with
      | none =>
          simp only [runProjectOn, hprepared] at h
          cases h
          exact Or.inl ⟨rfl, prepare_eq_none_iff.mp hprepared, rfl⟩
      | some plan =>
          obtain ⟨hskip, hplan⟩ := prepare_eq_some_iff.mp hprepared
          cases hran : plan.runOn m fs with
          | mk ranPlan last =>
              simp only [runProjectOn, hprepared, hran] at h
              cases h
              exact Or.inr (Or.inr ⟨plan, ranPlan, hskip, hplan, hran, rfl⟩)

/-- A project whose run succeeds has been left out or carried out as planned. -/
theorem runProject_cases {ran : Option (Plan × FilePath)}
    (h : (c.runProject name overrides explicit fs).1.result = .ok ran) :
    (ran = none ∧ c.shouldSkip name overrides explicit = .ok true ∧
        (c.runProject name overrides explicit fs).2 = fs) ∨
      ∃ plan path, ran = some (plan, path) ∧
        c.shouldSkip name overrides explicit = .ok false ∧
        (c.plan fs name overrides).result = .ok plan ∧
        (plan.run fs).1.result = .ok path ∧
        (c.runProject name overrides explicit fs).2 = (plan.run fs).2 := by
  have hran : c.runProjectOn .sound name overrides explicit fs =
      ((c.runProject name overrides explicit fs).1, (c.runProject name overrides explicit fs).2) :=
    rfl
  rcases runProjectOn_inv hran with ⟨hresult, hskip, hafter⟩ | ⟨failure, hresult, -⟩ |
      ⟨plan, ranPlan, hskip, hplan, hrun, hresult⟩
  · cases hresult.symm.trans h
    exact Or.inl ⟨rfl, hskip, hafter⟩
  · cases hresult.symm.trans h
  · have hplanRan : plan.run fs = (ranPlan, (c.runProject name overrides explicit fs).2) := hrun
    rw [h] at hresult
    cases hpath : ranPlan.result with
    | error failure =>
        rw [hpath] at hresult
        cases hresult
    | ok path =>
        rw [hpath] at hresult
        cases hresult
        refine Or.inr ⟨plan, path, rfl, hskip, hplan, ?_, ?_⟩
        · rw [hplanRan, hpath]
        · rw [hplanRan]

/-! ### Running again -/

theorem loadTiers_of_reads {tiers : Option FilePath} {loaded : Option TierConfig}
    (h : loadTiers fs tiers = .ok loaded)
    (hread : ∀ path ∈ tiers, ∀ text, fs.readText path = .ok text →
      later.readText path = .ok text) :
    loadTiers later tiers = .ok loaded := by
  cases tiers with
  | none => exact h
  | some path =>
      cases htext : fs.readText path with
      | error fault =>
          simp only [loadTiers, TierConfig.load, htext] at h
          cases h
      | ok text =>
          simp only [loadTiers, TierConfig.load, htext] at h
          simp only [loadTiers, TierConfig.load, hread path rfl text htext]
          exact h

/-- The plan stays the same while the text of the tiers does. -/
theorem plan_of_reads {changed : List Location} (hgrows : Grows changed fs later)
    (hread : ∀ path ∈ (c.project? name).bind (c.tiersPath? · overrides), ∀ text,
      fs.readText path = .ok text → later.readText path = .ok text)
    (hplan : (c.plan fs name overrides).result = .ok plan) :
    (c.plan later name overrides).result = .ok plan := by
  obtain ⟨project, settings, hproject, hsettings, hlabel, hgenerator, houtput, hschema, htiers,
    hname⟩ := plan_eq_ok_iff.mp hplan
  refine plan_eq_ok_iff.mpr ⟨project, settings, hproject, hsettings, hlabel, hgenerator, ?_, ?_,
    loadTiers_of_reads htiers fun path hpath => hread path ?_, hname⟩
  · rw [hgrows.workingDirectory]
    exact houtput
  · unfold resolveSchemaPath at hschema ⊢
    cases hpath : c.schemaPath? project overrides with
    | none =>
        rw [hpath] at hschema
        cases hschema
    | some path =>
        simp only [hpath] at hschema ⊢
        split at hschema
        · cases hschema
        · next hextension =>
            split at hschema
            · cases hschema
            · next hfile =>
                rw [Bool.not_eq_true, Bool.not_eq_false'] at hfile
                rw [if_neg hextension, hgrows.isFile hfile]
                exact hschema
  · rw [hproject]
    exact hpath

/-- A project with settings for fragments is not left out. -/
theorem shouldSkip_of_project {settings : FragmentSettings} {project : ProjectSettings}
    (hproject : c.project? name = some (project.setFragmentSettings settings)) :
    c.shouldSkip name overrides explicit = .ok false := by
  unfold shouldSkip
  by_cases hasked : (explicit || overrides.generator.isSome) = true
  · rw [if_pos hasked]
    rfl
  · have hfound : c.findProject name = .ok (project.setFragmentSettings settings) :=
      findProject_eq_ok_iff.mpr hproject
    rw [if_neg hasked, hfound]
    show (Option.isNone <$> (project.setFragmentSettings settings).fragmentSettings?) = _
    rw [ProjectSettings.fragmentSettings?_setFragmentSettings]
    rfl

/-- The plan of a project is not left out with its own settings, nor with those it leaves. -/
theorem planned_again
    (hkeys : ∀ project, c.project? name = some project → project.extensions.keys.Nodup)
    (hskip : c.shouldSkip name overrides explicit = .ok false)
    (hplan : (c.plan fs name overrides).result = .ok plan) (hpath : d.path = c.path)
    (hproject : d.project? name = c.project? name ∨
      d.project? name = (c.project? name).map (·.setFragmentSettings plan.fragmentSettings)) :
    d.shouldSkip name overrides explicit = .ok false ∧
      (d.plan fs name overrides).result = .ok plan := by
  rcases hproject with hproject | hproject
  · rw [plan_congr hpath hproject, shouldSkip_congr hpath hproject]
    exact ⟨hskip, hplan⟩
  · obtain ⟨output, houtput, -, hoverrides⟩ := plan_again hplan hkeys hpath hproject
      ⟨rfl, rfl, Or.inl rfl, Or.inl rfl⟩
    rw [hoverrides rfl] at houtput
    obtain ⟨project, _, hfound, -⟩ := plan_eq_ok_iff.mp hplan
    rw [hfound, Option.map_some] at hproject
    exact ⟨shouldSkip_of_project hproject, houtput⟩

/-- The run of a project that has succeeded can be repeated ever after, with its own settings or
those that it left, as long as it reads the same texts. -/
theorem projectRun_again
    (hkeys : ∀ project, c.project? name = some project → project.extensions.keys.Nodup)
    {r : ProjectRun} (hr : r = c.projectRun overrides explicit name fs)
    (hok : r.hasFailed = false) :
    ∃ written, (∀ w ∈ written, ∃ o ∈ r.outputs, r.after.locate o = .ok w.1) ∧
      Leaves written fs r.after ∧
      ∀ (d : Configuration) (changed : List Location) (later : FileSystem), d.path = c.path →
        (d.project? name = c.project? name ∨ d.project? name = (c.project? name).map r.keep) →
        Grows changed r.after later →
        (∀ input ∈ c.inputs overrides r, ∀ text,
          fs.readText input = .ok text → later.readText input = .ok text) →
        (d.projectRun overrides explicit name later).ran.result = r.ran.result ∧
          (d.projectRun overrides explicit name later).after = later.putAll written := by
  have hran : r.ran = (c.runProject name overrides explicit fs).1 := hr ▸ rfl
  have hafter : r.after = (c.runProject name overrides explicit fs).2 := hr ▸ rfl
  have hname : r.name = name := hr ▸ rfl
  have hbefore : r.before = fs := hr ▸ rfl
  cases hresult : r.ran.result with
  | error failure =>
      rw [ProjectRun.hasFailed, hresult] at hok
      cases hok
  | ok ran =>
      rcases runProject_cases (hran ▸ hresult) with
        ⟨rfl, hskip, hsame⟩ | ⟨plan, path, rfl, hskip, hplan, hrun, hwritten⟩
      · have hplan : r.plan? = none := by rw [ProjectRun.plan?, hresult]
        refine ⟨[], fun w hw => ?_, ?_, ?_⟩
        · cases hw
        · rw [hafter, hsame]
          exact (Grows.refl [] fs).leaves
        · intro d changed later hpath hproject hlater hread
          rw [ProjectRun.keep_of_skipped hplan, Option.map_id, id, or_self] at hproject
          have hagain := runProject_of_skipped later hskip
          rw [← runProject_congr hpath hproject] at hagain
          exact hagain
      · have hkept : r.plan? = some plan := by rw [ProjectRun.plan?, hresult]
        obtain ⟨set, hset, hwrite⟩ := Plan.exists_write_of_run hrun
        obtain ⟨written, hlocated, hleaves, hagain⟩ := Output.write_again hwrite
        have houtputs : r.outputs = (set.output plan.generator).paths plan.output := by
          simp only [ProjectRun.outputs, hkept, hbefore, hset]
        have hinputs : c.inputs overrides r =
            plan.schemaPath :: ((c.project? name).bind (c.tiersPath? · overrides)).toList := by
          simp only [inputs, hkept, hname]
        rw [houtputs, hafter, hwritten, hinputs]
        refine ⟨written, hlocated, hleaves, ?_⟩
        intro d changed later hpath hproject hlater hread
        have hstill : (c.plan later name overrides).result = .ok plan :=
          plan_of_reads (hleaves.grows.trans hlater) (fun path hpath => hread path
            (List.mem_cons_of_mem _ (Option.mem_toList.mpr hpath))) hplan
        rw [ProjectRun.keep_of_plan hkept] at hproject
        obtain ⟨hskip', hplan'⟩ := planned_again hkeys hskip hstill hpath hproject
        have hgenerated : (plan.generate later).result = .ok set := by
          obtain ⟨text, htext, -⟩ := Plan.generate_eq_ok_iff.mp hset
          rw [Plan.generate_congr (hread _ List.mem_cons_self text htext ▸ htext.symm), hset]
        obtain ⟨hran', hlast⟩ := Plan.run_of_write hgenerated (hagain changed later hlater)
        obtain ⟨hresult', hafter'⟩ := runProject_of_plan hskip' hplan' hran'
        exact ⟨hresult', hafter'.trans hlast⟩

/-! ### Several projects -/

theorem keepAll_of_fixed {runs : List ProjectRun}
    (h : ∀ r ∈ runs, ∀ project, c.project? r.name = some project → r.keep project = project) :
    c.keepAll runs = c := by
  induction runs with
  | nil => rfl
  | cons r rest ih =>
      obtain ⟨hfirst, hrest⟩ := List.forall_mem_cons.mp h
      rw [keepAll, List.foldl_cons, modifyProject_of_fixed hfirst]
      exact ih hrest

/-- What new settings for fragments preserve holds of what is kept of any runs. -/
theorem keepAll_induction {P : Configuration → Prop}
    (hset : ∀ c name settings, P c → P (c.modifyProject name (·.setFragmentSettings settings)))
    (h : P c) (runs : List ProjectRun) : P (c.keepAll runs) := by
  induction runs generalizing c with
  | nil => exact h
  | cons r rest ih =>
      rw [keepAll, List.foldl_cons]
      apply ih
      cases hplan : r.plan? with
      | none =>
          have hfixed : c.modifyProject r.name id = c := modifyProject_of_fixed fun _ _ => rfl
          rw [ProjectRun.keep_of_skipped hplan, hfixed]
          exact h
      | some plan =>
          rw [ProjectRun.keep_of_plan hplan]
          exact hset c r.name plan.fragmentSettings h

/-- The files that are left after some runs. -/
def lastFiles (fs : FileSystem) (runs : List ProjectRun) : FileSystem :=
  runs.foldl (fun _ run => run.after) fs

/-- The text at a path is there, and it is nowhere where something is to be written. -/
def ReadsApart (fs : FileSystem) (written : List (Location × String)) (path : FilePath)
    (text : String) : Prop :=
  ∃ location, fs.locate path = .ok location ∧ location ∉ written.map Prod.fst ∧
    fs.get? location = some (.file (.text text))

variable {written later' : List (Location × String)} {changed : List Location} {text : String}

theorem ReadsApart.readText (h : ReadsApart fs written path text) :
    fs.readText path = .ok text := by
  obtain ⟨location, hlocate, -, hentry⟩ := h
  exact FileSystem.readText_eq_ok_iff.mpr ⟨location, hlocate, hentry⟩

/-- Part of what is to be written may have been written. -/
theorem ReadsApart.putAll (h : ReadsApart fs (written ++ later') path text)
    (hgrows : Grows changed fs (fs.putAll written)) :
    ReadsApart (fs.putAll written) later' path text := by
  obtain ⟨location, hlocate, hapart, hentry⟩ := h
  rw [List.map_append, List.mem_append, not_or] at hapart
  refine ⟨location, hgrows.locate hlocate, hapart.2, ?_⟩
  rw [FileSystem.get?_putAll_of_notMem hapart.1, hentry]

/-- Runs of projects that have all succeeded can be repeated ever after. -/
theorem projectRuns_again {names : List String} {runs : List ProjectRun}
    (hkeys : ∀ name project, c.project? name = some project → project.extensions.keys.Nodup)
    (hruns : runs = c.projectRuns overrides explicit names fs)
    (hok : ∀ r ∈ runs, r.hasFailed = false) :
    ∃ written,
      (∀ w ∈ written, ∃ r ∈ runs, ∃ o ∈ r.outputs, (lastFiles fs runs).locate o = .ok w.1) ∧
      Leaves written fs (lastFiles fs runs) ∧
      (∀ r ∈ runs, Grows (written.map Prod.fst) r.before (lastFiles fs runs)) ∧
      ∀ (d : Configuration) (changed : List Location) (later : FileSystem), d.path = c.path →
        (∀ r ∈ runs, d.project? r.name = c.project? r.name ∨
          d.project? r.name = (c.project? r.name).map r.keep) →
        Grows changed (lastFiles fs runs) later →
        (∀ r ∈ runs, ∀ input ∈ c.inputs overrides r, ∀ text,
          r.before.readText input = .ok text → ReadsApart later written input text) →
        (d.projectRuns overrides explicit names later).map (fun r => (r.name, r.ran.result)) =
            runs.map (fun r => (r.name, r.ran.result)) ∧
          lastFiles later (d.projectRuns overrides explicit names later) =
            later.putAll written := by
  induction names generalizing fs runs with
  | nil =>
      subst hruns
      refine ⟨[], fun w hw => ?_, (Grows.refl [] fs).leaves, fun r hr => ?_, ?_⟩
      · cases hw
      · cases hr
      · exact fun _ _ _ _ _ _ _ => ⟨rfl, rfl⟩
  | cons name rest ih =>
      let r := c.projectRun overrides explicit name fs
      let more := c.projectRuns overrides explicit rest r.after
      have hcons : runs = r :: more := hruns
      subst hcons
      obtain ⟨hfirst, hmore⟩ := List.forall_mem_cons.mp hok
      obtain ⟨first, hlocated, hleaves, hagain⟩ := projectRun_again (hkeys name) rfl hfirst
      obtain ⟨others, hlocated', hleaves', hbefore, hagain'⟩ := ih rfl hmore
      have hlast : lastFiles fs (r :: more) = lastFiles r.after more := rfl
      rw [hlast]
      refine ⟨first ++ others, ?_, hleaves.trans hleaves', ?_, ?_⟩
      · intro w hw
        rcases List.mem_append.mp hw with hw | hw
        · obtain ⟨o, ho, hlocate⟩ := hlocated w hw
          exact ⟨r, List.mem_cons_self, o, ho, hleaves'.grows.locate hlocate⟩
        · obtain ⟨run, hrun, o, ho, hlocate⟩ := hlocated' w hw
          exact ⟨run, List.mem_cons_of_mem _ hrun, o, ho, hlocate⟩
      · refine List.forall_mem_cons.mpr ⟨(hleaves.trans hleaves').grows, fun run hrun => ?_⟩
        refine (hbefore run hrun).mono ?_
        rw [List.map_append]
        exact List.subset_append_right _ _
      · intro d changed later hpath hprojects hlater hreads
        obtain ⟨hproject, hprojects⟩ := List.forall_mem_cons.mp hprojects
        obtain ⟨hread, hreads⟩ := List.forall_mem_cons.mp hreads
        have hgrows := hleaves'.grows.trans hlater
        have hputs := hleaves.grows_putAll hgrows
        obtain ⟨hresult, hafter⟩ := hagain d _ later hpath hproject hgrows
          fun input hinput text htext => (hread input hinput text htext).readText
        obtain ⟨hresults, hends⟩ := hagain' d _ _ hpath hprojects (hlater.trans hputs)
          fun run hrun input hinput text htext =>
            (hreads run hrun input hinput text htext).putAll hputs
        rw [← hafter] at hresults hends
        constructor
        · rw [projectRuns, List.map_cons, List.map_cons, hresults, hresult]
          rfl
        · rw [FileSystem.putAll_append, ← hafter]
          exact hends

end Configuration

end GraphqlFragments
