import GraphqlFragments.Proofs.Directories
import GraphqlFragments.Proofs.Effects
/-!
# Output in a directory

The files of a project that is run into an output directory are named after the project and its
fragments. A name with a slash in it leads to another directory, so the files are children of
the output directory if neither the project nor a tier has such a name.
-/

namespace GraphqlFragments

open FilePath (IsChild IsFileName folderOf)
open FileSystem (Grows)

variable {fs mid after : FileSystem}

/-! ## Files that are written -/

namespace FileSystem

variable {p : FilePath} {paths more around : List FilePath}

/-- There are files at some paths, and no other file is new or has changed. -/
structure WrittenTo (paths : List FilePath) (fs after : FileSystem) : Prop where
  grows : ∃ changed, Grows changed fs after
  isFile : ∀ p ∈ paths, after.isFile p = true
  other : ∀ location, after.get? location = fs.get? location ∨
    after.get? location = some .directory ∨ ∃ p ∈ paths, after.locate p = .ok location

theorem WrittenTo.refl (fs : FileSystem) : WrittenTo [] fs fs where
  grows := ⟨[], .refl [] fs⟩
  isFile := nofun
  other := fun _ => Or.inl rfl

theorem WrittenTo.trans (h : WrittenTo paths fs mid) (hmore : WrittenTo more mid after) :
    WrittenTo (paths ++ more) fs after := by
  obtain ⟨changed, hgrows⟩ := h.grows
  obtain ⟨changedLater, hlater⟩ := hmore.grows
  refine ⟨⟨_, hgrows.trans hlater⟩, fun p hp => ?_, fun location => ?_⟩
  · rcases List.mem_append.mp hp with hp | hp
    · exact hlater.isFile (h.isFile p hp)
    · exact hmore.isFile p hp
  · rcases hmore.other location with hsame | hdirectory | ⟨p, hp, hlocate⟩
    · rw [hsame]
      rcases h.other location with hfirst | hdirectory | ⟨p, hp, hlocate⟩
      · exact Or.inl hfirst
      · exact Or.inr (Or.inl hdirectory)
      · exact Or.inr (Or.inr ⟨p, List.mem_append_left more hp, hlater.locate hlocate⟩)
    · exact Or.inr (Or.inl hdirectory)
    · exact Or.inr (Or.inr ⟨p, List.mem_append_right paths hp, hlocate⟩)

theorem Makes.writtenTo (h : Makes around fs after) : WrittenTo [] fs after where
  grows := ⟨[], h.grows⟩
  isFile := nofun
  other := by
    intro location
    by_cases hnone : fs.get? location = none
    · rcases h.new location hnone with hstill | ⟨hdirectory, -⟩
      · exact Or.inl (hstill.trans hnone.symm)
      · exact Or.inr (Or.inl hdirectory)
    · exact Or.inl (h.grows.get?_eq List.not_mem_nil hnone)

theorem writtenTo_of_write {text : String} (h : fs.write p (.text text) = .ok after) :
    WrittenTo [p] fs after := by
  obtain ⟨-, location, hlocate, hfree, rfl⟩ := write_eq_ok_iff.mp h
  have hgrows := grows_put_file hfree (.text text)
  have hlocated := hgrows.locate hlocate
  refine ⟨⟨_, hgrows⟩, fun q hq => ?_, fun other => ?_⟩
  · rw [List.mem_singleton.mp hq]
    exact isFile_iff.mpr ⟨location, _, hlocated, get?_put_self fs _ _ (ne_nil_of_get?_ne hfree)⟩
  · by_cases hother : other = location
    · exact Or.inr (Or.inr ⟨p, List.mem_singleton_self p, hother ▸ hlocated⟩)
    · exact Or.inl (get?_put_of_ne fs _ hother)

end FileSystem

namespace Output

open FileSystem (WrittenTo)

variable {output : Output} {dir path result : FilePath} {parts : List OutputFile}

theorem writtenTo_of_writeFiles (h : writeFiles dir parts fs = (.ok (), after)) :
    WrittenTo (parts.map fun part => dir.join ⟨part.name⟩) fs after := by
  induction parts generalizing fs with
  | nil =>
      rw [writeFiles] at h
      cases h
      exact .refl _
  | cons part rest ih =>
      obtain ⟨mid, hwrite, h⟩ := writeFiles_cons_eq_ok_iff.mp h
      exact (FileSystem.writtenTo_of_write hwrite).trans (ih h)

/-- Output that has been written is at its paths and nowhere else. -/
theorem writtenTo_of_write (h : output.write path fs = (.ok result, after)) :
    WrittenTo (output.paths path) fs after := by
  obtain ⟨mid, hensure, hwrite⟩ := write_eq_ok_iff.mp h
  have hmade : WrittenTo [] fs (fs.ensureDirectories path.dir).2 :=
    (FileSystem.makes_of_ensureDirectories .sound fs path.dir).writtenTo
  rw [hensure] at hmade
  rcases hwrite with ⟨text, rfl, hwrite, -⟩ | ⟨parts, rfl, hwrite, -⟩
  · exact hmade.trans (FileSystem.writtenTo_of_write hwrite)
  · exact hmade.trans (writtenTo_of_writeFiles hwrite)

end Output

/-! ## The places of the files -/

namespace Plan

variable {p : Plan} {set : FragmentSet} {wd dir : FilePath}

/-- All files of the output are children of a directory. -/
def StaysIn (p : Plan) (set : FragmentSet) (wd dir : FilePath) : Prop :=
  ∀ q ∈ (set.output p.generator).paths p.output, IsChild wd dir q

/-- The folders to which the names of the files lead from an output directory. -/
def folders (p : Plan) (set : FragmentSet) : List FilePath :=
  match p.generator with
  | .sourceModule | .singleDocument => [folderOf p.project]
  | .multiFile => set.deep.map fun f => (folderOf p.project).join (folderOf f.name)

/-- The output for a directory is a name that is joined to the folder of the project. -/
theorem exists_output_eq_join (dir : FilePath) (project : String) (generator : Generator) :
    ∃ leaf, IsFileName leaf ∧ Configuration.outputIn dir project generator =
      (dir.join (folderOf project)).join ⟨leaf⟩ := by
  have hending : '/' ∉ (".fragments." ++ generator.extension).toList ∧
      2 < (".fragments." ++ generator.extension).toList.length := by
    cases generator <;> decide
  obtain ⟨leaf, hleaf, hjoin⟩ := FilePath.exists_join_folderOf project hending.1
  refine ⟨_, FilePath.isFileName_append hleaf hending.1 hending.2, ?_⟩
  calc Configuration.outputIn dir project generator
      = dir.join (.mk (project ++ (".fragments." ++ generator.extension))) := by
        rw [Configuration.outputIn, String.append_assoc]
    _ = dir.join ((folderOf project).join (.mk (leaf ++ (".fragments." ++ generator.extension)))) := by
        rw [hjoin]
    _ = (dir.join (folderOf project)).join (.mk (leaf ++ (".fragments." ++ generator.extension))) :=
        FilePath.join_assoc _ _ _

theorem isChild_file_iff (hwd : wd.isAbsolute = true) {base : FilePath} {leaf : String}
    (hleaf : IsFileName leaf) (f : Fragment) :
    IsChild wd dir ((base.join ⟨leaf⟩).dir.join ⟨f.file.name⟩) ↔
      (wd.join (base.join (folderOf f.name))).components = (wd.join dir).components := by
  have hending : '/' ∉ ("." ++ Generator.multiFile.extension).toList ∧
      2 < ("." ++ Generator.multiFile.extension).toList.length := by decide
  obtain ⟨rest, hrest, hjoin⟩ := FilePath.exists_join_folderOf f.name hending.1
  have hname := FilePath.isFileName_append hrest hending.1 hending.2
  have hfile : (⟨f.file.name⟩ : FilePath) =
      (folderOf f.name).join (.mk (rest ++ ("." ++ Generator.multiFile.extension))) := by
    rw [← hjoin, Fragment.file, String.append_assoc]
  have halike := (FilePath.alike_dir_join base hleaf).join (folderOf f.name)
  rw [hfile, FilePath.join_assoc, FilePath.isChild_join_iff hwd hname, halike.components_join hwd]

/-- The files are children of the output directory exactly if all folders lead back to it. -/
theorem staysIn_iff (hwd : wd.isAbsolute = true)
    (houtput : p.output = Configuration.outputIn dir p.project p.generator) :
    p.StaysIn set wd dir ↔ ∀ folder ∈ p.folders set,
      (wd.join (dir.join folder)).components = (wd.join dir).components := by
  obtain ⟨leaf, hleaf, hjoin⟩ := exists_output_eq_join dir p.project p.generator
  have hbundle : (∀ q ∈ [p.output], IsChild wd dir q) ↔ ∀ folder ∈ [folderOf p.project],
      (wd.join (dir.join folder)).components = (wd.join dir).components := by
    rw [List.forall_mem_singleton, List.forall_mem_singleton, houtput, hjoin]
    exact FilePath.isChild_join_iff hwd hleaf
  unfold StaysIn folders
  cases p.generator with
  | sourceModule => exact hbundle
  | singleDocument => exact hbundle
  | multiFile =>
      unfold FragmentSet.output Output.paths
      dsimp only
      rw [List.map_map, List.forall_mem_map, List.forall_mem_map, houtput, hjoin]
      apply forall₂_congr
      intro f _
      rw [FilePath.join_assoc dir]
      exact isChild_file_iff hwd hleaf f

/-- With a plain name of the project it is the names of the fragments that count. -/
theorem staysIn_iff_of_notMem (hwd : wd.isAbsolute = true)
    (houtput : p.output = Configuration.outputIn dir p.project p.generator)
    (hproject : '/' ∉ p.project.toList) {text : String}
    (hset : (GraphqlFragments.generate text p.tiers).result = .ok set) :
    p.StaysIn set wd dir ↔
      (p.generator = .multiFile → ∀ f ∈ set.deep, '/' ∉ f.name.toList) := by
  have hbundle : ∀ folder ∈ [folderOf p.project],
      (wd.join (dir.join folder)).components = (wd.join dir).components := by
    rw [List.forall_mem_singleton, FilePath.folderOf_of_notMem hproject]
    exact FilePath.components_join_empty hwd dir
  rw [staysIn_iff hwd houtput]
  unfold folders
  cases p.generator with
  | sourceModule => exact iff_of_true hbundle nofun
  | singleDocument => exact iff_of_true hbundle nofun
  | multiFile =>
      dsimp only
      rw [forall_prop_of_true rfl, FilePath.folderOf_of_notMem hproject, List.forall_mem_map]
      apply forall₂_congr
      intro f hf
      obtain ⟨type, label, ⟨c, rest, htype, hstart, -⟩, hname, -⟩ := name_of_mem_deep hset hf
      have hhead : f.name.toList.head? = some c := by
        rw [hname, String.toList_append, htype]
        rfl
      have hordinary (d : Char) (hd : Sdl.isNameStart d = false) : c ≠ d := by
        rintro rfl
        rw [hstart] at hd
        cases hd
      rw [FilePath.empty_join]
      exact FilePath.components_join_folderOf_iff hwd hhead (hordinary '/' (by decide))
        (hordinary '.' (by decide))

end Plan

namespace Configuration

open FileSystem (WrittenTo)

variable {c : Configuration} {name : String} {overrides : Overrides} {explicit : Bool}
  {ran : Logged (Option (Plan × FilePath))} {plan : Plan} {path dir : FilePath}

theorem output_eq_of_plan (hdir : overrides.outputDirectory = some dir)
    (h : (c.plan fs name overrides).result = .ok plan) :
    plan.project = name ∧ plan.output = outputIn dir plan.project plan.generator := by
  obtain ⟨project, settings, -, -, -, -, houtput, -, -, rfl⟩ := plan_eq_ok_iff.mp h
  rw [resolveOutput, hdir] at houtput
  exact ⟨rfl, (Prod.mk.inj (Except.ok.inj houtput)).1.symm⟩

/-- A project that is run into a directory writes files at the paths of its output. They are
children of the directory exactly if every folder that their names begin with leads back to it.
If the name of the project has no slash, they are unless the name of a fragment has one, and a
fragment has one only from the label of a tier. -/
theorem children_of_runProject (hwd : fs.workingDirectory.isAbsolute = true)
    (hdir : overrides.outputDirectory = some dir)
    (h : c.runProject name overrides explicit fs = (ran, after))
    (hran : ran.result = .ok (some (plan, path))) :
    ∃ text set, fs.readText plan.schemaPath = .ok text ∧
      (generate text plan.tiers).result = .ok set ∧
      WrittenTo ((set.output plan.generator).paths plan.output) fs after ∧
      (plan.StaysIn set fs.workingDirectory dir ↔ ∀ folder ∈ plan.folders set,
        (fs.workingDirectory.join (dir.join folder)).components =
          (fs.workingDirectory.join dir).components) ∧
      ('/' ∉ name.toList →
        (plan.StaysIn set fs.workingDirectory dir ↔
          (plan.generator = .multiFile → ∀ f ∈ set.deep, '/' ∉ f.name.toList)) ∧
        ((plan.tiers.getD .empty).HasPlainLabels →
          plan.StaysIn set fs.workingDirectory dir)) := by
  have hresult : (c.runProject name overrides explicit fs).1.result =
      .ok (some (plan, path)) := by rw [h, hran]
  rcases runProject_cases hresult with ⟨hnone, -⟩ | ⟨plan', path', hsome, -, hplan, hrun, hafter⟩
  · cases hnone
  obtain ⟨rfl, rfl⟩ := Prod.mk.inj (Option.some.inj hsome)
  rw [h] at hafter
  obtain ⟨set, hset, hwrite⟩ := Plan.exists_write_of_run hrun
  rw [← hafter] at hwrite
  obtain ⟨text, htext, hgenerated⟩ := Plan.generate_eq_ok_iff.mp hset
  obtain ⟨hproject, houtput⟩ := output_eq_of_plan hdir hplan
  refine ⟨text, set, htext, hgenerated, Output.writtenTo_of_write hwrite,
    Plan.staysIn_iff hwd houtput, fun hname => ?_⟩
  rw [← hproject] at hname
  have hplain := Plan.staysIn_iff_of_notMem hwd houtput hname hgenerated
  refine ⟨hplain, fun hlabels => hplain.mpr fun _ f hf => ?_⟩
  exact slash_notMem_of_mem_deep hlabels hgenerated hf

theorem children_of_runProject_feed : feedDisk.workingDirectory.isAbsolute = true ∧
    feedOverrides.outputDirectory = some ⟨"out/gen"⟩ ∧
    ∃ ran after, feed.runProject "default" feedOverrides true feedDisk = (ran, after) ∧
      ran.result = .ok (some (feedPlan, ⟨"out/gen"⟩)) ∧
      WrittenTo [⟨"out/gen/PostFull.gql"⟩, ⟨"out/gen/UserPublicListing.gql"⟩] feedDisk after ∧
      IsChild ⟨"/w"⟩ ⟨"out/gen"⟩ ⟨"out/gen/PostFull.gql"⟩ ∧
      IsChild ⟨"/w"⟩ ⟨"out/gen"⟩ ⟨"out/gen/UserPublicListing.gql"⟩ := by
  have hwd : feedDisk.workingDirectory.isAbsolute = true := by decide
  have hdir : feedOverrides.outputDirectory = some ⟨"out/gen"⟩ := rfl
  have hpaths : (blogFragments.output feedPlan.generator).paths feedPlan.output =
      [⟨"out/gen/PostFull.gql"⟩, ⟨"out/gen/UserPublicListing.gql"⟩] := by decide +kernel
  have hresult := result_feed
  cases hrun : feed.runProject "default" feedOverrides true feedDisk with
  | mk ran after =>
      rw [hrun] at hresult
      obtain ⟨text, set, htext, hset, hwritten, -, hplain⟩ :=
        children_of_runProject hwd hdir hrun hresult
      obtain rfl : blog = text := Except.ok.inj (readText_feed.symm.trans htext)
      obtain rfl : blogFragments = set := Except.ok.inj (generate_blog.symm.trans hset)
      have hstays := (hplain (by decide)).2 (by decide)
      unfold Plan.StaysIn at hstays
      rw [hpaths, List.forall_mem_cons, List.forall_mem_singleton] at hstays
      rw [hpaths] at hwritten
      exact ⟨hwd, hdir, ran, after, rfl, hresult, hwritten, hstays⟩

/-! ### A project with a path for its name -/

def lane : Configuration where
  path := ⟨"/w/.graphqlconfig"⟩
  root := .empty
  projects := [("../app", .empty)]

def laneOverrides : Overrides := ⟨some ⟨"blog.graphql"⟩, some "js", some ⟨"out/gen"⟩, none⟩

def lanePlan : Plan where
  project := "../app"
  schemaPath := ⟨"blog.graphql"⟩
  generatorLabel := "js"
  generator := .sourceModule
  output := ⟨"out/gen/../app.fragments.js"⟩
  outputSetting := "out/gen/../app.fragments.js"
  tiers := none

theorem plan_lane : (lane.plan feedDisk "../app" laneOverrides).result = .ok lanePlan := by
  refine plan_eq_ok_iff.mpr ⟨_, none, rfl, rfl, rfl, rfl, ?_, ?_, ?_, rfl⟩
  · exact eq_ok_of_toOption (by decide +kernel)
  · exact eq_ok_of_toOption (by decide +kernel)
  · exact eq_ok_of_toOption (by decide +kernel)

/-- The file is written next to the output directory. -/
theorem not_isChild_lane : laneOverrides.outputDirectory = some ⟨"out/gen"⟩ ∧
    (lane.runProject "../app" laneOverrides true feedDisk).1.result =
      .ok (some (lanePlan, ⟨"out/gen/../app.fragments.js"⟩)) ∧
    feedDisk.isFile ⟨"/w/out/app.fragments.js"⟩ = false ∧
    (lane.runProject "../app" laneOverrides true feedDisk).2.isFile
      ⟨"/w/out/app.fragments.js"⟩ = true ∧
    (lane.runProject "../app" laneOverrides true feedDisk).2.isFile
      ⟨"out/gen/../app.fragments.js"⟩ = true ∧
    ¬IsChild feedDisk.workingDirectory ⟨"out/gen"⟩ ⟨"out/gen/../app.fragments.js"⟩ := by
  have hskip : lane.shouldSkip "../app" laneOverrides true = .ok false := rfl
  have hran : (lanePlan.run feedDisk).1.result = .ok ⟨"out/gen/../app.fragments.js"⟩ :=
    eq_ok_of_toOption (by decide +kernel)
  obtain ⟨hresult, hafter⟩ := runProject_of_plan hskip plan_lane hran
  rw [hafter]
  refine ⟨rfl, hresult, by decide +kernel, by decide +kernel, by decide +kernel, ?_⟩
  rintro ⟨name, -, -, -, hchild⟩
  have hlength := congrArg List.length hchild
  rw [List.length_append, List.length_singleton] at hlength
  exact absurd hlength (by decide +kernel)

end Configuration

end GraphqlFragments
