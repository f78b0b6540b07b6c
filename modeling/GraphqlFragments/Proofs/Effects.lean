import GraphqlFragments.Proofs.Changes
import GraphqlFragments.Proofs.Emission
import GraphqlFragments.Proofs.Repetition
/-!
# What the run of a project changes

A project that is left out, or fails for any reason but one of the file system, leaves
everything as it was. Otherwise it makes directories on the way to its output and writes the
output, all of it if it succeeds and the files up to some point if it fails. What a file that
is written holds in the end is up to the medium.
-/

namespace GraphqlFragments

open FileSystem (Changes Writes)

variable {fs after : FileSystem}

/-! ## Output -/

namespace Output

variable {m : Medium} {output : Output} {dir path result : FilePath} {parts : List OutputFile}

/-- The files that output consists of if it is no bundle. -/
def fileList : Output → List OutputFile
  | .bundle _ => []
  | .files parts => parts

/-- The location of a file in a directory, with what it holds. -/
def place (here : Location) (part : OutputFile) : Location × String :=
  (here ++ [part.name], part.contents)

/-- The locations of output for a path: that of the path for a bundle, and one for each file in
the directory of the path. -/
def Placed (after : FileSystem) (path : FilePath) : Output → List (Location × String) → Prop
  | .bundle text, written =>
      ∃ location, after.locate path = .ok location ∧ written = [(location, text)]
  | .files parts, written =>
      ∃ here, (parts ≠ [] → after.locate (path.dir.join ⟨"."⟩) = .ok here) ∧
        written = parts.map (place here)

/-- Files have names of their own, which say nothing about directories. -/
def IsFlat (output : Output) : Prop :=
  (output.fileList.map OutputFile.name).Nodup ∧
    ∀ part ∈ output.fileList, FilePath.IsFileName part.name

theorem Placed.nodup {written : List (Location × String)} (hflat : output.IsFlat)
    (h : output.Placed after path written) : (written.map Prod.fst).Nodup := by
  cases output with
  | bundle text =>
      obtain ⟨location, -, rfl⟩ := h
      exact List.nodup_singleton location
  | files parts =>
      obtain ⟨here, -, rfl⟩ := h
      have hlocations : (parts.map (place here)).map Prod.fst =
          (parts.map OutputFile.name).map fun name => here ++ [name] := by
        rw [List.map_map, List.map_map]
        rfl
      rw [hlocations]
      refine hflat.1.map fun a b hab => ?_
      simpa using hab

/-- The beginnings of output: nothing, all of a bundle, or the first of some files. -/
def Begins : Output → Output → Prop
  | .bundle text, output => output = .bundle text
  | .files begun, .bundle _ => begun = []
  | .files begun, .files parts => begun <+: parts

theorem begins_nil (output : Output) : (files []).Begins output := by
  cases output with
  | bundle text => exact rfl
  | files parts => exact List.nil_prefix

theorem Begins.isFlat {begun : Output} (h : begun.Begins output) (hflat : output.IsFlat) :
    begun.IsFlat := by
  cases begun with
  | bundle text => exact ⟨List.nodup_nil, nofun⟩
  | files first =>
      have hfirst : first <+: output.fileList := by
        cases output with
        | bundle text =>
            have hnone : first = [] := h
            rw [hnone]
            exact List.nil_prefix
        | files parts => exact h
      exact ⟨hflat.1.sublist (hfirst.sublist.map _),
        fun part hpart => hflat.2 part (hfirst.subset hpart)⟩

theorem placed_nil (after : FileSystem) (path : FilePath) : (files []).Placed after path [] :=
  ⟨[], fun hne => absurd rfl hne, rfl⟩

/-- Where nothing is placed it does not matter in which directory. -/
theorem map_place_eq {done : List OutputFile} {cut : Option OutputFile} {here there : Location}
    (h : done ++ cut.toList ≠ [] → there = here) :
    done.map (place there) = done.map (place here) ∧
      cut.map (place there) = cut.map (place here) := by
  rcases eq_or_ne (done ++ cut.toList) [] with hnone | hsome
  · rw [List.append_eq_nil_iff, Option.toList_eq_nil_iff] at hnone
    obtain ⟨rfl, rfl⟩ := hnone
    exact ⟨rfl, rfl⟩
  · rw [h hsome]
    exact ⟨rfl, rfl⟩

/-- Files are written one after the other into one directory, up to the first that fails, which
may have been begun. -/
theorem writes_of_writeFilesOn (hnodup : (parts.map OutputFile.name).Nodup)
    (hnames : ∀ part ∈ parts, FilePath.IsFileName part.name) {ended : Except IoFault Unit}
    (h : writeFilesOn m dir parts fs = (ended, after)) :
    ∃ (done : List OutputFile) (cut : Option OutputFile) (here : Location),
      done ++ cut.toList <+: parts ∧ (ended = .ok () → cut = none ∧ done = parts) ∧
      (done ++ cut.toList ≠ [] → after.locate (dir.join ⟨"."⟩) = .ok here) ∧
      Writes m (done.map (place here)) (cut.map (place here)) fs after := by
  induction parts generalizing fs with
  | nil =>
      cases h
      exact ⟨[], none, [], List.nil_prefix, fun _ => ⟨rfl, rfl⟩, fun hne => absurd rfl hne,
        .refl m _⟩
  | cons part rest ih =>
      rw [List.map_cons, List.nodup_cons] at hnodup
      rw [List.forall_mem_cons] at hnames
      rw [writeFilesOn] at h
      cases hwrite : m.write fs (dir.join ⟨part.name⟩) part.contents with
      | mk first mid =>
          rw [hwrite] at h
          rcases FileSystem.writes_of_write hwrite with ⟨⟨fault, rfl⟩, rfl⟩ |
            ⟨location, hlocate, hfirst⟩
          · cases h
            refine ⟨[], none, [], List.nil_prefix, fun hended => ?_, fun hne => absurd rfl hne,
              .refl m _⟩
            cases hended
          obtain ⟨here, hhere, rfl⟩ := FileSystem.locate_join hnames.1 hlocate
          rcases hfirst with ⟨rfl, hfirst⟩ | ⟨⟨fault, rfl⟩, hfirst⟩
          · obtain ⟨done, cut, there, hbegins, hended, hthere, hmore⟩ := ih hnodup.2 hnames.2 h
            have hfound := hmore.grows.locate hhere
            obtain ⟨hdone, hcut⟩ := map_place_eq fun hne =>
              Except.ok.inj ((hthere hne).symm.trans hfound)
            rw [hdone, hcut] at hmore
            refine ⟨part :: done, cut, here, List.cons_prefix_cons.mpr ⟨rfl, hbegins⟩,
              fun hok => ?_, fun _ => hfound, ?_⟩
            · obtain ⟨hnone, rfl⟩ := hended hok
              exact ⟨hnone, rfl⟩
            refine hfirst.trans hmore fun w hw hmem => hnodup.1 ?_
            rw [Option.toList_map, ← List.map_append] at hw
            obtain ⟨other, hother, rfl⟩ := List.mem_map.mp hw
            have hname : here ++ [other.name] = here ++ [part.name] := List.mem_singleton.mp hmem
            have hsame : other.name = part.name := by simpa using hname
            rw [← hsame]
            exact List.mem_map_of_mem (hbegins.subset hother)
          · cases h
            refine ⟨[], some part, here, List.cons_prefix_cons.mpr ⟨rfl, List.nil_prefix⟩,
              fun hended => ?_, fun _ => hhere, hfirst⟩
            cases hended

/-- Whether or not all output is written, what is written is at its place, and nothing else
changes but directories on the way. -/
theorem changes_of_writeOn (hflat : output.IsFlat) {written : Except IoFault FilePath}
    (h : output.writeOn m path fs = (written, after)) :
    (∀ result, written = .ok result → ∃ placed, output.Placed after path placed ∧
      Changes m (path.dir :: path.dir.ancestors) placed none fs after) ∧
    ∀ fault, written = .error fault → ∃ (begun : Output) (placed : List (Location × String))
        (cut : Option (Location × String)), begun.Begins output ∧
      begun.Placed after path (placed ++ cut.toList) ∧
      (∀ text, output = .bundle text → placed = []) ∧
      Changes m (path.dir :: path.dir.ancestors) placed cut fs after := by
  have hmade := FileSystem.makes_of_ensureDirectories m fs path.dir
  rcases write_cases h with ⟨fault, hensure, rfl⟩ | ⟨mid, ended, hensure, hwrite⟩
  · rw [hensure] at hmade
    exact ⟨nofun, fun _ _ => ⟨files [], [], none, begins_nil output, placed_nil after path,
      fun _ _ => rfl, after, hmade, .refl m after⟩⟩
  rw [hensure] at hmade
  rcases hwrite with ⟨text, rfl, hwrite, rfl⟩ | ⟨parts, rfl, hwrite, rfl⟩
  · rcases FileSystem.writes_of_write hwrite with ⟨⟨fault, rfl⟩, rfl⟩ |
      ⟨location, hlocate, ⟨rfl, hwrites⟩ | ⟨⟨fault, rfl⟩, hwrites⟩⟩
    · exact ⟨nofun, fun _ _ => ⟨files [], [], none, begins_nil _, placed_nil after path,
        fun _ _ => rfl, after, hmade, .refl m after⟩⟩
    · exact ⟨fun _ _ => ⟨_, ⟨location, hlocate, rfl⟩, mid, hmade, hwrites⟩, nofun⟩
    · exact ⟨nofun, fun _ _ => ⟨.bundle text, [], _, rfl, ⟨location, hlocate, rfl⟩,
        fun _ _ => rfl, mid, hmade, hwrites⟩⟩
  · obtain ⟨done, cut, here, hbegins, hended, hhere, hwrites⟩ :=
      writes_of_writeFilesOn hflat.1 hflat.2 hwrite
    refine ⟨fun result hresult => ?_, fun fault hfault => ?_⟩
    · cases ended with
      | error fault => cases hresult
      | ok =>
          obtain ⟨rfl, rfl⟩ := hended rfl
          rw [Option.toList_none, List.append_nil] at hhere
          exact ⟨_, ⟨here, hhere, rfl⟩, mid, hmade, hwrites⟩
    · refine ⟨files (done ++ cut.toList), _, _, hbegins, ⟨here, hhere, ?_⟩, nofun, mid, hmade,
        hwrites⟩
      rw [List.map_append, Option.toList_map]

end Output

/-! ## Fragments -/

/-- No label could name a file in another directory. -/
def TierConfig.HasPlainLabels (config : TierConfig) : Prop :=
  ∀ entry ∈ config, ∀ label ∈ Table.keys entry.2, '/' ∉ label.toList

instance (config : TierConfig) : Decidable config.HasPlainLabels :=
  inferInstanceAs (Decidable (∀ entry ∈ config, ∀ label ∈ Table.keys entry.2, '/' ∉ label.toList))

theorem slash_notMem_of_mem_deep {schema : String} {tiers : Option TierConfig}
    {set : FragmentSet} (hlabels : (tiers.getD .empty).HasPlainLabels)
    (h : (generate schema tiers).result = .ok set) {f : Fragment} (hf : f ∈ set.deep) :
    '/' ∉ f.name.toList := by
  obtain ⟨type, label, htype, hname, hlabel⟩ := name_of_mem_deep h hf
  have hlabelText : '/' ∉ label.toList := by
    rcases hlabel with rfl | ⟨entry, hentry, hkey⟩
    · decide
    · exact hlabels entry hentry label hkey
  rw [hname, String.toList_append, List.mem_append, not_or]
  exact ⟨fun hslash => absurd (htype.isNameChar hslash) (by decide), hlabelText⟩

theorem Fragment.isFileName_file {f : Fragment} (h : '/' ∉ f.name.toList) :
    FilePath.IsFileName f.file.name := by
  refine FilePath.isFileName_append ?_ (by decide) (by decide)
  rw [String.toList_append, List.mem_append, not_or]
  exact ⟨h, by decide⟩

theorem isFlat_output {schema : String} {tiers : Option TierConfig} {set : FragmentSet}
    (hlabels : (tiers.getD .empty).HasPlainLabels)
    (h : (generate schema tiers).result = .ok set) (generator : Generator) :
    (set.output generator).IsFlat := by
  cases generator with
  | sourceModule => exact ⟨List.nodup_nil, nofun⟩
  | singleDocument => exact ⟨List.nodup_nil, nofun⟩
  | multiFile =>
      obtain ⟨ts, -, -, hnodup, -⟩ := generate_eq_ok_iff.mp h
      have hdeep : (set.deep.map Fragment.name).Nodup := by
        unfold FragmentSet.names FragmentSet.all at hnodup
        rw [List.map_append] at hnodup
        exact hnodup.of_append_right
      have hfiles : (set.deep.map Fragment.file).map OutputFile.name =
          (set.deep.map Fragment.name).map (· ++ "." ++ Generator.multiFile.extension) := by
        rw [List.map_map, List.map_map]
        rfl
      refine ⟨?_, fun part hpart => ?_⟩
      · show ((set.deep.map Fragment.file).map OutputFile.name).Nodup
        rw [hfiles]
        refine hdeep.map fun a b hab => ?_
        exact (String.append_left_inj _).mp ((String.append_left_inj _).mp hab)
      · obtain ⟨f, hf, rfl⟩ := List.mem_map.mp hpart
        exact Fragment.isFileName_file (slash_notMem_of_mem_deep hlabels h hf)

/-! ## Projects -/

namespace Configuration

variable {c : Configuration} {name : String} {overrides : Overrides} {explicit : Bool}
  {ran : Logged (Option (Plan × FilePath))}

def feed : Configuration := .empty ⟨"/w/.graphqlconfig"⟩

/-- Neither the output directory nor the one around it exists. -/
def feedDisk : FileSystem where
  entries := [(["w"], .directory), (["w", "blog.graphql"], .file (.text blog)),
    (["w", "tiers.json"], .file (.text "\x7b\"User\": \x7b\"PublicListing\": [\"name\"]\x7d\x7d"))]
  workingDirectory := ⟨"/w"⟩

def feedOverrides : Overrides :=
  ⟨some ⟨"blog.graphql"⟩, some "gql", some ⟨"out/gen"⟩, some ⟨"tiers.json"⟩⟩

def feedPlan : Plan where
  project := "default"
  schemaPath := ⟨"blog.graphql"⟩
  generatorLabel := "gql"
  generator := .multiFile
  output := ⟨"out/gen/default.fragments.gql"⟩
  outputSetting := "out/gen/default.fragments.gql"
  tiers := some blogTiers

theorem plan_feed : (feed.plan feedDisk "default" feedOverrides).result = .ok feedPlan := by
  refine plan_eq_ok_iff.mpr ⟨_, none, rfl, rfl, rfl, rfl, ?_, ?_, ?_, rfl⟩
  · exact eq_ok_of_toOption (by decide +kernel)
  · exact eq_ok_of_toOption (by decide +kernel)
  · exact eq_ok_of_toOption (by decide +kernel)

theorem readText_feed : feedDisk.readText feedPlan.schemaPath = .ok blog :=
  eq_ok_of_toOption (by decide +kernel)

theorem result_feed : (feed.runProject "default" feedOverrides true feedDisk).1.result =
    .ok (some (feedPlan, ⟨"out/gen"⟩)) := by
  have hskip : feed.shouldSkip "default" feedOverrides true = .ok false := rfl
  have hset : (feedPlan.generate feedDisk).result = .ok blogFragments :=
    Plan.generate_eq_ok_iff.mpr ⟨blog, readText_feed, generate_blog⟩
  have hwritten : ((blogFragments.output .multiFile).write feedPlan.output feedDisk).1 =
      .ok ⟨"out/gen"⟩ := eq_ok_of_toOption (by decide +kernel)
  have hran := (Plan.run_of_write hset (Prod.ext hwritten rfl)).1
  exact (runProject_of_plan hskip plan_feed hran).1

/-- The output is to go to a device. -/
def drain : Configuration where
  path := ⟨"/w/.graphqlconfig"⟩
  root := ⟨some "blog.graphql",
    [(fragmentsExtension, FragmentSettings.toJson ⟨some "/dev/null", some "graphql"⟩)], []⟩
  projects := []

def drainDisk : FileSystem where
  entries := feedDisk.entries ++ [(["dev"], .directory), (["dev", "null"], .file (.text "")),
    (["w", "out"], .directory), (["w", "out", "PostFull.gql"], .file (.text "")),
    (["w", "out", "UserPublicListing.gql"], .file (.text ""))]
  workingDirectory := ⟨"/w"⟩

def drainOverrides (label : Option String) (directory : Option FilePath) : Overrides :=
  ⟨none, label, directory, some ⟨"tiers.json"⟩⟩

def drainPlan (label : String) (generator : Generator) (output : String) : Plan where
  project := "default"
  schemaPath := ⟨"/w/blog.graphql"⟩
  generatorLabel := label
  generator := generator
  output := ⟨output⟩
  outputSetting := output
  tiers := some blogTiers

/-- There is no room for anything. -/
def fullMedium : Medium :=
  { Medium.sound with
    fate := fun _ _ _ => .cut 0 (.other "No space left on device (os error 28)") }

/-- Two files of the output are one under two names. -/
def twinMedium : Medium :=
  { Medium.sound with
    links := fun location =>
      if location = ["w", "out", "PostFull.gql"] then [["w", "out", "UserPublicListing.gql"]]
      else if location = ["w", "out", "UserPublicListing.gql"] then
        [["w", "out", "PostFull.gql"]]
      else [] }

def drained (m : Medium) (label : Option String) (directory : Option FilePath) :
    Logged (Option (Plan × FilePath)) × FileSystem :=
  drain.runProjectOn m "default" (drainOverrides label directory) true drainDisk

section Drain

variable {label : Option String} {directory : Option FilePath} {chosen output : String}
  {generator : Generator} {m : Medium} {written : Except IoFault FilePath}

theorem plan_drain (hlabel : (label <|> some "graphql") = some chosen)
    (hgenerator : Generator.ofLabel? chosen = some generator)
    (houtput : drain.resolveOutput drainDisk.workingDirectory "default"
      ⟨some "/dev/null", some "graphql"⟩ (drainOverrides label directory) generator =
        .ok (⟨output⟩, output)) :
    (drain.plan drainDisk "default" (drainOverrides label directory)).result =
      .ok (drainPlan chosen generator output) := by
  have hsettings : drain.root.fragmentSettings? =
      .ok (some ⟨some "/dev/null", some "graphql"⟩) := eq_ok_of_toOption (by decide +kernel)
  have hschema : drain.resolveSchemaPath drainDisk drain.root (drainOverrides none none) =
      .ok ⟨"/w/blog.graphql"⟩ := eq_ok_of_toOption (by decide +kernel)
  have htiers : loadTiers drainDisk (drain.tiersPath? drain.root (drainOverrides none none)) =
      .ok (some blogTiers) := eq_ok_of_toOption (by decide +kernel)
  refine plan_eq_ok_iff.mpr ⟨_, _, rfl, hsettings, hlabel, ?_, houtput, hschema, htiers, rfl⟩
  show generator = (Generator.ofLabel? chosen).getD .singleDocument
  rw [hgenerator]
  rfl

theorem readText_drain : drainDisk.readText ⟨"/w/blog.graphql"⟩ = .ok blog :=
  eq_ok_of_toOption (by decide +kernel)

/-- How the run ends depends on nothing but the writing of the output. -/
theorem drained_of_write
    (houtput : drain.resolveOutput drainDisk.workingDirectory "default"
      ⟨some "/dev/null", some "graphql"⟩ (drainOverrides label directory) generator =
        .ok (⟨output⟩, output))
    (hwrite : (blogFragments.output generator).writeOn m ⟨output⟩ drainDisk = (written, after))
    (hlabel : (label <|> some "graphql") = some chosen)
    (hgenerator : Generator.ofLabel? chosen = some generator) :
    (drained m label directory).1.result =
        ((written.mapError .io).map fun path => some (drainPlan chosen generator output, path)) ∧
      (drained m label directory).2 = after := by
  have hset : ((drainPlan chosen generator output).generate drainDisk).result =
      .ok blogFragments := Plan.generate_eq_ok_iff.mpr ⟨blog, readText_drain, generate_blog⟩
  obtain ⟨hran, hleft⟩ := Plan.runOn_of_writeOn hset hwrite
  have hskip : drain.shouldSkip "default" (drainOverrides label directory) true = .ok false := rfl
  obtain ⟨hresult, hafter⟩ :=
    runProjectOn_of_plan m hskip (plan_drain hlabel hgenerator houtput)
  rw [hran] at hresult
  exact ⟨hresult, hafter.trans hleft⟩

end Drain

end Configuration

end GraphqlFragments
