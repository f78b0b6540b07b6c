import GraphqlFragments.Proofs.Documents
import GraphqlFragments.Proofs.Repetition
/-!
# Running the program again

Unless a run that succeeds has written over what it read, a second run with the same arguments
loads the same configuration, or the one that was saved, repeats the runs of all projects and
saves the same again. It leaves everything as it is.
-/

namespace GraphqlFragments

open FileSystem (Grows Leaves)

variable {fs after : FileSystem}

/-! ## The program -/

/-- Two paths lead to the same location. -/
def FileSystem.SameLocation (fs : FileSystem) (p q : FilePath) : Prop :=
  ∃ location, fs.locate p = .ok location ∧ fs.locate q = .ok location

theorem FileSystem.not_sameLocation {p q : FilePath} {location other : Location}
    (hp : fs.locate p = .ok location) (hq : fs.locate q = .ok other) (hne : location ≠ other) :
    ¬fs.SameLocation p q := by
  rintro ⟨shared, hp', hq'⟩
  have hfirst : location = shared := Except.ok.inj (hp.symm.trans hp')
  have hsecond : other = shared := Except.ok.inj (hq.symm.trans hq')
  exact hne (hfirst.trans hsecond.symm)

namespace CommandLine

open GraphqlFragments.Configuration

variable {args : List String} {options : Options} {c d : Configuration} {files : FileSystem}

/-- The runs of the projects of a configuration that has been loaded. -/
def selectedRuns (options : Options) (c : Configuration) (fs : FileSystem) : List ProjectRun :=
  c.projectRuns (overridesOf options) options.project.isSome (selected options c) fs

/-- The schemas and tiers that the program reads. -/
def filesRead (options : Options) (c : Configuration) (fs : FileSystem) : List FilePath :=
  (selectedRuns options c fs).flatMap (c.inputs (overridesOf options))

/-- The paths of the output that the program writes. -/
def filesWritten (options : Options) (c : Configuration) (fs : FileSystem) : List FilePath :=
  (selectedRuns options c fs).flatMap ProjectRun.outputs

/-- On the files that it leaves, the program has written over nothing that it read, and the
configuration can be saved as it is. -/
structure Undisturbed (options : Options) (c : Configuration) (fs after : FileSystem) : Prop where
  output : ∀ output ∈ filesWritten options c fs, ∀ input ∈ options.config :: filesRead options c fs,
    ¬after.SameLocation output input
  config : options.save = true → ∀ input ∈ filesRead options c fs,
    ¬after.SameLocation options.config input
  /-- Every number in the configuration is an integer of 64 bits. -/
  numbers : options.save = true → ∀ text document, fs.readText options.config = .ok text →
    Json.parse text = .ok document → document.HasWordsOnly

/-! ### Success -/

theorem saveProgress_succeeds_iff {s : Progress} :
    ((saveProgress options s).failing = none ∧ (saveProgress options s).files = files) ↔
      s.failed = [] ∧
        (if options.save then s.configuration.save s.files else .ok s.files) = .ok files := by
  unfold saveProgress
  cases hsave : options.save with
  | false => simp
  | true => cases s.configuration.save s.files <;> simp

theorem failedNames_eq_nil_iff {runs : List ProjectRun} :
    ProjectRun.failedNames runs = [] ↔ ∀ r ∈ runs, r.hasFailed = false := by
  simp [ProjectRun.failedNames, List.filter_eq_nil_iff]

/-- The program succeeds if all projects do and the configuration is saved where that is asked
for. -/
theorem code_eq_zero_iff (hrequest : request args = some (.run options))
    (hload : loadConfiguration fs options = .ok c) :
    ((run args fs).code = 0 ∧ (run args fs).files = files) ↔
      (∀ r ∈ selectedRuns options c fs, r.hasFailed = false) ∧
        (if options.save then
            (c.keepAll (selectedRuns options c fs)).save (lastFiles fs (selectedRuns options c fs))
          else .ok (lastFiles fs (selectedRuns options c fs))) = .ok files := by
  let s := Progress.after ⟨c, [], [], fs⟩ (selectedRuns options c fs)
  have hprojects : runProjects c (selected options c) (overridesOf options)
      options.project.isSome fs = s := runProjects_eq_after (nodup_selected hload)
  have houtcome : runOptions options fs = saveProgress options s := by
    rw [← hprojects, runOptions, hload]
    rfl
  have hcode : (run args fs).code = 0 ↔ (saveProgress options s).failing = none := by
    rw [run, hrequest]
    dsimp only
    rw [houtcome]
    cases (saveProgress options s).failing <;> simp
  have hfiles : (run args fs).files = (saveProgress options s).files := by
    rw [run, hrequest, ← houtcome]
  rw [hcode, hfiles, saveProgress_succeeds_iff, ← failedNames_eq_nil_iff]
  exact Iff.rfl

/-- A configuration that exists is loaded. -/
theorem loadConfiguration_eq (h : fs.fileExists options.config = true) :
    loadConfiguration fs options = Configuration.load fs options.config := by
  rw [loadConfiguration, h]
  simp

theorem fileExists_of_readText {p : FilePath} {text : String} (h : fs.readText p = .ok text) :
    fs.fileExists p = true := by
  obtain ⟨location, hlocate, hentry⟩ := FileSystem.readText_eq_ok_iff.mp h
  simp [FileSystem.fileExists, FileSystem.find?, hlocate, Except.toOption, hentry]

theorem exists_load_of_code (hrequest : request args = some (.run options))
    (h : (run args fs).code = 0) : ∃ c, loadConfiguration fs options = .ok c := by
  cases hload : loadConfiguration fs options with
  | ok c => exact ⟨c, rfl⟩
  | error fault =>
      have hfailing : (runOptions options fs).failing = some (.failure (.config fault)) := by
        rw [runOptions, hload]
      rw [run, hrequest] at h
      simp [hfailing] at h

/-! ### The second run -/

/-- The configuration that the program finds when it is run again: the one it loaded or, if that
has been saved, the one with the settings it kept. -/
def found (options : Options) (c : Configuration) (fs : FileSystem) : Configuration :=
  if options.save then c.keepAll (selectedRuns options c fs) else c

theorem path_found (options : Options) (c : Configuration) (fs : FileSystem) :
    (found options c fs).path = c.path := by
  unfold found
  split
  · exact path_keepAll c _
  · rfl

theorem selected_found (options : Options) (c : Configuration) (fs : FileSystem) :
    selected options (found options c fs) = selected options c := by
  have hnames : (found options c fs).projectNames = c.projectNames := by
    unfold found
    split
    · exact projectNames_keepAll c _
    · rfl
  rw [selected, selected, hnames]

theorem selectedRuns_found (options : Options) (c : Configuration) (fs after : FileSystem) :
    selectedRuns options (found options c fs) after =
      (found options c fs).projectRuns (overridesOf options) options.project.isSome
        (selected options c) after := by
  rw [selectedRuns, selected_found]

theorem project?_found (hnodup : (selected options c).Nodup) {r : ProjectRun}
    (hr : r ∈ selectedRuns options c fs) :
    (found options c fs).project? r.name = c.project? r.name ∨
      (found options c fs).project? r.name = (c.project? r.name).map r.keep := by
  unfold found
  split
  · refine Or.inr (project?_keepAll_of_mem ?_ hr)
    rw [selectedRuns, map_name_projectRuns]
    exact hnodup
  · exact Or.inl rfl

theorem load_congr {later : FileSystem} {path : FilePath}
    (h : later.readText path = fs.readText path) :
    Configuration.load later path = Configuration.load fs path := by
  rw [Configuration.load, Configuration.load, h]

/-- Saving, where it is asked for, can be repeated ever after and changes nothing then. -/
theorem save_again (options : Options)
    (h : (if options.save then c.save fs else .ok fs) = .ok after) :
    ∃ changed, Grows changed fs after ∧
      (∀ location ∈ changed, options.save = true ∧ after.locate c.path = .ok location) ∧
      ∀ more later, Grows more after later → (∀ location ∈ changed, location ∉ more) →
        ∃ saved, (if options.save then c.save later else .ok later) = .ok saved ∧
          saved.workingDirectory = later.workingDirectory ∧
          ∀ location, saved.get? location = later.get? location := by
  cases hsave : options.save with
  | false =>
      rw [hsave] at h
      cases h
      refine ⟨[], Grows.refl [] _, fun location hmem => ?_, fun more later _ _ => ?_⟩
      · cases hmem
      · exact ⟨later, rfl, rfl, fun _ => rfl⟩
  | true =>
      rw [hsave, if_pos rfl] at h
      obtain ⟨location, hlocate, hleaves, hagain⟩ := FileSystem.leaves_of_write h
      refine ⟨[location], hleaves.grows, fun other hother => ?_, fun more later hlater hkept => ?_⟩
      · rw [List.mem_singleton.mp hother]
        exact ⟨rfl, hlocate⟩
      · exact ⟨_, hagain more later hlater, FileSystem.workingDirectory_putAll later _,
          hleaves.get?_putAll hlater hkept⟩

/-- Runs with the same names and results correspond to each other. -/
theorem exists_same_run {runs again : List ProjectRun}
    (h : again.map (fun r => (r.name, r.ran.result)) =
      runs.map (fun r => (r.name, r.ran.result))) {s : ProjectRun} (hs : s ∈ again) :
    ∃ r ∈ runs, r.name = s.name ∧ s.hasFailed = r.hasFailed ∧ s.keep = r.keep := by
  have hmem : (s.name, s.ran.result) ∈ runs.map (fun r => (r.name, r.ran.result)) := by
    rw [← h]
    exact List.mem_map_of_mem hs
  obtain ⟨r, hr, hsame⟩ := List.mem_map.mp hmem
  obtain ⟨hname, hresult⟩ := Prod.mk.inj hsame
  have hplan : s.plan? = r.plan? := by rw [ProjectRun.plan?, ProjectRun.plan?, hresult]
  refine ⟨r, hr, hname, by rw [ProjectRun.hasFailed, ProjectRun.hasFailed, hresult], ?_⟩
  funext project
  rw [ProjectRun.keep, ProjectRun.keep, hplan]

section Second

variable (hload : Configuration.load fs options.config = .ok c)
include hload

theorem nodup_keys_of_load {name : String} {project : ProjectSettings}
    (hproject : c.project? name = some project) : project.extensions.keys.Nodup := by
  obtain ⟨_, hreadable⟩ := (readable_of_load hload).project hproject
  exact hreadable.extensions.nodup

/-- The configuration that has been saved, or the one that was there, is loaded again. -/
theorem load_found {written : List (Location × String)}
    (hnumbers : options.save = true → ∀ text document, fs.readText options.config = .ok text →
      Json.parse text = .ok document → document.HasWordsOnly)
    (hgrows : Grows (written.map Prod.fst) fs (lastFiles fs (selectedRuns options c fs)))
    (hkept : ∀ location, fs.locate options.config = .ok location →
      location ∉ written.map Prod.fst)
    (hsaved : (if options.save then
        (c.keepAll (selectedRuns options c fs)).save (lastFiles fs (selectedRuns options c fs))
      else .ok (lastFiles fs (selectedRuns options c fs))) = .ok after) :
    Configuration.load after options.config = .ok (found options c fs) := by
  obtain ⟨text, t, htext, hparse, ht⟩ := parse_of_load hload
  have hpath := path_of_load hload
  unfold found
  cases hsave : options.save with
  | false =>
      rw [hsave] at hsaved
      cases hsaved
      have hsame : (lastFiles fs (selectedRuns options c fs)).readText options.config =
          fs.readText options.config := (hgrows.readText htext hkept).trans htext.symm
      rw [load_congr hsame, hload]
      rfl
  | true =>
      rw [hsave, if_pos rfl] at hsaved
      have hc := readable_of_load hload
      have hwords := ht.hasWordsOnly hc (hnumbers hsave text _ htext hparse)
      have hboth : (c.keepAll (selectedRuns options c fs)).Readable ∧
          (c.keepAll (selectedRuns options c fs)).HasWordsOnly := by
        apply keepAll_induction (P := fun c => c.Readable ∧ c.HasWordsOnly) _ ⟨hc, hwords⟩
        rintro c name settings ⟨hreadable, hnumbers⟩
        exact ⟨hreadable.setFragmentSettings name settings,
          hnumbers.setFragmentSettings hreadable name settings⟩
      have hread := FileSystem.readText_of_write hsaved
      have hloaded := load_of_readText hboth.1 hboth.2.toJson hread
      rw [path_keepAll, hpath] at hloaded
      exact hloaded

/-- Where the settings that were kept have been saved, the same results keep the same again. -/
theorem keepAll_found (hnodup : (selected options c).Nodup) {runs : List ProjectRun}
    (hresults : runs.map (fun r => (r.name, r.ran.result)) =
      (selectedRuns options c fs).map (fun r => (r.name, r.ran.result)))
    (hsave : options.save = true) : (found options c fs).keepAll runs = found options c fs := by
  have hfound : found options c fs = c.keepAll (selectedRuns options c fs) := if_pos hsave
  refine keepAll_of_fixed fun s hs project hproject => ?_
  obtain ⟨r, hr, hname, -, hkeep⟩ := exists_same_run hresults hs
  have hnames : ((selectedRuns options c fs).map ProjectRun.name).Nodup := by
    rw [selectedRuns, map_name_projectRuns]
    exact hnodup
  rw [hfound, ← hname, project?_keepAll_of_mem hnames hr] at hproject
  obtain ⟨old, hold, rfl⟩ := Option.map_eq_some_iff.mp hproject
  rw [hkeep]
  exact r.keep_again (nodup_keys_of_load hload hold)

/-- The second run succeeds where its projects come to the same results. -/
theorem run_found (hrequest : request args = some (.run options))
    (hnodup : (selected options c).Nodup)
    (hok : ∀ r ∈ selectedRuns options c fs, r.hasFailed = false)
    (hfound : Configuration.load after options.config = .ok (found options c fs))
    (hresults : (selectedRuns options (found options c fs) after).map
        (fun r => (r.name, r.ran.result)) =
      (selectedRuns options c fs).map (fun r => (r.name, r.ran.result)))
    (hsaved : (if options.save then
        (c.keepAll (selectedRuns options c fs)).save
          (lastFiles after (selectedRuns options (found options c fs) after))
      else .ok (lastFiles after (selectedRuns options (found options c fs) after))) =
        .ok files) :
    (run args after).code = 0 ∧ (run args after).files = files := by
  obtain ⟨text, _, htext, -⟩ := parse_of_load hfound
  have hloaded : loadConfiguration after options = .ok (found options c fs) := by
    rw [loadConfiguration_eq (fileExists_of_readText htext), hfound]
  refine (code_eq_zero_iff hrequest hloaded).mpr ⟨fun s hs => ?_, ?_⟩
  · obtain ⟨r, hr, -, hfailed, -⟩ := exists_same_run hresults hs
    rw [hfailed, hok r hr]
  · cases hsave : options.save with
    | false =>
        rw [hsave, if_neg Bool.false_ne_true] at hsaved
        rw [if_neg Bool.false_ne_true]
        exact hsaved
    | true =>
        have hkept : c.keepAll (selectedRuns options c fs) = found options c fs :=
          (if_pos hsave).symm
        rw [hsave, if_pos rfl, hkept] at hsaved
        rw [if_pos rfl, keepAll_found hload hnodup hresults hsave]
        exact hsaved

end Second

/-- What has been read before is read again, and not written over. -/
theorem readsApart_of_undisturbed {written : List (Location × String)} {changed : List Location}
    (hapart : ∀ location ∈ written.map Prod.fst, ∀ input ∈ options.config :: filesRead options c fs,
      after.locate input ≠ .ok location)
    (hconfig : ∀ location ∈ changed, ∀ input ∈ filesRead options c fs,
      after.locate input ≠ .ok location)
    (hbefore : ∀ r ∈ selectedRuns options c fs,
      Grows (written.map Prod.fst) r.before (lastFiles fs (selectedRuns options c fs)))
    (hgrows : Grows changed (lastFiles fs (selectedRuns options c fs)) after) :
    ∀ r ∈ selectedRuns options c fs, ∀ input ∈ c.inputs (overridesOf options) r, ∀ text,
      r.before.readText input = .ok text → ReadsApart after written input text := by
  intro r hr input hinput text htext
  have hread : input ∈ filesRead options c fs := List.mem_flatMap.mpr ⟨r, hr, hinput⟩
  obtain ⟨location, hlocate, hentry⟩ := FileSystem.readText_eq_ok_iff.mp htext
  have hafter : after.locate input = .ok location :=
    hgrows.locate ((hbefore r hr).locate hlocate)
  have hwritten : location ∉ written.map Prod.fst := fun hmem =>
    hapart location hmem input (List.mem_cons_of_mem _ hread) hafter
  have hchanged : location ∉ changed := fun hmem => hconfig location hmem input hread hafter
  obtain ⟨first, hfirst, hsame⟩ := (hbefore r hr).file location _ hentry
  obtain ⟨second, hsecond, hsame'⟩ := hgrows.file location first hfirst
  rw [hsame' hchanged, hsame hwritten] at hsecond
  exact ⟨location, hafter, hwritten, hsecond⟩

theorem run_again_of_load (hrequest : request args = some (.run options))
    (hexists : fs.fileExists options.config = true)
    (hload : Configuration.load fs options.config = .ok c) (hcode : (run args fs).code = 0)
    (hundisturbed : Undisturbed options c fs (run args fs).files) :
    (run args (run args fs).files).code = 0 ∧
      (run args (run args fs).files).files.workingDirectory =
        (run args fs).files.workingDirectory ∧
      ∀ location, (run args (run args fs).files).files.get? location =
        (run args fs).files.get? location := by
  generalize hafter : (run args fs).files = after at hundisturbed ⊢
  have hloaded : loadConfiguration fs options = .ok c := by
    rw [loadConfiguration_eq hexists, hload]
  have hnodup := nodup_selected hloaded
  have hpath := path_of_load hload
  obtain ⟨hok, hsaved⟩ := (code_eq_zero_iff hrequest hloaded).mp ⟨hcode, hafter⟩
  obtain ⟨written, hlocated, hleaves, hbefore, hagain⟩ :=
    projectRuns_again (fun _ _ => nodup_keys_of_load hload) rfl hok
  obtain ⟨changed, hgrows, hchanged, hsaveAgain⟩ := save_again options hsaved
  rw [path_keepAll, hpath] at hchanged
  -- What is written is apart from all that is read.
  have hapart : ∀ location ∈ written.map Prod.fst,
      ∀ input ∈ options.config :: filesRead options c fs, after.locate input ≠ .ok location := by
    intro location hlocation input hinput hlocate
    obtain ⟨w, hw, rfl⟩ := List.mem_map.mp hlocation
    obtain ⟨r, hr, o, ho, houtput⟩ := hlocated w hw
    exact hundisturbed.output o (List.mem_flatMap.mpr ⟨r, hr, ho⟩) input hinput
      ⟨w.1, hgrows.locate houtput, hlocate⟩
  have hkept : ∀ location ∈ changed, location ∉ written.map Prod.fst := by
    intro location hmem hlocation
    exact hapart location hlocation _ List.mem_cons_self (hchanged location hmem).2
  have hreads := readsApart_of_undisturbed hapart (fun location hmem input hinput hlocate =>
    hundisturbed.config (hchanged location hmem).1 input hinput
      ⟨location, (hchanged location hmem).2, hlocate⟩) hbefore hgrows
  have hfound : Configuration.load after options.config = .ok (found options c fs) :=
    load_found hload hundisturbed.numbers hleaves.grows (fun location hlocate hmem =>
      hapart location hmem _ List.mem_cons_self
        (hgrows.locate (hleaves.grows.locate hlocate))) hsaved
  -- The second run comes to the same and writes the same again.
  obtain ⟨hresults, hlast⟩ := hagain (found options c fs) changed after (path_found options c fs)
    (fun r hr => project?_found hnodup hr) hgrows hreads
  have hputs := hleaves.grows_putAll hgrows
  obtain ⟨files, hfiles, hdirectory, hsame⟩ := hsaveAgain _ _ hputs hkept
  rw [← selectedRuns_found] at hresults hlast
  rw [← hlast] at hfiles
  have hsecond := run_found hload hrequest hnodup hok hfound hresults hfiles
  rw [hsecond.2]
  refine ⟨hsecond.1, hdirectory.trans (FileSystem.workingDirectory_putAll _ _), fun location => ?_⟩
  rw [hsame location]
  exact hleaves.get?_putAll hgrows (fun other hother hmem => hkept other hmem hother) location

/-- A run that succeeds without disturbing itself can be repeated: the second one succeeds as
well, and everything stays as the first one has left it. -/
theorem run_again {args : List String} {fs : FileSystem} (hcode : (run args fs).code = 0)
    (h : ∀ options, request args = some (.run options) →
      fs.fileExists options.config = true ∧
        ∀ c, Configuration.load fs options.config = .ok c →
          Undisturbed options c fs (run args fs).files) :
    (run args (run args fs).files).code = 0 ∧
      (run args (run args fs).files).files.workingDirectory =
        (run args fs).files.workingDirectory ∧
      ∀ location, (run args (run args fs).files).files.get? location =
        (run args fs).files.get? location := by
  cases hrequest : request args with
  | none =>
      simp [run, hrequest] at hcode
  | some asked =>
      cases asked with
      | help => simp [run, hrequest]
      | version => simp [run, hrequest]
      | run options =>
          obtain ⟨hexists, hundisturbed⟩ := h options hrequest
          obtain ⟨c, hloaded⟩ := exists_load_of_code hrequest hcode
          rw [loadConfiguration_eq hexists] at hloaded
          exact run_again_of_load hrequest hexists hloaded hcode (hundisturbed c hloaded)

/-! ### The shop again -/

/-- The one project that can be run, with its output next to its schema. -/
def appArgs : List String :=
  ["--config", "/shop/.graphqlconfig", "-s", "-p", "app", "-o", "/shop"]

def appOptions : Options :=
  { shopOptions with project := some "app", output := some ⟨"/shop"⟩ }

theorem config_appOptions : appOptions.config = shop.path := rfl

theorem load_app : Configuration.load shopDisk appOptions.config = .ok shop := by
  rw [config_appOptions]
  exact load_of_readText readable_shop hasWordsOnly_shop readText_shop

theorem fileExists_app : shopDisk.fileExists appOptions.config = true := by
  rw [config_appOptions]
  exact fileExists_of_readText readText_shop

theorem request_app : request appArgs = some (.run appOptions) := by decide +kernel

theorem run_app : (run appArgs shopDisk).code = 0 ∧
    ∃ changed, Grows changed shopDisk (run appArgs shopDisk).files := by
  have hloaded : loadConfiguration shopDisk appOptions = .ok shop := by
    rw [loadConfiguration_eq fileExists_app, load_app]
  have hok : ∀ r ∈ selectedRuns appOptions shop shopDisk, r.hasFailed = false := by
    decide +kernel
  obtain ⟨written, -, hleaves, -⟩ :=
    projectRuns_again (fun _ _ => nodup_keys_of_load load_app) rfl hok
  obtain ⟨saved, hsaved⟩ := hleaves.grows.write readText_shop
    (.text (shop.keepAll (selectedRuns appOptions shop shopDisk)).toText)
  have hsave : (shop.keepAll (selectedRuns appOptions shop shopDisk)).save
      (lastFiles shopDisk (selectedRuns appOptions shop shopDisk)) = .ok saved := by
    rw [save, path_keepAll]
    exact hsaved
  obtain ⟨changed, hgrows, -⟩ := save_again appOptions hsave
  obtain ⟨hcode, hfiles⟩ := (code_eq_zero_iff request_app hloaded).mpr ⟨hok, hsave⟩
  rw [hfiles]
  exact ⟨hcode, _, hleaves.grows.trans hgrows⟩

theorem undisturbed_app : Undisturbed appOptions shop shopDisk (run appArgs shopDisk).files := by
  obtain ⟨-, changed, hgrows⟩ := run_app
  have hwritten : filesWritten appOptions shop shopDisk = [⟨"/shop/app.fragments.js"⟩] := by
    decide +kernel
  have hread : filesRead appOptions shop shopDisk = [⟨"/shop/app.graphql"⟩] := by
    decide +kernel
  have hconfig : (run appArgs shopDisk).files.locate appOptions.config =
      .ok ["shop", ".graphqlconfig"] :=
    hgrows.locate (eq_ok_of_toOption (by decide +kernel))
  have hschema : (run appArgs shopDisk).files.locate ⟨"/shop/app.graphql"⟩ =
      .ok ["shop", "app.graphql"] :=
    hgrows.locate (eq_ok_of_toOption (by decide +kernel))
  have houtput : (run appArgs shopDisk).files.locate ⟨"/shop/app.fragments.js"⟩ =
      .ok ["shop", "app.fragments.js"] :=
    hgrows.locate (eq_ok_of_toOption (by decide +kernel))
  refine ⟨?_, fun _ => ?_, fun _ text document htext hparse => ?_⟩
  · rw [hwritten, hread]
    intro o ho input hinput
    rw [List.mem_singleton.mp ho]
    simp only [List.mem_cons, List.not_mem_nil, or_false] at hinput
    rcases hinput with rfl | rfl
    · exact FileSystem.not_sameLocation houtput hconfig (by decide)
    · exact FileSystem.not_sameLocation houtput hschema (by decide)
  · rw [hread]
    intro input hinput
    rw [List.mem_singleton.mp hinput]
    exact FileSystem.not_sameLocation hconfig hschema (by decide)
  · rw [config_appOptions, readText_shop] at htext
    obtain rfl : shop.toText = text := Except.ok.inj htext
    obtain rfl : shop.toJson = document :=
      Except.ok.inj ((parse_toText readable_shop hasWordsOnly_shop).symm.trans hparse)
    exact hasWordsOnly_shop

theorem run_again_app :
    (run appArgs shopDisk).code = 0 ∧
      Undisturbed appOptions shop shopDisk (run appArgs shopDisk).files ∧
      (run appArgs (run appArgs shopDisk).files).code = 0 ∧
      (run appArgs (run appArgs shopDisk).files).files.workingDirectory =
        (run appArgs shopDisk).files.workingDirectory ∧
      ∀ location, (run appArgs (run appArgs shopDisk).files).files.get? location =
        (run appArgs shopDisk).files.get? location := by
  refine ⟨run_app.1, undisturbed_app, run_again run_app.1 fun options hoptions => ?_⟩
  cases request_app.symm.trans hoptions
  refine ⟨fileExists_app, fun c hc => ?_⟩
  cases load_app.symm.trans hc
  exact undisturbed_app

end CommandLine

end GraphqlFragments
