import GraphqlFragments.FileSystem
import GraphqlFragments.Proofs.Faults
/-!
# Growing file systems

The program never removes anything: directories and files stay where they are, and only the
files that are written change. So a path that can be followed leads to the same location ever
after.
-/

namespace GraphqlFragments.FileSystem

variable {fs mid after : FileSystem} {here there location target : Location}
  {changed more : List Location} {p : FilePath}

/-! ## Growth -/

/-- Directories and files stay where they are, and what a file holds stays as well unless the
file is at one of some locations. -/
structure Grows (changed : List Location) (fs after : FileSystem) : Prop where
  workingDirectory : after.workingDirectory = fs.workingDirectory
  directory : ∀ location, fs.get? location = some .directory →
    after.get? location = some .directory
  file : ∀ location content, fs.get? location = some (.file content) →
    ∃ content', after.get? location = some (.file content') ∧
      (location ∉ changed → content' = content)

theorem Grows.refl (changed : List Location) (fs : FileSystem) : Grows changed fs fs :=
  ⟨rfl, fun _ h => h, fun _ content h => ⟨content, h, fun _ => rfl⟩⟩

theorem Grows.trans (h : Grows changed fs mid) (hmore : Grows more mid after) :
    Grows (changed ++ more) fs after := by
  refine ⟨hmore.workingDirectory.trans h.workingDirectory,
    fun location hdirectory => hmore.directory location (h.directory location hdirectory), ?_⟩
  intro location content hfile
  obtain ⟨first, hfirst, hsame⟩ := h.file location content hfile
  obtain ⟨second, hsecond, hsame'⟩ := hmore.file location first hfirst
  refine ⟨second, hsecond, fun hnotMem => ?_⟩
  rw [List.mem_append, not_or] at hnotMem
  exact (hsame' hnotMem.2).trans (hsame hnotMem.1)

theorem Grows.mono (h : Grows changed fs after) (hsubset : changed ⊆ more) :
    Grows more fs after := by
  refine ⟨h.workingDirectory, h.directory, fun location content hfile => ?_⟩
  obtain ⟨content', hfound, hsame⟩ := h.file location content hfile
  exact ⟨content', hfound, fun hnotMem => hsame fun hmem => hnotMem (hsubset hmem)⟩

/-- What is there stays as it is unless it is to change. -/
theorem Grows.get?_eq (h : Grows changed fs after) (hnotMem : target ∉ changed)
    (hsome : fs.get? target ≠ none) : after.get? target = fs.get? target := by
  cases hentry : fs.get? target with
  | none => exact absurd hentry hsome
  | some entry =>
      cases entry with
      | directory => exact h.directory target hentry
      | file content =>
          obtain ⟨content', hafter, hsame⟩ := h.file target content hentry
          rw [hafter, hsame hnotMem]

/-- Where there is nothing, anything may be put. -/
theorem grows_put_of_none {entry : Entry} (h : fs.get? target = none) :
    Grows [] fs (fs.put target entry) := by
  have hother (location : Location) (found : Entry) (hfound : fs.get? location = some found) :
      (fs.put target entry).get? location = some found := by
    rw [get?_put_of_ne, hfound]
    rintro rfl
    rw [h] at hfound
    cases hfound
  exact ⟨rfl, fun location => hother location _, fun location content hfile =>
    ⟨content, hother location _ hfile, fun _ => rfl⟩⟩

theorem ne_nil_of_get?_ne (h : fs.get? target ≠ some .directory) : target ≠ [] := by
  rintro rfl
  exact h rfl

theorem grows_put_file (h : fs.get? target ≠ some .directory) (content : Content) :
    Grows [target] fs (fs.put target (.file content)) := by
  refine ⟨rfl, fun location hdirectory => ?_, fun location old hfile => ?_⟩
  · rw [get?_put_of_ne, hdirectory]
    rintro rfl
    exact h hdirectory
  · by_cases hsame : location = target
    · subst hsame
      refine ⟨content, get?_put_self fs location _ (ne_nil_of_get?_ne h), fun hnotMem => ?_⟩
      exact absurd (List.mem_singleton_self location) hnotMem
    · exact ⟨old, (get?_put_of_ne fs _ hsame).trans hfile, fun _ => rfl⟩

/-! ## Paths -/

theorem Grows.step (h : Grows changed fs after) {part : List Letter}
    (hstep : fs.step here part = .ok there) : after.step here part = .ok there := by
  unfold FileSystem.step at hstep ⊢
  cases hentry : fs.get? here with
  | none =>
      rw [hentry] at hstep
      cases hstep
  | some entry =>
      rw [hentry] at hstep
      cases entry with
      | file content => cases hstep
      | directory =>
          rw [h.directory here hentry]
          exact hstep

theorem Grows.follow (h : Grows changed fs after) {parts : List (List Letter)}
    (hfollow : fs.follow here parts = .ok there) : after.follow here parts = .ok there := by
  induction parts generalizing here with
  | nil => exact hfollow
  | cons part rest ih =>
      rw [FileSystem.follow] at hfollow ⊢
      obtain ⟨next, hnext, hrest⟩ := exists_of_bind_eq_ok hfollow
      rw [h.step hnext]
      exact ih hrest

theorem Grows.parts (h : Grows changed fs after) (p : FilePath) : after.parts p = fs.parts p := by
  unfold FileSystem.parts
  rw [h.workingDirectory]

theorem Grows.locate (h : Grows changed fs after) (hlocate : fs.locate p = .ok location) :
    after.locate p = .ok location := by
  unfold FileSystem.locate at hlocate ⊢
  obtain ⟨parts, hparts, hfollow⟩ := exists_of_bind_eq_ok hlocate
  rw [h.parts, hparts]
  exact h.follow hfollow

theorem isFile_iff : fs.isFile p = true ↔
    ∃ location content, fs.locate p = .ok location ∧
      fs.get? location = some (.file content) := by
  unfold isFile find?
  cases hlocate : fs.locate p with
  | error fault => simp [Except.toOption]
  | ok location =>
      simp only [Except.toOption, Option.bind_some]
      cases hentry : fs.get? location with
      | none => simp [hentry]
      | some entry => cases entry <;> simp [hentry]

theorem isDirectory_iff : fs.isDirectory p = true ↔
    ∃ location, fs.locate p = .ok location ∧ fs.get? location = some .directory := by
  rw [isDirectory, decide_eq_true_iff, find?]
  cases hlocate : fs.locate p with
  | error fault => simp [Except.toOption]
  | ok location => simp [Except.toOption]

theorem Grows.isFile (h : Grows changed fs after) (hfile : fs.isFile p = true) :
    after.isFile p = true := by
  obtain ⟨location, content, hlocate, hentry⟩ := isFile_iff.mp hfile
  obtain ⟨content', hentry', -⟩ := h.file location content hentry
  exact isFile_iff.mpr ⟨location, content', h.locate hlocate, hentry'⟩

theorem Grows.isDirectory (h : Grows changed fs after) (hdirectory : fs.isDirectory p = true) :
    after.isDirectory p = true := by
  obtain ⟨location, hlocate, hentry⟩ := isDirectory_iff.mp hdirectory
  exact isDirectory_iff.mpr ⟨location, h.locate hlocate, h.directory location hentry⟩

end GraphqlFragments.FileSystem
