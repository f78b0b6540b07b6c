import GraphqlFragments.Proofs.Media
/-!
# Writing again

A directory that has been made is found ever after, and to write files again where they have
been written gives them the same contents.
-/

namespace GraphqlFragments.FileSystem

variable {fs mid after : FileSystem} {here there location : Location} {content : Content}
  {changed : List Location} {p : FilePath} {m : Medium}

/-! ## Directories -/

theorem step_nil (h : fs.get? here = some .directory) : fs.step here [] = .ok here := by
  unfold FileSystem.step
  rw [h]
  rfl

theorem eq_of_step_nil (h : fs.step here [] = .ok there) : there = here := by
  unfold FileSystem.step at h
  split at h
  · cases h
  · cases h
  · have hblank : FilePath.component? [] = none := rfl
    rw [hblank] at h
    cases h
    rfl

/-- Empty parts at the end lead nowhere else, but only from a directory. -/
theorem follow_append_replicate_nil {parts : List (List Letter)} {n : Nat}
    (h : fs.get? there = some .directory) :
    fs.follow here (parts ++ List.replicate n []) = .ok there ↔
      fs.follow here parts = .ok there := by
  rw [follow_append]
  constructor
  · intro hfollow
    obtain ⟨next, hnext, hrest⟩ := exists_of_bind_eq_ok hfollow
    have hsame : there = next := by
      clear hfollow hnext
      induction n generalizing next with
      | zero =>
          cases hrest
          rfl
      | succ n ih =>
          obtain ⟨further, hfurther, hmore⟩ := exists_of_bind_eq_ok hrest
          rw [eq_of_step_nil hfurther] at hmore
          exact ih next hmore
    rw [hnext, hsame]
  · intro hfollow
    rw [hfollow]
    show fs.follow there (List.replicate n []) = .ok there
    induction n with
    | zero => rfl
    | succ n ih =>
        rw [List.replicate_succ, follow, step_nil h]
        exact ih

theorem exists_trimEnd_append (parts : List (List Letter)) :
    ∃ n, parts = trimEnd parts ++ List.replicate n [] := by
  let blank := parts.reverse.takeWhile List.isEmpty
  have hblank : blank = List.replicate blank.length [] := by
    refine List.eq_replicate_iff.mpr ⟨rfl, fun part hpart => ?_⟩
    exact List.isEmpty_iff.mp (List.all_eq_true.mp List.all_takeWhile part hpart)
  refine ⟨blank.length, ?_⟩
  calc parts = (blank ++ parts.reverse.dropWhile List.isEmpty).reverse := by
        rw [List.takeWhile_append_dropWhile, List.reverse_reverse]
    _ = trimEnd parts ++ blank.reverse := by
        rw [List.reverse_append]
        rfl
    _ = trimEnd parts ++ List.replicate blank.length [] := by
        rw [hblank, List.reverse_replicate, List.length_replicate]

/-- A directory is located with or without slashes behind it. -/
theorem locate_eq_ok_iff_locateNew (h : fs.get? location = some .directory) :
    fs.locate p = .ok location ↔ fs.locateNew p = .ok location := by
  unfold FileSystem.locate locateNew
  cases fs.parts p with
  | error fault => exact Iff.rfl
  | ok parts =>
      obtain ⟨n, hparts⟩ := exists_trimEnd_append parts
      have hfollow : fs.follow [] (trimEnd parts ++ List.replicate n []) = .ok location ↔
          fs.follow [] (trimEnd parts) = .ok location :=
        follow_append_replicate_nil h
      rw [← hparts] at hfollow
      exact hfollow

theorem isDirectory_iff_locateNew : fs.isDirectory p = true ↔
    ∃ location, fs.locateNew p = .ok location ∧ fs.get? location = some .directory := by
  rw [isDirectory_iff]
  refine exists_congr fun location => ?_
  exact and_congr_left fun hentry => locate_eq_ok_iff_locateNew hentry

theorem makeDirectory_of_isDirectory (h : fs.isDirectory p = true) :
    m.makeDirectory fs p = .error .alreadyExists := by
  obtain ⟨location, hlocate, hentry⟩ := isDirectory_iff_locateNew.mp h
  have hlocated : fs.locateNew p = pure location := hlocate
  rw [Medium.makeDirectory, hlocated, pure_bind, hentry]
  rfl

theorem ensureDirectory_of_isDirectory (h : fs.isDirectory p = true) :
    m.ensureDirectory fs p = (.ok (), fs) := by
  rw [Medium.ensureDirectory, makeDirectory_of_isDirectory h]
  exact if_pos h

/-- Nothing has to be made where a directory is. -/
theorem ensureDirectories_of_isDirectory
    (h : p.components.isEmpty = true ∨ fs.isDirectory p = true) :
    m.ensureDirectories fs p = (.ok (), fs) := by
  rw [Medium.ensureDirectories]
  unfold Medium.ensureWithin
  by_cases hempty : p.components.isEmpty = true
  · rw [if_pos hempty]
  · have hdirectory := h.resolve_left hempty
    rw [if_neg hempty, makeDirectory_of_isDirectory hdirectory]
    exact ensureDirectory_of_isDirectory hdirectory

theorem grows_of_makeDirectory (h : m.makeDirectory fs p = .ok after) :
    Grows [] fs after ∧ after.isDirectory p = true := by
  obtain ⟨location, hlocate, hput⟩ := exists_of_bind_eq_ok h
  split at hput
  · cases hput
  · next hfree =>
      split at hput
      · cases hput
      cases hput
      rw [Option.not_isSome_iff_eq_none] at hfree
      have hgrows : Grows [] fs (fs.put location .directory) := grows_put_of_none hfree
      have hroot : location ≠ [] := by
        rintro rfl
        cases hfree
      obtain ⟨parts, hparts, hfollow⟩ := exists_of_bind_eq_ok hlocate
      refine ⟨hgrows, isDirectory_iff_locateNew.mpr ⟨location, ?_, get?_put_self fs _ _ hroot⟩⟩
      rw [locateNew, hgrows.parts, hparts]
      exact hgrows.follow hfollow

theorem grows_of_ensureDirectory (h : m.ensureDirectory fs p = (.ok (), after)) :
    Grows [] fs after ∧ after.isDirectory p = true := by
  unfold Medium.ensureDirectory at h
  cases hmade : m.makeDirectory fs p with
  | ok made =>
      rw [hmade] at h
      cases h
      exact grows_of_makeDirectory hmade
  | error fault =>
      simp only [hmade] at h
      split at h
      · next hdirectory =>
          cases h
          exact ⟨.refl [] fs, hdirectory⟩
      · cases h

theorem grows_of_ensureWithin {around : List FilePath}
    (h : m.ensureWithin fs p around = (.ok (), after)) :
    Grows [] fs after ∧ (p.components.isEmpty = true ∨ after.isDirectory p = true) := by
  have hlast {fs after : FileSystem} {p : FilePath} (h : m.ensureDirectory fs p = (.ok (), after)) :
      Grows [] fs after ∧ (p.components.isEmpty = true ∨ after.isDirectory p = true) := by
    obtain ⟨hgrows, hdirectory⟩ := grows_of_ensureDirectory h
    exact ⟨hgrows, Or.inr hdirectory⟩
  induction around generalizing p after with
  | nil =>
      unfold Medium.ensureWithin at h
      split at h
      · next hempty =>
          cases h
          exact ⟨.refl [] fs, Or.inl hempty⟩
      · split at h
        · cases h
        · exact hlast h
  | cons dir farther ih =>
      unfold Medium.ensureWithin at h
      split at h
      · next hempty =>
          cases h
          exact ⟨.refl [] fs, Or.inl hempty⟩
      · split at h
        · cases haround : m.ensureWithin fs dir farther with
          | mk made mid =>
              simp only [haround] at h
              cases made with
              | error fault => cases h
              | ok =>
                  obtain ⟨hgrows, -⟩ := ih haround
                  obtain ⟨hmore, hdirectory⟩ := hlast h
                  exact ⟨hgrows.trans hmore, hdirectory⟩
        · exact hlast h

/-- Directories that have been made need not be made ever after. -/
theorem ensureDirectories_again (h : m.ensureDirectories fs p = (.ok (), mid)) :
    Grows [] fs mid ∧ ∀ changed after, Grows changed mid after →
      m.ensureDirectories after p = (.ok (), after) := by
  obtain ⟨hmade, hdirectory⟩ := grows_of_ensureWithin h
  refine ⟨hmade, fun changed after hafter => ?_⟩
  exact ensureDirectories_of_isDirectory
    (hdirectory.imp_right fun hmid => hafter.isDirectory hmid)

/-! ## Files -/

/-- Puts texts to some locations, one after the other. -/
def putAll (fs : FileSystem) (written : List (Location × String)) : FileSystem :=
  written.foldl (fun fs w => fs.put w.1 (.file (.text w.2))) fs

variable {written later : List (Location × String)}

theorem putAll_append (fs : FileSystem) (written later : List (Location × String)) :
    fs.putAll (written ++ later) = (fs.putAll written).putAll later :=
  List.foldl_append

theorem get?_putAll_of_notMem (h : location ∉ written.map Prod.fst) :
    (fs.putAll written).get? location = fs.get? location := by
  induction written generalizing fs with
  | nil => rfl
  | cons w rest ih =>
      rw [List.map_cons, List.mem_cons, not_or] at h
      exact (ih h.2).trans (get?_put_of_ne fs _ h.1)

@[simp] theorem workingDirectory_putAll (fs : FileSystem) (written : List (Location × String)) :
    (fs.putAll written).workingDirectory = fs.workingDirectory := by
  induction written generalizing fs with
  | nil => rfl
  | cons w rest ih => exact ih _

/-- What is left after some files have been written: they hold what they would hold anywhere,
and all else stays. -/
structure Leaves (written : List (Location × String)) (fs after : FileSystem) : Prop where
  grows : Grows (written.map Prod.fst) fs after
  holds : ∀ location ∈ written.map Prod.fst, ∃ content,
    after.get? location = some (.file content) ∧
      ∀ other : FileSystem, (other.putAll written).get? location = some (.file content)

theorem Grows.leaves (h : Grows [] fs after) : Leaves [] fs after :=
  ⟨h, fun _ hmem => nomatch hmem⟩

theorem Leaves.trans (h : Leaves written fs mid) (hmore : Leaves later mid after) :
    Leaves (written ++ later) fs after := by
  have hlocations : (written ++ later).map Prod.fst = written.map Prod.fst ++ later.map Prod.fst :=
    List.map_append
  refine ⟨hlocations ▸ h.grows.trans hmore.grows, fun location hmem => ?_⟩
  by_cases hlater : location ∈ later.map Prod.fst
  · obtain ⟨content, hafter, hputs⟩ := hmore.holds location hlater
    refine ⟨content, hafter, fun other => ?_⟩
    rw [putAll_append]
    exact hputs _
  · rw [hlocations, List.mem_append] at hmem
    obtain ⟨content, hmid, hputs⟩ := h.holds location (hmem.resolve_right hlater)
    obtain ⟨content', hafter, hsame⟩ := hmore.grows.file location content hmid
    refine ⟨content, hsame hlater ▸ hafter, fun other => ?_⟩
    rw [putAll_append, get?_putAll_of_notMem hlater]
    exact hputs other

/-- To write the same again changes nothing, as long as the files still hold it. -/
theorem Leaves.get?_putAll (h : Leaves written fs mid) (hgrows : Grows changed mid after)
    (hkept : ∀ location ∈ written.map Prod.fst, location ∉ changed) (location : Location) :
    (after.putAll written).get? location = after.get? location := by
  by_cases hmem : location ∈ written.map Prod.fst
  · obtain ⟨content, hmid, hputs⟩ := h.holds location hmem
    obtain ⟨content', hafter, hsame⟩ := hgrows.file location content hmid
    rw [hputs after, hafter, hsame (hkept location hmem)]
  · exact get?_putAll_of_notMem hmem

theorem Leaves.grows_putAll (h : Leaves written fs mid) (hgrows : Grows changed mid after) :
    Grows (written.map Prod.fst) after (after.putAll written) := by
  have hfile (location : Location) (hmem : location ∈ written.map Prod.fst) :
      ∃ content, after.get? location = some (.file content) := by
    obtain ⟨content, hmid, -⟩ := h.holds location hmem
    obtain ⟨content', hafter, -⟩ := hgrows.file location content hmid
    exact ⟨content', hafter⟩
  refine ⟨workingDirectory_putAll after written, fun location hdirectory => ?_, ?_⟩
  · rw [get?_putAll_of_notMem, hdirectory]
    intro hmem
    obtain ⟨content, hcontent⟩ := hfile location hmem
    rw [hdirectory] at hcontent
    cases hcontent
  · intro location content hcontent
    by_cases hmem : location ∈ written.map Prod.fst
    · obtain ⟨content', -, hputs⟩ := h.holds location hmem
      exact ⟨content', hputs after, fun hnotMem => absurd hmem hnotMem⟩
    · exact ⟨content, (get?_putAll_of_notMem hmem).trans hcontent, fun _ => rfl⟩

/-- What has been written can be written again ever after. -/
theorem leaves_of_write {text : String} (h : fs.write p (.text text) = .ok after) :
    ∃ location, after.locate p = .ok location ∧ Leaves [(location, text)] fs after ∧
      ∀ changed later, Grows changed after later →
        later.write p (.text text) = .ok (later.putAll [(location, text)]) := by
  obtain ⟨hslash, location, hlocate, hfree, rfl⟩ := write_eq_ok_iff.mp h
  have hgrows := grows_put_file hfree (.text text)
  have hput (other : FileSystem) :
      (other.putAll [(location, text)]).get? location = some (.file (.text text)) :=
    get?_put_self other location _ (ne_nil_of_get?_ne hfree)
  refine ⟨location, hgrows.locate hlocate, ⟨hgrows, fun target htarget => ?_⟩, ?_⟩
  · rw [List.mem_singleton.mp htarget]
    exact ⟨.text text, hput fs, hput⟩
  · intro changed later hlater
    obtain ⟨content, hcontent, -⟩ := hlater.file location _ (hput fs)
    refine write_eq_ok_iff.mpr
      ⟨hslash, location, hlater.locate (hgrows.locate hlocate), ?_, rfl⟩
    rw [hcontent]
    exact nofun

/-- Where a text has been read, anything can be written ever after. -/
theorem Grows.write (h : Grows changed fs after) {text : String} (hread : fs.readText p = .ok text)
    (content : Content) : ∃ saved, after.write p content = .ok saved := by
  obtain ⟨first, hfirst⟩ := write_of_readText hread content
  obtain ⟨hslash, location, hlocate, -⟩ := write_eq_ok_iff.mp hfirst
  obtain ⟨found, hfound, hentry⟩ := readText_eq_ok_iff.mp hread
  cases hlocate.symm.trans hfound
  obtain ⟨content', hafter, -⟩ := h.file location _ hentry
  refine ⟨_, write_eq_ok_iff.mpr ⟨hslash, location, h.locate hlocate, ?_, rfl⟩⟩
  rw [hafter]
  exact nofun

/-- A text is read where it has been read before, unless its file has changed. -/
theorem Grows.readText (h : Grows changed fs after) {text : String}
    (hread : fs.readText p = .ok text)
    (hkept : ∀ location, fs.locate p = .ok location → location ∉ changed) :
    after.readText p = .ok text := by
  obtain ⟨location, hlocate, hentry⟩ := readText_eq_ok_iff.mp hread
  obtain ⟨content, hafter, hsame⟩ := h.file location _ hentry
  rw [hsame (hkept location hlocate)] at hafter
  exact readText_eq_ok_iff.mpr ⟨location, h.locate hlocate, hafter⟩

end GraphqlFragments.FileSystem
