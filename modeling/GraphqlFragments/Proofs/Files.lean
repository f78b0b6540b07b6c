import GraphqlFragments.Proofs.FilePaths
import GraphqlFragments.Proofs.Growth
/-!
# Reading what has been written

A file takes the place of no directory, so a path leads to the same location before and after
a file is written there, and what has been written is read again.
-/

namespace GraphqlFragments.FileSystem

open Letter (slash)

variable {fs saved : FileSystem} {location : Location} {content : Content}

/-- A file is located where its path leads, unless that is a directory. -/
theorem locateFile_eq_ok_iff {p : FilePath} :
    fs.locateFile p = .ok location ↔ p.letters.getLast? ≠ some slash ∧
      fs.locate p = .ok location ∧ fs.get? location ≠ some .directory := by
  rw [locateFile]
  constructor
  · intro h
    split at h
    · obtain ⟨around, -, hfault⟩ := exists_of_bind_eq_ok h
      cases hfault
    · next hslash =>
        obtain ⟨found, hlocate, hfound⟩ := exists_of_bind_eq_ok h
        split at hfound
        · cases hfound
        · next hfree =>
            cases hfound
            exact ⟨hslash, hlocate, hfree⟩
  · rintro ⟨hslash, hlocate, hfree⟩
    have hlocated : fs.locate p = pure location := hlocate
    rw [if_neg hslash, hlocated, pure_bind, if_neg hfree]

theorem write_eq_ok_iff {p : FilePath} :
    fs.write p content = .ok saved ↔ p.letters.getLast? ≠ some slash ∧
      ∃ location, fs.locate p = .ok location ∧ fs.get? location ≠ some .directory ∧
        saved = fs.put location (.file content) := by
  rw [write]
  constructor
  · intro h
    obtain ⟨location, hlocate, hput⟩ := exists_of_bind_eq_ok h
    obtain ⟨hslash, hlocated, hfree⟩ := locateFile_eq_ok_iff.mp hlocate
    cases hput
    exact ⟨hslash, location, hlocated, hfree, rfl⟩
  · rintro ⟨hslash, location, hlocate, hfree, rfl⟩
    have hlocated : fs.locateFile p = pure location :=
      locateFile_eq_ok_iff.mpr ⟨hslash, hlocate, hfree⟩
    rw [hlocated, pure_bind]
    rfl

theorem readText_eq_ok_iff {p : FilePath} {s : String} :
    fs.readText p = .ok s ↔
      ∃ location, fs.locate p = .ok location ∧ fs.get? location = some (.file (.text s)) := by
  rw [readText]
  constructor
  · intro h
    obtain ⟨location, hlocate, hread⟩ := exists_of_bind_eq_ok h
    refine ⟨location, hlocate, ?_⟩
    split at hread
    · cases hread
    · cases hread
    · cases hread
    · next text hentry =>
        cases hread
        exact hentry
  · rintro ⟨location, hlocate, hentry⟩
    have hlocated : fs.locate p = pure location := hlocate
    rw [hlocated, pure_bind, hentry]

/-- A text that has been written to a path is read from that path. -/
theorem readText_of_write {p : FilePath} {s : String} (h : fs.write p (.text s) = .ok saved) :
    saved.readText p = .ok s := by
  obtain ⟨-, location, hlocate, hfree, rfl⟩ := write_eq_ok_iff.mp h
  have hentry : (fs.put location (.file (.text s))).get? location = some (.file (.text s)) :=
    get?_put_self fs location _ (ne_nil_of_get?_ne hfree)
  exact readText_eq_ok_iff.mpr ⟨location, (grows_put_file hfree _).locate hlocate, hentry⟩

theorem follow_append (fs : FileSystem) (here : Location) (parts more : List (List Letter)) :
    fs.follow here (parts ++ more) =
      fs.follow here parts >>= fun there => fs.follow there more := by
  induction parts generalizing here with
  | nil => rfl
  | cons part rest ih =>
      rw [List.cons_append, follow, follow, bind_assoc]
      exact bind_congr fun next => ih next

/-- A slash at the end of a path asks for a directory. -/
theorem get?_of_locate_slash {p : FilePath} (hslash : p.letters.getLast? = some slash)
    (h : fs.locate p = .ok location) : fs.get? location = some .directory := by
  obtain ⟨parts, hparts, hfollow⟩ := exists_of_bind_eq_ok h
  have hend : ∃ before, (fs.workingDirectory.join p).letters = before ++ slash :: [] := by
    obtain ⟨before, hbefore⟩ := List.getLast?_eq_some_iff.mp hslash
    unfold FilePath.join
    split
    · exact ⟨before, hbefore⟩
    · split
      · exact ⟨fs.workingDirectory.letters ++ before, by simp [hbefore]⟩
      · exact ⟨fs.workingDirectory.letters ++ slash :: before, by simp [hbefore]⟩
  obtain ⟨before, hbefore⟩ := hend
  have hsplit : parts = Text.split slash before ++ [[]] := by
    unfold FileSystem.parts at hparts
    split at hparts
    · cases hparts
    · split at hparts
      · cases hparts
      · split at hparts
        · cases hparts
        · cases hparts
          rw [FilePath.parts, hbefore, Text.split_append_mark]
          rfl
  rw [hsplit, follow_append] at hfollow
  obtain ⟨there, -, hlast⟩ := exists_of_bind_eq_ok hfollow
  obtain ⟨next, hstep, hnext⟩ := exists_of_bind_eq_ok hlast
  cases hnext
  unfold step at hstep
  split at hstep
  · cases hstep
  · cases hstep
  · next hthere =>
      have hcomponent : FilePath.component? [] = none := rfl
      simp only [hcomponent] at hstep
      cases hstep
      exact hthere

/-- What can be read can be written. -/
theorem write_of_readText {p : FilePath} {s : String} (h : fs.readText p = .ok s)
    (content : Content) : ∃ saved, fs.write p content = .ok saved := by
  obtain ⟨location, hlocate, hentry⟩ := readText_eq_ok_iff.mp h
  have hfile : fs.get? location ≠ some .directory := by
    rw [hentry]
    exact nofun
  refine ⟨_, write_eq_ok_iff.mpr ⟨fun hslash => ?_, location, hlocate, hfile, rfl⟩⟩
  exact hfile (get?_of_locate_slash hslash hlocate)

end GraphqlFragments.FileSystem
