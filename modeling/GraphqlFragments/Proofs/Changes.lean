import GraphqlFragments.Proofs.Writing
/-!
# What writing changes

Writing makes directories that are missing on the way to a path and replaces the files that it
writes, and it changes nothing else. This holds of every step whether or not it succeeds, so it
holds of a sequence of steps up to any one that fails.
-/

namespace GraphqlFragments

namespace FileSystem

open Letter (point sizeAll sizeAll_append)

variable {m : Medium} {fs mid after : FileSystem} {location : Location} {p dir : FilePath}
  {around more : List FilePath} {written later : List (Location × String)}
  {cut : Option (Location × String)} {text : String}

/-! ## Directories -/

/-- All that is different afterwards is that there are directories which were missing and lie on
the way to some paths. -/
structure Makes (around : List FilePath) (fs after : FileSystem) : Prop where
  grows : Grows [] fs after
  new : ∀ location, fs.get? location = none → after.get? location = none ∨
    after.get? location = some .directory ∧ ∃ d ∈ around, after.locate d = .ok location

namespace Makes

theorem refl (around : List FilePath) (fs : FileSystem) : Makes around fs fs :=
  ⟨.refl [] fs, fun _ hnone => Or.inl hnone⟩

theorem mono (h : Makes around fs after) (hsubset : around ⊆ more) : Makes more fs after := by
  refine ⟨h.grows, fun location hnone => (h.new location hnone).imp_right ?_⟩
  rintro ⟨hmade, d, hd, hlocate⟩
  exact ⟨hmade, d, hsubset hd, hlocate⟩

theorem trans (h : Makes around fs mid) (hmore : Makes around mid after) :
    Makes around fs after := by
  refine ⟨h.grows.trans hmore.grows, fun location hnone => ?_⟩
  -- A directory that has been made first stays, and so does its path.
  rcases h.new location hnone with hstill | ⟨hmade, d, hd, hlocate⟩
  · exact hmore.new location hstill
  · exact Or.inr ⟨hmore.grows.directory location hmade, d, hd, hmore.grows.locate hlocate⟩

end Makes

theorem makes_of_makeDirectory (h : m.makeDirectory fs p = .ok after) : Makes [p] fs after := by
  have hgrows := (grows_of_makeDirectory h).1
  obtain ⟨location, hlocate, hput⟩ := exists_of_bind_eq_ok h
  split at hput
  · cases hput
  · next hfree =>
      split at hput
      · cases hput
      cases hput
      rw [Option.not_isSome_iff_eq_none] at hfree
      have hroot : location ≠ [] := by
        rintro rfl
        cases hfree
      have hmade := get?_put_self fs location .directory hroot
      refine ⟨hgrows, fun other hnone => ?_⟩
      by_cases hother : other = location
      · subst hother
        refine Or.inr ⟨hmade, p, List.mem_singleton_self p, ?_⟩
        rw [locate_eq_ok_iff_locateNew hmade]
        obtain ⟨parts, hparts, hfollow⟩ := exists_of_bind_eq_ok hlocate
        rw [locateNew, hgrows.parts, hparts]
        exact hgrows.follow hfollow
      · exact Or.inl ((get?_put_of_ne fs _ hother).trans hnone)

theorem makes_of_ensureDirectory (m : Medium) (fs : FileSystem) (p : FilePath) :
    Makes [p] fs (m.ensureDirectory fs p).2 := by
  unfold Medium.ensureDirectory
  cases hmade : m.makeDirectory fs p with
  | ok made => exact makes_of_makeDirectory hmade
  | error fault =>
      dsimp only
      split
      · exact .refl _ fs
      · exact .refl _ fs

/-- Making a directory with those around it changes nothing but directories on the way, also if
it fails. -/
theorem makes_of_ensureWithin (m : Medium) (fs : FileSystem) (p : FilePath)
    (around : List FilePath) : Makes (p :: around) fs (m.ensureWithin fs p around).2 := by
  have hlast (mid : FileSystem) (p : FilePath) (around : List FilePath) :
      Makes (p :: around) mid (m.ensureDirectory mid p).2 :=
    (makes_of_ensureDirectory m mid p).mono (by simp)
  induction around generalizing fs p with
  | nil =>
      unfold Medium.ensureWithin
      split
      · exact .refl _ fs
      · split
        · exact .refl _ fs
        · exact hlast fs p []
  | cons dir farther ih =>
      unfold Medium.ensureWithin
      split
      · exact .refl _ fs
      · split
        · have haround := (ih fs dir).mono (List.subset_cons_self p _)
          cases hmade : m.ensureWithin fs dir farther with
          | mk result mid =>
              rw [hmade] at haround
              simp only [hmade]
              cases result with
              | error fault => exact haround
              | ok => exact haround.trans (hlast mid p _)
        · exact hlast fs p _

theorem makes_of_ensureDirectories (m : Medium) (fs : FileSystem) (p : FilePath) :
    Makes (p :: p.ancestors) fs (m.ensureDirectories fs p).2 :=
  makes_of_ensureWithin m fs p p.ancestors

/-! ## Files -/

/-- What a file may hold if the writing of a text to it is broken off. -/
def IsBroken (m : Medium) (w : Location × String) (content : Content) : Prop :=
  content.toBytes <+: (Content.text w.2).toBytes ∧
    ∃ now length fault, m.fate now w.1 w.2 = .cut length fault

/-- All that is different afterwards is what some files hold: some that have been written, and
perhaps one of which the writing has been broken off. A file that is written has its text unless
it is a device, or is also written under another name. -/
structure Writes (m : Medium) (written : List (Location × String))
    (cut : Option (Location × String)) (fs after : FileSystem) : Prop where
  grows : Grows (m.reached ((written ++ cut.toList).map Prod.fst)) fs after
  /-- Nothing is new but the files that are written. -/
  absent : ∀ location ∉ (written ++ cut.toList).map Prod.fst,
    fs.get? location = none → after.get? location = none
  /-- What a file holds it has held before, or has been written to one of its names. -/
  file : ∀ location content, after.get? location = some (.file content) →
    fs.get? location = some (.file content) ∨
      (∃ w ∈ written, location ∈ m.names w.1 ∧ content = .text w.2) ∨
      ∃ w ∈ cut, location ∈ m.names w.1 ∧ IsBroken m w content
  holds : ∀ w ∈ written, (∀ v ∈ written ++ cut.toList, v.1 ≠ w.1 → w.1 ∉ m.links v.1) →
    after.get? w.1 = some (.file (.text w.2)) ∨
      after.get? w.1 = fs.get? w.1 ∧ ∃ now, m.fate now w.1 w.2 = .swallowed
  begins : ∀ w ∈ cut, ∃ content, after.get? w.1 = some (.file content) ∧ IsBroken m w content

/-- Directories are made on the way to some paths, and then files are written. -/
def Changes (m : Medium) (around : List FilePath) (written : List (Location × String))
    (cut : Option (Location × String)) (fs after : FileSystem) : Prop :=
  ∃ mid, Makes around fs mid ∧ Writes m written cut mid after

namespace Writes

theorem refl (m : Medium) (fs : FileSystem) : Writes m [] none fs fs where
  grows := .refl _ fs
  absent := fun _ _ hnone => hnone
  file := fun _ _ hfile => Or.inl hfile
  holds := fun _ hw => nomatch hw
  begins := fun _ hw => nomatch hw

/-- What has none of the names of some files is not reached. -/
theorem notMem_reached (h : ∀ w ∈ written, w.1 ≠ location ∧ location ∉ m.links w.1) :
    location ∉ m.reached (written.map Prod.fst) := by
  intro hreached
  obtain ⟨target, htarget, hmem⟩ := List.mem_flatMap.mp hreached
  obtain ⟨w, hw, rfl⟩ := List.mem_map.mp htarget
  rcases List.mem_cons.mp hmem with hsame | hlinked
  · exact (h w hw).1 hsame.symm
  · exact (h w hw).2 hlinked

/-- What is not reached stays. -/
theorem get?_eq (h : Writes m written cut fs after)
    (hlocation : location ∉ m.reached ((written ++ cut.toList).map Prod.fst)) :
    after.get? location = fs.get? location := by
  by_cases hnone : fs.get? location = none
  · rw [hnone]
    refine h.absent location (fun hmem => hlocation ?_) hnone
    exact List.mem_flatMap_of_mem hmem List.mem_cons_self
  · exact h.grows.get?_eq hlocation hnone

theorem trans (h : Writes m written none fs mid) (hmore : Writes m later cut mid after)
    (hapart : ∀ v ∈ later ++ cut.toList, v.1 ∉ written.map Prod.fst) :
    Writes m (written ++ later) cut fs after := by
  have hlocations : (written ++ later ++ cut.toList).map Prod.fst =
      (written ++ (none : Option (Location × String)).toList).map Prod.fst ++
        (later ++ cut.toList).map Prod.fst := by
    simp
  refine ⟨?_, fun location hlocation hnone => ?_, fun location content hafter => ?_,
    fun w hw halone => ?_, hmore.begins⟩
  · rw [hlocations, Medium.reached, List.flatMap_append]
    exact h.grows.trans hmore.grows
  · rw [hlocations, List.mem_append, not_or] at hlocation
    exact hmore.absent location hlocation.2 (h.absent location hlocation.1 hnone)
  · rcases hmore.file location content hafter with hmid | ⟨w, hw, hput⟩ | hbroken
    · rcases h.file location content hmid with hfirst | ⟨w, hw, hput⟩ | ⟨w, hw, -⟩
      · exact Or.inl hfirst
      · exact Or.inr (Or.inl ⟨w, List.mem_append_left later hw, hput⟩)
      · cases hw
    · exact Or.inr (Or.inl ⟨w, List.mem_append_right written hw, hput⟩)
    · exact Or.inr (Or.inr hbroken)
  · rw [List.append_assoc] at halone
    have hlater (v : Location × String) (hv : v ∈ later ++ cut.toList) :=
      halone v (List.mem_append_right written hv)
    rcases List.mem_append.mp hw with hw | hw
    · -- What is written first is not reached by what is written later.
      have hsame : after.get? w.1 = mid.get? w.1 := by
        refine hmore.get?_eq (notMem_reached fun v hv => ?_)
        have hne : v.1 ≠ w.1 := fun heq => hapart v hv (heq ▸ List.mem_map_of_mem hw)
        exact ⟨hne, hlater v hv hne⟩
      rw [hsame]
      refine h.holds w hw fun v hv => halone v ?_
      exact List.mem_append_left _ (by simpa using hv)
    · refine (hmore.holds w hw hlater).imp_right ?_
      rintro ⟨hstays, hswallowed⟩
      refine ⟨hstays.trans (h.get?_eq (notMem_reached fun v hv => ?_)), hswallowed⟩
      rw [Option.toList_none, List.append_nil] at hv
      have hne : v.1 ≠ w.1 := fun heq =>
        hapart w (List.mem_append_left _ hw) (heq ▸ List.mem_map_of_mem hv)
      exact ⟨hne, halone v (List.mem_append_left _ hv) hne⟩

/-- On a sound medium each file that is written has its text, and no writing is broken off. -/
theorem complete_of_sound (h : Writes .sound written cut fs after) :
    (∀ w ∈ written, after.get? w.1 = some (.file (.text w.2))) ∧ cut = none := by
  refine ⟨fun w hw => ?_, ?_⟩
  · rcases h.holds w hw (fun _ _ _ => List.not_mem_nil) with hholds | ⟨-, now, hswallowed⟩
    · exact hholds
    · cases hswallowed
  · cases hcut : cut with
    | none => rfl
    | some w =>
        obtain ⟨content, -, -, now, length, fault, hbroken⟩ := h.begins w hcut
        cases hbroken

end Writes

/-- A text that is written changes nothing but its file, if it gets there. -/
theorem writes_of_write {ended : Except IoFault Unit} (h : m.write fs p text = (ended, after)) :
    ((∃ fault, ended = .error fault) ∧ after = fs) ∨
      ∃ location, after.locate p = .ok location ∧
        ((ended = .ok () ∧ Writes m [(location, text)] none fs after) ∨
          (∃ fault, ended = .error fault) ∧ Writes m [] (some (location, text)) fs after) := by
  rcases Medium.write_cases h with ⟨fault, hended, hafter⟩ | ⟨location, hlocated, hwritten⟩
  · exact Or.inl ⟨⟨fault, hended⟩, hafter⟩
  obtain ⟨-, hlocate, hfree⟩ := locateFile_eq_ok_iff.mp hlocated
  refine Or.inr ⟨location, ?_⟩
  rcases hwritten with ⟨rfl, hfate, rfl⟩ | ⟨rfl, rfl⟩ | ⟨length, fault, rfl, hfate, rfl⟩
  · refine ⟨hlocate, Or.inl ⟨rfl, .refl _ _, fun _ _ hnone => hnone,
      fun _ _ hfile => Or.inl hfile, fun w hw _ => ?_, fun _ hw => nomatch hw⟩⟩
    cases List.mem_singleton.mp hw
    exact Or.inr ⟨rfl, _, hfate⟩
  · have hgrows := m.grows_store hfree (.text text)
    refine ⟨hgrows.locate hlocate, Or.inl ⟨rfl, hgrows, fun other hother hnone => ?_,
      fun other found hfound => ?_, fun w hw _ => ?_, fun _ hw => nomatch hw⟩⟩
    · exact Medium.get?_store_of_none hfree hnone fun heq =>
        hother (List.mem_singleton.mpr heq)
    · refine (Medium.file_of_store hfree hfound).imp_right fun hput => Or.inl ?_
      exact ⟨_, List.mem_singleton_self _, hput⟩
    · cases List.mem_singleton.mp hw
      exact Or.inl (Medium.get?_store_self hfree)
  · have hgrows := m.grows_store hfree ((Content.text text).upTo length)
    have hbroken : IsBroken m (location, text) ((Content.text text).upTo length) :=
      ⟨Content.toBytes_upTo_prefix _ length, _, _, _, hfate⟩
    refine ⟨hgrows.locate hlocate, Or.inr ⟨⟨fault, rfl⟩, hgrows, fun other hother hnone => ?_,
      fun other found hfound => ?_, fun _ hw => (nomatch hw), fun w hw => ?_⟩⟩
    · exact Medium.get?_store_of_none hfree hnone fun heq =>
        hother (List.mem_singleton.mpr heq)
    · rcases Medium.file_of_store hfree hfound with hbefore | ⟨hname, rfl⟩
      · exact Or.inl hbefore
      · exact Or.inr (Or.inr ⟨_, rfl, hname, hbroken⟩)
    · cases Option.mem_some.mp hw
      exact ⟨_, Medium.get?_store_self hfree, hbroken⟩

/-! ## Files in a directory -/

theorem parts_eq_ok_iff {parts : List (List Letter)} :
    fs.parts p = .ok parts ↔ p.letters ≠ [] ∧ .char '\x00' ∉ p.letters ∧
      sizeAll p.letters ≤ pathLimit ∧ parts = (fs.workingDirectory.join p).parts := by
  unfold FileSystem.parts
  constructor
  · intro h
    split at h
    · cases h
    · split at h
      · cases h
      · split at h
        · cases h
        · next hempty hzero hlong =>
            cases h
            exact ⟨hempty, hzero, Nat.le_of_not_lt hlong, rfl⟩
  · rintro ⟨hempty, hzero, hshort, rfl⟩
    rw [if_neg hempty, if_neg hzero, if_neg (Nat.not_lt_of_le hshort)]

theorem one_le_sizeAll_ofText {name : String} (h : Letter.ofText name ≠ []) :
    1 ≤ sizeAll (Letter.ofText name) := by
  rw [Letter.ofText] at h ⊢
  cases hname : name.toList with
  | nil => exact absurd (by rw [hname]; rfl) h
  | cons c rest =>
      have hc : 0 < c.utf8Size := Char.utf8Size_pos c
      rw [List.map_cons, sizeAll, Letter.size]
      omega

/-- A directory can be named with a point behind its path if one of its files can be named. -/
theorem parts_join_point {name : String} {parts : List (List Letter)}
    (hname : FilePath.IsFileName name) (h : fs.parts (dir.join ⟨name⟩) = .ok parts) :
    ∃ before, parts = before ++ [Letter.ofText name] ∧
      fs.parts (dir.join ⟨"."⟩) = .ok (before ++ [[point]]) := by
  obtain ⟨before, hbefore⟩ := (fs.workingDirectory.join dir).exists_parts_join
  have hrelative := FilePath.isAbsolute_of_notMem hname.1
  have hpoint : (⟨"."⟩ : FilePath).isAbsolute = false := rfl
  have hletters : (dir.join ⟨"."⟩).letters = dir.front ++ [point] :=
    FilePath.letters_join_eq_front dir hpoint
  have hnameLetters : (dir.join ⟨name⟩).letters = dir.front ++ Letter.ofText name :=
    FilePath.letters_join_eq_front dir hrelative
  obtain ⟨hempty, hzero, hshort, rfl⟩ := parts_eq_ok_iff.mp h
  refine ⟨before, ?_, parts_eq_ok_iff.mpr ⟨?_, ?_, ?_, ?_⟩⟩
  · rw [FilePath.join_assoc, hbefore name hname.1]
  · rw [hletters]
    exact List.append_ne_nil_of_right_ne_nil dir.front (List.cons_ne_nil point [])
  · rw [hletters]
    rw [hnameLetters] at hzero
    simp only [List.mem_append, not_or] at hzero ⊢
    exact ⟨hzero.1, by decide⟩
  · rw [hletters, sizeAll_append]
    rw [hnameLetters, sizeAll_append] at hshort
    have hsize : sizeAll [point] ≤ sizeAll (Letter.ofText name) :=
      one_le_sizeAll_ofText hname.ne_nil
    omega
  · rw [FilePath.join_assoc, hbefore "." (by decide)]
    rfl

theorem follow_singleton {here there : Location} {part : List Letter}
    (h : fs.follow here [part] = .ok there) : fs.step here part = .ok there := by
  obtain ⟨next, hstep, hnext⟩ := exists_of_bind_eq_ok h
  cases hnext
  exact hstep

theorem eq_of_enter {here there : Location} {name : String} (h : enter here name = .ok there) :
    there = here ++ [name] := by
  rw [enter, Letter.text?_ofText] at h
  split at h
  · cases h
  · cases h
    rfl

/-- A file is located in the directory from which its name is taken. -/
theorem locate_join {name : String} (hname : FilePath.IsFileName name)
    (h : fs.locate (dir.join ⟨name⟩) = .ok location) :
    ∃ here, fs.locate (dir.join ⟨"."⟩) = .ok here ∧ location = here ++ [name] := by
  obtain ⟨parts, hparts, hfollow⟩ := exists_of_bind_eq_ok h
  obtain ⟨before, rfl, hpoint⟩ := parts_join_point hname hparts
  rw [follow_append] at hfollow
  obtain ⟨here, hhere, hlast⟩ := exists_of_bind_eq_ok hfollow
  have hstep := follow_singleton hlast
  unfold step at hstep
  split at hstep
  · cases hstep
  · cases hstep
  · next hdirectory =>
      simp only [hname.2] at hstep
      refine ⟨here, ?_, eq_of_enter hstep⟩
      have hstay : fs.follow here [[point]] = .ok here := by
        rw [follow, step, hdirectory]
        rfl
      rw [locate, hpoint]
      show fs.follow [] (before ++ [[point]]) = .ok here
      rw [follow_append, hhere]
      exact hstay

end FileSystem

end GraphqlFragments
