import GraphqlFragments.Medium
import GraphqlFragments.Proofs.Files
/-!
# Writing on a medium

What is put to a file is found under all of its names, and nothing else changes. A text that is
written is kept, or swallowed, or does not get there, or has an end of it cut off.
-/

namespace GraphqlFragments

variable {fs after : FileSystem} {location other : Location} {content : Content} {p : FilePath}
  {text : String} {m : Medium}

theorem Content.toBytes_ofBytes (data : List UInt8) : (ofBytes data).toBytes = data := by
  unfold ofBytes
  split
  · next s hs =>
      unfold String.fromUTF8? at hs
      split at hs
      · cases hs
        rfl
      · cases hs
  · rfl

theorem Content.toBytes_upTo_prefix (content : Content) (length : Nat) :
    (content.upTo length).toBytes <+: content.toBytes := by
  rw [upTo, toBytes_ofBytes]
  exact List.take_prefix length content.toBytes

theorem FileSystem.hasFile_iff :
    fs.hasFile location = true ↔ ∃ content, fs.get? location = some (.file content) := by
  unfold hasFile
  cases fs.get? location with
  | none => simp
  | some entry => cases entry <;> simp

namespace Medium

open FileSystem (Grows get?_put_self get?_put_of_ne hasFile_iff ne_nil_of_get?_ne)

/-! ## Files with several names -/

def names (m : Medium) (location : Location) : List Location := location :: m.links location

/-- The names of some files. -/
def reached (m : Medium) (locations : List Location) : List Location := locations.flatMap m.names

theorem get?_foldl_put (entry : Entry) {places : List Location} (h : [] ∉ places) :
    (places.foldl (fun fs place => fs.put place entry) fs).get? other =
      if other ∈ places then some entry else fs.get? other := by
  induction places generalizing fs with
  | nil => rfl
  | cons place rest ih =>
      rw [List.mem_cons, not_or] at h
      rw [List.foldl_cons, ih h.2]
      by_cases hrest : other ∈ rest
      · rw [if_pos hrest, if_pos (List.mem_cons_of_mem place hrest)]
      · rw [if_neg hrest]
        by_cases hplace : other = place
        · subst hplace
          rw [if_pos List.mem_cons_self]
          exact get?_put_self fs other entry (Ne.symm h.1)
        · rw [if_neg (by simp [hplace, hrest])]
          exact get?_put_of_ne fs entry hplace

theorem get?_store (h : fs.get? location ≠ some .directory) :
    (m.store fs location content).get? other =
      if other = location ∨ other ∈ m.links location ∧ fs.hasFile other = true then
        some (.file content)
      else fs.get? other := by
  have hroot : ([] : Location) ∉ location :: (m.links location).filter fs.hasFile := by
    rw [List.mem_cons, List.mem_filter, not_or]
    refine ⟨Ne.symm (ne_nil_of_get?_ne h), fun hlinked => ?_⟩
    obtain ⟨found, hfound⟩ := hasFile_iff.mp hlinked.2
    cases hfound
  rw [store, get?_foldl_put _ hroot]
  simp only [List.mem_cons, List.mem_filter]

theorem workingDirectory_store (m : Medium) (fs : FileSystem) (location : Location)
    (content : Content) : (m.store fs location content).workingDirectory = fs.workingDirectory := by
  unfold store
  generalize location :: (m.links location).filter fs.hasFile = places
  induction places generalizing fs with
  | nil => rfl
  | cons place rest ih => exact ih (fs.put place (.file content))

/-- Files stay files, and all that change are the names of the file that is written. -/
theorem grows_store (m : Medium) (h : fs.get? location ≠ some .directory) (content : Content) :
    Grows (m.reached [location]) fs (m.store fs location content) := by
  rw [reached, List.flatMap_singleton, names]
  refine ⟨workingDirectory_store m fs location content, fun other hdirectory => ?_,
    fun other old hfile => ?_⟩
  · rw [get?_store h, if_neg, hdirectory]
    rintro (rfl | ⟨-, hfile⟩)
    · exact h hdirectory
    · obtain ⟨found, hfound⟩ := hasFile_iff.mp hfile
      rw [hdirectory] at hfound
      cases hfound
  · rw [get?_store h]
    split
    · next hreached =>
        refine ⟨content, rfl, fun hnotMem => absurd ?_ hnotMem⟩
        exact List.mem_cons.mpr (hreached.imp_right fun hlinked => hlinked.1)
    · exact ⟨old, hfile, fun _ => rfl⟩

/-- Where there is nothing, no file is made but the one that is written. -/
theorem get?_store_of_none (h : fs.get? location ≠ some .directory)
    (hnone : fs.get? other = none) (hother : other ≠ location) :
    (m.store fs location content).get? other = none := by
  rw [get?_store h, if_neg, hnone]
  rintro (hsame | ⟨-, hfile⟩)
  · exact hother hsame
  · obtain ⟨found, hfound⟩ := hasFile_iff.mp hfile
    rw [hnone] at hfound
    cases hfound

/-- What a file holds afterwards has been put there, or it has held it before. -/
theorem file_of_store (h : fs.get? location ≠ some .directory) {found : Content}
    (hfound : (m.store fs location content).get? other = some (.file found)) :
    fs.get? other = some (.file found) ∨ other ∈ m.names location ∧ found = content := by
  rw [get?_store h] at hfound
  split at hfound
  · next hreached =>
      cases hfound
      exact Or.inr
        ⟨List.mem_cons.mpr (hreached.imp_right fun hlinked => hlinked.1), rfl⟩
  · exact Or.inl hfound

theorem get?_store_self (h : fs.get? location ≠ some .directory) :
    (m.store fs location content).get? location = some (.file content) := by
  rw [get?_store h, if_pos (Or.inl rfl)]

/-! ## Texts -/

/-- All that can become of a text. -/
theorem write_cases {ended : Except IoFault Unit} (h : m.write fs p text = (ended, after)) :
    (∃ fault, ended = .error fault ∧ after = fs) ∨
      ∃ location, fs.locateFile p = .ok location ∧
        ((ended = .ok () ∧ m.fate fs location text = .swallowed ∧ after = fs) ∨
          (ended = .ok () ∧ after = m.store fs location (.text text)) ∨
          ∃ length fault, ended = .error fault ∧ m.fate fs location text = .cut length fault ∧
            after = m.store fs location ((Content.text text).upTo length)) := by
  unfold write at h
  split at h
  · next fault _ =>
      cases h
      exact Or.inl ⟨fault, rfl, rfl⟩
  · next location hlocate =>
      split at h
      · cases h
        exact Or.inr ⟨location, hlocate, Or.inr (Or.inl ⟨rfl, rfl⟩)⟩
      · next hfate =>
          cases h
          exact Or.inr ⟨location, hlocate, Or.inl ⟨rfl, hfate, rfl⟩⟩
      · next fault _ =>
          cases h
          exact Or.inl ⟨fault, rfl, rfl⟩
      · next length fault hfate =>
          cases h
          exact Or.inr ⟨location, hlocate, Or.inr (Or.inr ⟨length, fault, rfl, hfate, rfl⟩)⟩

theorem write_sound_eq_ok_iff :
    sound.write fs p text = (.ok (), after) ↔ fs.write p (.text text) = .ok after := by
  unfold write FileSystem.write
  cases fs.locateFile p with
  | error fault => exact ⟨nofun, nofun⟩
  | ok location =>
      constructor
      · intro h
        cases h
        rfl
      · intro h
        cases h
        rfl

end Medium

end GraphqlFragments
