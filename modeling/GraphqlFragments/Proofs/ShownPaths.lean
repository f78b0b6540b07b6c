import GraphqlFragments.Proofs.FilePaths
/-!
# Paths as they are shown

A path is shown with one and the same mark for all bytes that make no character. The mark looks
like nothing that counts in a path, so what is shown has the same parts and components up to the
letters of their names. It has the very same ones only if the path is a text.
-/

namespace GraphqlFragments

/-! ## Splitting -/

namespace Text

variable {α β : Type} [DecidableEq α] [DecidableEq β] {mark : α} {mark' : β} {f : α → β}

/-- A change of letters that neither makes marks nor removes any changes the parts one by one. -/
theorem split_map (hmark : ∀ a, f a = mark' ↔ a = mark) (text : List α) :
    split mark' (text.map f) = (split mark text).map (List.map f) := by
  induction text with
  | nil => rfl
  | cons c rest ih =>
      obtain ⟨first, more, hsplit⟩ := List.exists_cons_of_ne_nil (split_ne_nil mark rest)
      rw [hsplit] at ih
      rw [List.map_cons, split, split, hsplit, ih]
      by_cases hc : c = mark
      · rw [if_pos hc, if_pos ((hmark c).mpr hc)]
        rfl
      · rw [if_neg hc, if_neg fun h => hc ((hmark c).mp h)]
        rfl

end Text

/-! ## Letters -/

namespace Letter

/-- The letter that stands where a letter is shown. -/
def masked (l : Letter) : Letter := .char l.shown

theorem masked_eq_char_iff {c : Char} (h : c ≠ '\uFFFD') {l : Letter} :
    l.masked = .char c ↔ l = .char c := by
  cases l with
  | char d => rfl
  | stray bytes => simpa [masked, shown] using Ne.symm h

@[simp] theorem masked_eq_slash_iff {l : Letter} : l.masked = slash ↔ l = slash :=
  masked_eq_char_iff (by decide)

@[simp] theorem masked_eq_point_iff {l : Letter} : l.masked = point ↔ l = point :=
  masked_eq_char_iff (by decide)

theorem ofText_display (letters : List Letter) : ofText (display letters) = letters.map masked := by
  rw [ofText, display, String.toList_ofList, List.map_map]
  rfl

end Letter

/-! ## Paths -/

namespace FilePath

open Letter (slash point masked)

variable {p q wd : FilePath}

/-- The path that a path is shown as. -/
def shown (p : FilePath) : FilePath := ⟨p.text⟩

/-- A path without stray bytes. -/
def IsText (p : FilePath) : Prop := ∃ text : String, p = ⟨text⟩

theorem letters_shown (p : FilePath) : p.shown.letters = p.letters.map masked :=
  Letter.ofText_display p.letters

theorem shown_eq_iff : p.shown = p ↔ p.IsText := by
  constructor
  · intro h
    exact ⟨p.text, h.symm⟩
  · rintro ⟨text, rfl⟩
    rw [shown, text_mk]

instance (p : FilePath) : Decidable p.IsText := decidable_of_iff _ shown_eq_iff

theorem isAbsolute_shown (p : FilePath) : p.shown.isAbsolute = p.isAbsolute := by
  rw [isAbsolute, isAbsolute, letters_shown]
  cases p.letters with
  | nil => rfl
  | cons l rest => simp

theorem parts_shown (p : FilePath) : p.shown.parts = p.parts.map (List.map masked) := by
  rw [parts, letters_shown]
  exact Text.split_map (fun _ => Letter.masked_eq_slash_iff) p.letters

/-- A component as it is shown. -/
def Component.shown : Component → Component
  | .name letters => .name (letters.map masked)
  | c => c

theorem component?_map_masked (part : List Letter) :
    component? (part.map masked) = (component? part).map Component.shown := by
  have hpoint : part.map masked = [point] ↔ part = [point] := by
    simp [List.map_eq_cons_iff]
  have hpoints : part.map masked = [point, point] ↔ part = [point, point] := by
    simp [List.map_eq_cons_iff]
  simp only [component?, List.map_eq_nil_iff, hpoint, hpoints]
  split
  · rfl
  · split <;> rfl

theorem inner_shown (p : FilePath) : p.shown.inner = p.inner.map Component.shown := by
  rw [inner, inner, parts_shown, List.filterMap_map, List.map_filterMap]
  exact congrArg (p.parts.filterMap ·) (funext component?_map_masked)

/-- The parts of a path are written with slashes between them. -/
theorem letters_eq_intercalate (p : FilePath) : p.letters = [slash].intercalate p.parts := by
  rw [parts, Text.split_eq_splitOn, List.intercalate_splitOn]

/-- A part is shown as it is if what it stands for is. -/
theorem map_masked_part {part : List Letter}
    (h : ∀ c, component? part = some c → c.shown = c) : part.map masked = part := by
  unfold component? at h
  split at h
  · next hblank =>
      simp only [Bool.or_eq_true, decide_eq_true_eq] at hblank
      rcases hblank with rfl | rfl <;> rfl
  · split at h
    · next hparent =>
        rw [hparent]
        rfl
    · exact Component.name.inj (h _ rfl)

/-- The components that are shown are those of the path only if the path is a text. -/
theorem inner_shown_eq_iff : p.shown.inner = p.inner ↔ p.IsText := by
  rw [← shown_eq_iff]
  refine ⟨fun h => FilePath.ext ?_, fun h => by rw [h]⟩
  have hfixed : ∀ c ∈ p.inner, c.shown = c := by
    rw [inner_shown] at h
    exact List.map_inj_left.mp (h.trans (List.map_id p.inner).symm)
  have hparts : p.parts.map (List.map masked) = p.parts := by
    refine (List.map_inj_left.mpr fun part hpart => ?_).trans (List.map_id p.parts)
    exact map_masked_part fun c hc => hfixed c (List.mem_filterMap.mpr ⟨part, hpart, hc⟩)
  rw [letters_eq_intercalate, parts_shown, hparts, ← letters_eq_intercalate]

end FilePath

end GraphqlFragments
