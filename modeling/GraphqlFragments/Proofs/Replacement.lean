import Mathlib.Data.List.Infix
/-!
# Replacing text

Every place where a pattern stands in a text is filled with another text, from left to right and
one place after another. A character that the pattern does not have divides the text into parts
that are treated one by one (`replace_append_cons`), and the part that ends with the only place of
the pattern gets its new end (`replace_append_pattern`).
-/

namespace GraphqlFragments.Text

/-- Replaces a pattern in a text some of whose characters belong to a place that is filled
already. -/
def replaceAfter (pattern new : List Char) : Nat → List Char → List Char
  | _, [] => []
  | skipped + 1, _ :: rest => replaceAfter pattern new skipped rest
  | 0, c :: rest =>
      if pattern.isPrefixOf (c :: rest) then
        new ++ replaceAfter pattern new (pattern.length - 1) rest
      else c :: replaceAfter pattern new 0 rest

/-- Replaces a pattern, which is not empty, wherever it stands in a text. -/
def replace (pattern new text : List Char) : List Char := replaceAfter pattern new 0 text

variable {pattern new front back text : List Char} {c : Char}

theorem replace_cons_of_notPrefix {rest : List Char} (h : ¬pattern <+: c :: rest) :
    replace pattern new (c :: rest) = c :: replace pattern new rest := by
  have hprefix : pattern.isPrefixOf (c :: rest) = false := by
    simpa [Bool.eq_false_iff] using h
  simp [replace, replaceAfter, hprefix]

theorem replaceAfter_length (pattern new : List Char) (text : List Char) :
    replaceAfter pattern new text.length text = [] := by
  induction text with
  | nil => rfl
  | cons c rest ih => simpa [replaceAfter] using ih

/-- A text without the pattern stays as it is. -/
theorem replace_of_not_isInfix (h : ¬pattern <:+: text) : replace pattern new text = text := by
  induction text with
  | nil => rfl
  | cons c rest ih =>
      rw [List.infix_cons_iff, not_or] at h
      rw [replace_cons_of_notPrefix h.1, ih h.2]

theorem replace_self (hne : pattern ≠ []) : replace pattern new pattern = new := by
  obtain ⟨c, rest, rfl⟩ := List.exists_cons_of_ne_nil hne
  have hrest := replaceAfter_length (c :: rest) new rest
  simp [replace, replaceAfter, hrest]

/-- A pattern that stands at the end of a text and nowhere before is replaced there. -/
theorem replace_append_pattern (hne : pattern ≠ [])
    (h : ¬pattern <:+: front ++ pattern.dropLast) :
    replace pattern new (front ++ pattern) = front ++ new := by
  induction front with
  | nil => exact replace_self hne
  | cons c front ih =>
      rw [List.cons_append, List.infix_cons_iff, not_or] at h
      have hprefix : ¬pattern <+: c :: (front ++ pattern) := by
        intro hprefix
        apply h.1
        have hshort : c :: (front ++ pattern.dropLast) <+: c :: (front ++ pattern) :=
          (List.prefix_append_right_inj (c :: front)).mpr (List.dropLast_prefix pattern)
        apply List.prefix_of_prefix_length_le hprefix hshort
        simp
        omega
      rw [List.cons_append, replace_cons_of_notPrefix hprefix, ih h.2, List.cons_append]

/-! ## Parts of a text -/

/-- A beginning of a text ends before any character that it does not have. -/
theorem prefix_of_prefix_append_cons (hc : c ∉ pattern) (h : pattern <+: front ++ c :: back) :
    pattern <+: front := by
  have hmark : front ++ [c] <+: front ++ c :: back := by simp
  rcases List.prefix_or_prefix_of_prefix h hmark with hshort | hlong
  · rcases List.prefix_concat_iff.mp hshort with rfl | hshort
    · simp at hc
    · exact hshort
  · exact absurd (hlong.subset (by simp)) hc

theorem replaceAfter_append_cons (hne : pattern ≠ []) (hc : c ∉ pattern) {skipped : Nat}
    (hskipped : skipped ≤ front.length) :
    replaceAfter pattern new skipped (front ++ c :: back) =
      replaceAfter pattern new skipped front ++ c :: replace pattern new back := by
  induction front generalizing skipped with
  | nil =>
      obtain rfl : skipped = 0 := by simpa using hskipped
      have hprefix : ¬pattern <+: c :: back := fun h =>
        hne (List.prefix_nil.mp (prefix_of_prefix_append_cons hc h))
      exact replace_cons_of_notPrefix hprefix
  | cons d front ih =>
      cases skipped with
      | succ skipped =>
          apply ih
          simpa using hskipped
      | zero =>
          by_cases hprefix : pattern <+: d :: front
          · have hlength : pattern.length - 1 ≤ front.length := by
              have := hprefix.length_le
              simp at this
              omega
            have hlonger : pattern <+: d :: (front ++ c :: back) :=
              hprefix.trans (List.prefix_append (d :: front) (c :: back))
            simp [replaceAfter, hprefix, hlonger, ih hlength]
          · have hlonger : ¬pattern <+: d :: (front ++ c :: back) := fun h =>
              hprefix (prefix_of_prefix_append_cons hc h)
            have hrest := ih (Nat.zero_le front.length)
            simp [replaceAfter, hprefix, hlonger, hrest]

/-- What stands before a character that the pattern does not have and what stands behind it are
treated by themselves. -/
theorem replace_append_cons (hne : pattern ≠ []) (hc : c ∉ pattern) :
    replace pattern new (front ++ c :: back) =
      replace pattern new front ++ c :: replace pattern new back :=
  replaceAfter_append_cons hne hc (Nat.zero_le _)

example : replace "ana".toList "o".toList "bananana ana".toList = "bono o".toList := by decide

/-- A way of changing texts that treats what stands before a character and what stands behind it
by themselves. -/
structure Divides (c : Char) (f : List Char → List Char) : Prop where
  nil : f [] = []
  cons : ∀ front back, f (front ++ c :: back) = f front ++ c :: f back

theorem divides_id (c : Char) : Divides c id := ⟨rfl, fun _ _ => rfl⟩

theorem divides_replace (hne : pattern ≠ []) (hc : c ∉ pattern) (new : List Char) :
    Divides c (replace pattern new) :=
  ⟨rfl, fun _ _ => replace_append_cons hne hc⟩

theorem Divides.comp {f g : List Char → List Char} (hf : Divides c f) (hg : Divides c g) :
    Divides c (f ∘ g) where
  nil := by simp [hf.nil, hg.nil]
  cons front back := by simp [hf.cons, hg.cons]

/-- Characters in front of a text stay there. -/
theorem Divides.replicate_append {f : List Char → List Char} (hf : Divides c f) (n : Nat)
    (text : List Char) : f (List.replicate n c ++ text) = List.replicate n c ++ f text := by
  induction n with
  | zero => rfl
  | succ n ih =>
      have hfirst := hf.cons [] (List.replicate n c ++ text)
      rw [hf.nil, ih] at hfirst
      simpa [List.replicate_succ] using hfirst

/-- Texts that the character joins are treated one by one. -/
theorem Divides.intercalate {f : List Char → List Char} (hf : Divides c f)
    (parts : List (List Char)) : f ([c].intercalate parts) = [c].intercalate (parts.map f) := by
  induction parts with
  | nil => exact hf.nil
  | cons part rest ih =>
      cases rest with
      | nil => simp
      | cons next rest =>
          rw [List.map_cons, List.map_cons, List.intercalate_cons_cons, List.intercalate_cons_cons,
            ← List.map_cons, ← ih]
          simp [hf.cons]

end GraphqlFragments.Text
