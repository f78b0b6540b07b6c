/-!
# Text inside text

A text contains a pattern if the pattern is a contiguous part of it.
-/

namespace GraphqlFragments.Text

/-- Whether the pattern stands somewhere in the text. -/
def contains (pattern : List Char) : List Char → Bool
  | [] => pattern.isEmpty
  | c :: rest => pattern.isPrefixOf (c :: rest) || contains pattern rest

theorem contains_eq_true_iff {pattern text : List Char} :
    contains pattern text = true ↔ pattern <:+: text := by
  induction text with
  | nil => cases pattern <;> simp [contains]
  | cons c rest ih => simp [contains, ih, List.infix_cons_iff]

end GraphqlFragments.Text
