/-!
# Splitting text

A text, or anything else that is written from left to right, is split at every occurrence
of a mark, so that there is one part more than there are marks. The lines of a text are
its parts between line feeds.
-/

namespace GraphqlFragments.Text

variable {α : Type} [DecidableEq α]

def split (mark : α) : List α → List (List α)
  | [] => [[]]
  | c :: rest =>
      if c = mark then [] :: split mark rest
      else
        match split mark rest with
        | [] => [[c]]
        | part :: parts => (c :: part) :: parts

theorem split_of_notMem {mark : α} {part : List α} (h : mark ∉ part) :
    split mark part = [part] := by
  induction part with
  | nil => rfl
  | cons c rest ih =>
      simp only [List.mem_cons, not_or] at h
      simp [split, Ne.symm h.1, ih h.2]

/-- A carriage return before a line feed belongs to the end of the line. -/
def dropReturn (line : List Char) : List Char :=
  if line.getLast? = some '\r' then line.dropLast else line

/-- The lines of a text that ends with its last line. -/
def lines (text : List Char) : List (List Char) := (split '\n' text).map dropReturn

end GraphqlFragments.Text
