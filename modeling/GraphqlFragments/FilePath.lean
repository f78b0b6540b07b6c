import GraphqlFragments.Text.Letter
import GraphqlFragments.Text.Split
/-!
# File paths

A path is written in letters, whose parts stand between slashes. What it names is given
by its components: empty parts and inner parts `.` do not count, but they stay where they
are written.
-/

namespace GraphqlFragments

@[ext]
structure FilePath where
  ofLetters ::
  letters : List Letter
  deriving DecidableEq, Repr

namespace FilePath

open Letter (slash point)

/-- The path that a text is. -/
abbrev mk (text : String) : FilePath := ⟨text⟩

/-- A path as it is shown. Unless the path is a text, this is another path. -/
def text (p : FilePath) : String := Letter.display p.letters

@[simp] theorem text_mk (text : String) : (⟨text⟩ : FilePath).text = text :=
  Letter.display_ofText text

inductive Component
  | root
  /-- A part `.` at the beginning of a relative path. -/
  | current
  | parent
  | name (letters : List Letter)
  deriving DecidableEq, Repr

/-- A part of a path with the component it stands for, if any. -/
structure Piece where
  part : List Letter
  component : Option Component
  deriving DecidableEq, Repr

/-! ## Parts and components -/

/-- The parts between the slashes. -/
def parts (p : FilePath) : List (List Letter) := Text.split slash p.letters

/-- The component that a part stands for where it is not the first one. -/
def component? (part : List Letter) : Option Component :=
  if part = [] || part = [point] then none
  else if part = [point, point] then some .parent
  else some (.name part)

def firstComponent? (isAbsolute : Bool) (part : List Letter) : Option Component :=
  if isAbsolute then some .root
  else if part = [point] then some .current
  else component? part

/-- An absolute path begins at the root. -/
def isAbsolute (p : FilePath) : Bool := p.letters.head? = some slash

def pieces (p : FilePath) : List Piece :=
  match p.parts with
  | [] => []
  | first :: rest =>
      ⟨first, firstComponent? p.isAbsolute first⟩ ::
        rest.map fun part => ⟨part, component? part⟩

def components (p : FilePath) : List Component := p.pieces.filterMap Piece.component

/-- The path that successive pieces make. -/
def ofPieces : List Piece → FilePath
  | [⟨_, some .root⟩] => ⟨"/"⟩
  | pieces => ⟨[slash].intercalate (pieces.map Piece.part)⟩

def dropBlank (pieces : List Piece) : List Piece :=
  pieces.dropWhile fun piece => piece.component.isNone

def dropBlankEnd (pieces : List Piece) : List Piece := (dropBlank pieces.reverse).reverse

/-! ## Operations -/

/-- Takes a path from a directory; an absolute one stands for itself. -/
def join (dir p : FilePath) : FilePath :=
  if p.isAbsolute then p
  else if dir.letters = [] || dir.letters.getLast? = some slash then
    ⟨dir.letters ++ p.letters⟩
  else ⟨dir.letters ++ slash :: p.letters⟩

/-- The path without its last component. -/
def parent? (p : FilePath) : Option FilePath :=
  match dropBlank p.pieces.reverse with
  | [] => none
  | last :: before =>
      if last.component = some .root then none
      else some (ofPieces (dropBlank before).reverse)

/-- The directory of a path, which is the empty path if it has none. -/
def dir (p : FilePath) : FilePath := p.parent?.getD ⟨""⟩

/-- Drops pieces up to the last of some components. -/
def dropComponents : Nat → List Piece → List Piece
  | 0, pieces => pieces
  | _, [] => []
  | n + 1, piece :: rest =>
      if piece.component.isSome then dropComponents n rest else dropComponents (n + 1) rest

/-- The rest of a path below a directory, if it lies there. -/
def stripPrefix? (p dir : FilePath) : Option FilePath :=
  if dir.components.isPrefixOf p.components then
    let rest := dropComponents dir.components.length p.pieces
    let rest := if dir.components.isEmpty then rest else dropBlank rest
    some (ofPieces (dropBlankEnd rest))
  else none

/-- The last component, if it is a name. -/
def fileName? (p : FilePath) : Option (List Letter) :=
  match p.components.getLast? with
  | some (.name letters) => some letters
  | _ => none

/-- What follows the last point of the file name, unless the name begins there.
-/
def extension? (p : FilePath) : Option (List Letter) := do
  let reversed := (← p.fileName?).reverse
  let ending := reversed.takeWhile (· ≠ point)
  if ending.length + 1 < reversed.length then some ending.reverse else none

/-- The directories around a path, the nearest one first. -/
def ancestors (p : FilePath) : List FilePath :=
  go p.pieces.length p
where
  go : Nat → FilePath → List FilePath
    | 0, _ => []
    | left + 1, p =>
        match p.parent? with
        | none => []
        | some dir => dir :: go left dir

end FilePath

end GraphqlFragments
