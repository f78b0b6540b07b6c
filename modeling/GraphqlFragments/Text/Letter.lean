/-!
# Letters

What the names and paths of an operating system are made of. Most letters are characters, but
bytes that make no character can stand among them. Whoever shows such a name puts the same mark
for all of these, so it cannot be told from what is shown which name it was.
-/

namespace GraphqlFragments

/-- What is read next of some bytes: a character or, where there is none, as many bytes as could
begin one, or a single byte. -/
inductive Letter
  | char (c : Char)
  | stray (bytes : List UInt8)
  deriving DecidableEq, Repr

namespace Letter

instance : Coe Char Letter := ⟨char⟩

def slash : Letter := '/'

def point : Letter := '.'

/-- How many bytes there are. -/
def size : Letter → Nat
  | char c => c.utf8Size
  | stray bytes => bytes.length

def char? : Letter → Option Char
  | char c => some c
  | stray _ => none

/-- The character that a letter is shown as. -/
def shown : Letter → Char
  | char c => c
  | stray _ => '\uFFFD'

/-! ## Sequences of letters -/

def ofText (s : String) : List Letter := s.toList.map char

instance : Coe String (List Letter) := ⟨ofText⟩

/-- The text that some letters are, if all of them are characters. -/
def text? (letters : List Letter) : Option String := (letters.mapM char?).map String.ofList

/-- The text that some letters are shown as. -/
def display (letters : List Letter) : String := String.ofList (letters.map shown)

def sizeAll : List Letter → Nat
  | [] => 0
  | l :: rest => l.size + sizeAll rest

@[simp] theorem sizeAll_append (ls more : List Letter) :
    sizeAll (ls ++ more) = sizeAll ls + sizeAll more := by
  induction ls with
  | nil => simp [sizeAll]
  | cons l rest ih => simp [sizeAll, ih, Nat.add_assoc]

@[simp] theorem ofText_append (s t : String) : ofText (s ++ t) = ofText s ++ ofText t := by
  simp [ofText]

@[simp] theorem char_mem_ofText_iff {c : Char} {s : String} : char c ∈ ofText s ↔ c ∈ s.toList := by
  simp [ofText]

@[simp] theorem text?_ofText (s : String) : text? (ofText s) = some s := by
  have hchars (cs : List Char) : (cs.map char).mapM char? = some cs := by
    induction cs with
    | nil => rfl
    | cons c rest ih => simp [List.mapM_cons, ih, char?]
  simp [text?, ofText, hchars]

@[simp] theorem display_ofText (s : String) : display (ofText s) = s := by
  have hshown : shown ∘ char = id := rfl
  simp [display, ofText, hshown]

end Letter

end GraphqlFragments
