import GraphqlFragments.FilePath
/-!
# File systems

A file system maps locations to directories and files. A path is followed part
by part from the working directory, through directories that have to exist.

The file systems that are meant have names that are text. Nothing in them is a link to
something else or a file of a special kind, and what is asked for is either done or left
undone, so a fault leaves everything as it was. Media say what else may happen to a text
that is written.
-/

namespace GraphqlFragments

open Letter (slash)

inductive IoFault
  | notFound
  | alreadyExists
  | notDirectory
  | isDirectory
  | nameTooLong
  | illegalName
  | zeroInPath
  | notText
  | noRoot
  | other (text : String)
  deriving DecidableEq, Repr

def IoFault.message : IoFault → String
  | notFound => "No such file or directory (os error 2)"
  | alreadyExists => "File exists (os error 17)"
  | notDirectory => "Not a directory (os error 20)"
  | isDirectory => "Is a directory (os error 21)"
  | nameTooLong => "File name too long (os error 36)"
  | illegalName => "Invalid or incomplete multibyte or wide character (os error 84)"
  | zeroInPath => "file name contained an unexpected NUL byte"
  | notText => "stream did not contain valid UTF-8"
  | noRoot => "failed to create whole tree"
  | other text => text

/-- What a file holds. Bytes are for files that are no text. -/
inductive Content
  | text (s : String)
  | bytes (data : List UInt8)
  deriving DecidableEq, Repr

def Content.ofBytes (data : List UInt8) : Content :=
  match String.fromUTF8? ⟨data.toArray⟩ with
  | some s => text s
  | none => bytes data

def Content.toBytes : Content → List UInt8
  | text s => s.toUTF8.data.toList
  | bytes data => data

/-- Content that ends after some bytes. -/
def Content.upTo (content : Content) (length : Nat) : Content :=
  ofBytes (content.toBytes.take length)

inductive Entry
  | directory
  | file (content : Content)
  deriving DecidableEq, Repr

/-- The names on the way from the root. -/
abbrev Location := List String

structure FileSystem where
  entries : List (Location × Entry)
  /-- An absolute path. -/
  workingDirectory : FilePath
  deriving DecidableEq, Repr

namespace FileSystem

/-! ## Locations -/

/-- What there is at a location. The root is always a directory. -/
def get? (fs : FileSystem) (location : Location) : Option Entry :=
  if location.isEmpty then some .directory else fs.entries.lookup location

def put (fs : FileSystem) (location : Location) (entry : Entry) : FileSystem :=
  { fs with entries := (location, entry) :: fs.entries.filter fun e => e.1 != location }

@[simp] theorem get?_put_self (fs : FileSystem) (location : Location) (entry : Entry)
    (h : location ≠ []) : (fs.put location entry).get? location = some entry := by
  simp [get?, put, h]

private theorem lookup_filter_of_ne {location other : Location} (h : other ≠ location)
    (entries : List (Location × Entry)) :
    (entries.filter fun e => e.1 != location).lookup other = entries.lookup other := by
  induction entries with
  | nil => rfl
  | cons e rest ih =>
      obtain ⟨l, value⟩ := e
      by_cases hl : l = location
      · subst hl
        simp [List.lookup_cons, beq_eq_false_iff_ne.2 h, ih]
      · simp [List.lookup_cons, hl, ih]

theorem get?_put_of_ne (fs : FileSystem) {location other : Location} (entry : Entry)
    (h : other ≠ location) : (fs.put location entry).get? other = fs.get? other := by
  simp only [get?, put, List.lookup_cons, beq_eq_false_iff_ne.2 h,
    lookup_filter_of_ne h]

/-! ## Following paths -/

/-- The most bytes that a name may have. -/
def nameLimit : Nat := 255

/-- The most bytes that a path may have. -/
def pathLimit : Nat := 4095

/-- The location of a name in a directory. -/
def enter (location : Location) (name : List Letter) : Except IoFault Location :=
  if nameLimit < Letter.sizeAll name then .error .nameTooLong
  else
    match Letter.text? name with
    | none => .error .illegalName
    | some name => .ok (location ++ [name])

/-- Goes on from a directory by one part of a path. -/
def step (fs : FileSystem) (location : Location) (part : List Letter) :
    Except IoFault Location :=
  match fs.get? location with
  | none => .error .notFound
  | some (.file _) => .error .notDirectory
  | some .directory =>
      match FilePath.component? part with
      | some (.name name) => enter location name
      | some .parent => .ok location.dropLast
      | _ => .ok location

def follow (fs : FileSystem) (location : Location) :
    List (List Letter) → Except IoFault Location
  | [] => .ok location
  | part :: rest => do fs.follow (← fs.step location part) rest

/-- The parts of a path, taken from the working directory. The empty path names
nothing. -/
def parts (fs : FileSystem) (p : FilePath) : Except IoFault (List (List Letter)) :=
  if p.letters = [] then .error .notFound
  else if .char '\x00' ∈ p.letters then .error .zeroInPath
  else if pathLimit < Letter.sizeAll p.letters then .error .nameTooLong
  else .ok ((fs.workingDirectory.join p).parts)

/-- The location that a path names, whether or not something is there. A slash
at the end asks for a directory. -/
def locate (fs : FileSystem) (p : FilePath) : Except IoFault Location := do
  fs.follow [] (← fs.parts p)

/-- Parts without the empty ones at their end. -/
def trimEnd (parts : List (List Letter)) : List (List Letter) :=
  (parts.reverse.dropWhile List.isEmpty).reverse

/-- The location of a directory to be made, which may have a slash behind it. -/
def locateNew (fs : FileSystem) (p : FilePath) : Except IoFault Location := do
  fs.follow [] (trimEnd (← fs.parts p))

/-- The directory around what a path names. It has to exist. -/
def locateAround (fs : FileSystem) (p : FilePath) : Except IoFault Location := do
  fs.follow [] ((trimEnd (← fs.parts p)).dropLast ++ [[]])

def find? (fs : FileSystem) (p : FilePath) : Option Entry :=
  (fs.locate p).toOption.bind fs.get?

/-! ## Reading -/

def fileExists (fs : FileSystem) (p : FilePath) : Bool := (fs.find? p).isSome

def isFile (fs : FileSystem) (p : FilePath) : Bool :=
  match fs.find? p with
  | some (.file _) => true
  | _ => false

def isDirectory (fs : FileSystem) (p : FilePath) : Bool := fs.find? p = some .directory

def readText (fs : FileSystem) (p : FilePath) : Except IoFault String := do
  match fs.get? (← fs.locate p) with
  | none => .error .notFound
  | some .directory => .error .isDirectory
  | some (.file (.bytes _)) => .error .notText
  | some (.file (.text s)) => .ok s

/-! ## Writing -/

/-- The location of a file that is to be written, in a directory that exists. What has a slash
behind it is no file, whatever its name. -/
def locateFile (fs : FileSystem) (p : FilePath) : Except IoFault Location := do
  if p.letters.getLast? = some slash then
    let _ ← fs.locateAround p
    .error .isDirectory
  else
    let location ← fs.locate p
    if fs.get? location = some .directory then .error .isDirectory
    else .ok location

/-- Replaces a file or makes a new one. -/
def write (fs : FileSystem) (p : FilePath) (content : Content) : Except IoFault FileSystem := do
  return fs.put (← fs.locateFile p) (.file content)

end FileSystem

end GraphqlFragments
