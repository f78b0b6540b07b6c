import GraphqlFragments.FileSystem
/-!
# Media

What becomes of a text that is written is not settled by the file system alone. There may be no
more room before the text comes to its end, a device keeps nothing of what it takes, and a file
that has several names changes under all of them. A medium says which of this happens. The sound
one does all that it is asked to.
-/

namespace GraphqlFragments

/-- What becomes of a text that is written to a file. -/
inductive Fate
  | kept
  /-- The file is a device, which takes the text and keeps nothing. -/
  | swallowed
  /-- The file is not opened. -/
  | refused (fault : IoFault)
  /-- The file has been emptied, and a fault ends the writing after some bytes. -/
  | cut (length : Nat) (fault : IoFault)
  deriving DecidableEq, Repr

def FileSystem.hasFile (fs : FileSystem) (location : Location) : Bool :=
  match fs.get? location with
  | some (.file _) => true
  | _ => false

structure Medium where
  fate : FileSystem → Location → String → Fate
  /-- Other locations of the file that is at a location. -/
  links : Location → List Location
  /-- What keeps a directory from being made, if anything. -/
  denial? : FileSystem → Location → Option IoFault

namespace Medium

def sound : Medium := ⟨fun _ _ _ => .kept, fun _ => [], fun _ _ => none⟩

def nullDevice : Location := ["dev", "null"]

/-- A sound medium but for the one device that every machine has. -/
def usual : Medium :=
  { sound with
    fate := fun _ location _ => if location = nullDevice then .swallowed else .kept }

/-! ## Files -/

/-- Puts something to a file under all of its names. -/
def store (m : Medium) (fs : FileSystem) (location : Location) (content : Content) : FileSystem :=
  let places := location :: (m.links location).filter fs.hasFile
  places.foldl (fun fs place => fs.put place (.file content)) fs

def write (m : Medium) (fs : FileSystem) (p : FilePath) (text : String) :
    Except IoFault Unit × FileSystem :=
  match fs.locateFile p with
  | .error fault => (.error fault, fs)
  | .ok location =>
      match m.fate fs location text with
      | .kept => (.ok (), m.store fs location (.text text))
      | .swallowed => (.ok (), fs)
      | .refused fault => (.error fault, fs)
      | .cut length fault =>
          (.error fault, m.store fs location ((Content.text text).upTo length))

/-! ## Directories -/

def makeDirectory (m : Medium) (fs : FileSystem) (p : FilePath) : Except IoFault FileSystem := do
  let location ← fs.locateNew p
  if (fs.get? location).isSome then .error .alreadyExists
  else
    match m.denial? fs location with
    | some fault => .error fault
    | none => .ok (fs.put location .directory)

/-- Makes a directory. That it cannot be made does no harm if it is there. -/
def ensureDirectory (m : Medium) (fs : FileSystem) (p : FilePath) :
    Except IoFault Unit × FileSystem :=
  match m.makeDirectory fs p with
  | .ok made => (.ok (), made)
  | .error fault => if fs.isDirectory p then (.ok (), fs) else (.error fault, fs)

/-- Makes a directory, after those around it if one of them is missing. What has
been made stays if a later step fails. -/
def ensureWithin (m : Medium) (fs : FileSystem) (p : FilePath) (around : List FilePath) :
    Except IoFault Unit × FileSystem :=
  if p.components.isEmpty then (.ok (), fs)
  else
    match m.makeDirectory fs p with
    | .error .notFound =>
        match around with
        | [] => (.error .noRoot, fs)
        | dir :: farther =>
            match m.ensureWithin fs dir farther with
            | (.ok (), fs) => m.ensureDirectory fs p
            | failed => failed
    | _ => m.ensureDirectory fs p

/-- Makes a directory and all those around it that are missing. There is nothing
to make for the empty path. -/
def ensureDirectories (m : Medium) (fs : FileSystem) (p : FilePath) :
    Except IoFault Unit × FileSystem :=
  m.ensureWithin fs p p.ancestors

end Medium

/-- Makes directories where nothing but the file system stands in the way. -/
def FileSystem.ensureDirectories (fs : FileSystem) (p : FilePath) :
    Except IoFault Unit × FileSystem :=
  Medium.sound.ensureDirectories fs p

end GraphqlFragments
