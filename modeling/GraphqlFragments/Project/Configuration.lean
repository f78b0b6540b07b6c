import GraphqlFragments.Project.Settings
/-!
# Configurations

A configuration file holds the settings of named projects or, without any, those
of a single project at its top level.
-/

namespace GraphqlFragments

structure Configuration where
  /-- The file it is read from and saved to. -/
  path : FilePath
  root : ProjectSettings
  projects : Table ProjectSettings
  deriving Repr

namespace Configuration

def defaultFile : FilePath := ⟨".graphqlconfig"⟩

/-- The name of the single project. -/
def defaultProject : String := "default"

def projectsKey : String := "projects"

/-- A configuration that is yet to be written. -/
def empty (path : FilePath) : Configuration := ⟨path, .empty, []⟩

/-! ## Projects -/

def projectNames (c : Configuration) : List String :=
  if c.projects.isEmpty then [defaultProject] else c.projects.keys

def project? (c : Configuration) (name : String) : Option ProjectSettings :=
  if c.projects.isEmpty then if name = defaultProject then some c.root else none
  else c.projects.get? name

def modifyProject (c : Configuration) (name : String)
    (f : ProjectSettings → ProjectSettings) : Configuration :=
  if c.projects.isEmpty then
    if name = defaultProject then { c with root := f c.root } else c
  else { c with projects := c.projects.modify name f }

/-! ## Paths -/

/-- Takes a path of the configuration from the directory of its file. -/
def resolvePath (c : Configuration) (p : FilePath) : FilePath :=
  if p.isAbsolute then p
  else
    match c.path.parent? with
    | some dir => dir.join p
    | none => p

/-- A path for the configuration that leads to the same file as a path from the
working directory. It is relative if the file lies below the directory of the
configuration, and absolute otherwise. -/
def relativePath (c : Configuration) (workingDirectory p : FilePath) : FilePath :=
  let target := workingDirectory.join p
  (target.stripPrefix? (workingDirectory.join c.path.dir)).getD target

/-! ## Reading -/

open Json.Reader

/-- What has been read of a configuration. The settings at the top level are
looked at only when all of it is read. -/
structure Draft where
  projects : Option (Table ProjectSettings)
  /-- All other members, repeated ones as well. -/
  rest : List (String × Json)

def memberReader (levels : Nat) (key : String) (d : Draft) : Json.Reader Draft := do
  if key = projectsKey then
    if d.projects.isSome then ProjectSettings.repeatedMember key
    colon
    return { d with projects := some (← tableOf .map (ProjectSettings.reader (levels - 2))) }
  else
    colon
    return { d with rest := d.rest ++ [(key, ← value levels)] }

/-- Takes a member of the top level for the settings there. -/
def rootMember (d : ProjectSettings.Draft) :
    String × Json → Except Json.Cause ProjectSettings.Draft
  | (key, v) =>
      if key = schemaPathKey then
        if d.schemaPath.isSome then .error (.repeatedField key)
        else
          match v with
          | .null => .ok { d with schemaPath := some none }
          | .string path => .ok { d with schemaPath := some (some path) }
          | v => .error (.wrongShape v .path)
      else if key = extensionsKey then
        if d.extensions.isSome then .error (.repeatedField key)
        else
          match v with
          | .object members => .ok { d with extensions := some members }
          | v => .error (.wrongShape v .map)
      else .ok { d with other := d.other.insert key v }

def reader (path : FilePath) : Json.Reader Configuration := do
  begins '{' .configuration
  let draft ← members (memberReader (Json.nestingLimit - 1)) ⟨none, []⟩
  closeObject
  match draft.rest.foldlM rootMember .empty with
  | .error cause => fail cause
  | .ok root =>
      finish
      return ⟨path, root.settings, draft.projects.getD []⟩

def load (fs : FileSystem) (path : FilePath) : Except ConfigFault Configuration :=
  match fs.readText path with
  | .error fault => .error (.unreadable path fault)
  | .ok text => (Json.readDocument (reader path) text).mapError (.malformed path)

/-! ## Writing -/

def toJson (c : Configuration) : Json :=
  let projects := c.projects.map fun (name, p) => (name, p.toJson)
  let member := if projects.isEmpty then [] else [(projectsKey, Json.object projects)]
  .object (c.root.members ++ member)

def toText (c : Configuration) : String := c.toJson.indented ++ "\n"

def save (c : Configuration) (fs : FileSystem) : Except IoFault FileSystem :=
  fs.write c.path (.text c.toText)

end Configuration

end GraphqlFragments
