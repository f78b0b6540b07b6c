import GraphqlFragments.Generation
import GraphqlFragments.Medium
import GraphqlFragments.Project.Plan
/-!
# Running a project

A plan is carried out by generating the fragments of its schema and writing them.
All that can fail without touching the file system comes first. Each step is given for any
medium, and then for the sound one.
-/

namespace GraphqlFragments

/-! ## Writing output -/

namespace Output

/-- Writes files into a directory one after the other, up to the first that
fails. -/
def writeFilesOn (m : Medium) (dir : FilePath) :
    List OutputFile → FileSystem → Except IoFault Unit × FileSystem
  | [], fs => (.ok (), fs)
  | file :: rest, fs =>
      match m.write fs (dir.join ⟨file.name⟩) file.contents with
      | (.error fault, fs) => (.error fault, fs)
      | (.ok (), fs) => writeFilesOn m dir rest fs

/-- Writes a bundle to a path and files next to it, in a directory that is made
if it is missing. Gives the file or the directory. -/
def writeOn (m : Medium) (output : Output) (path : FilePath) (fs : FileSystem) :
    Except IoFault FilePath × FileSystem :=
  match m.ensureDirectories fs path.dir with
  | (.error fault, fs) => (.error fault, fs)
  | (.ok (), fs) =>
      match output with
      | .bundle text =>
          let (written, fs) := m.write fs path text
          (written.map fun _ => path, fs)
      | .files parts =>
          let (written, fs) := writeFilesOn m path.dir parts fs
          (written.map fun _ => path.dir, fs)

def writeFiles (dir : FilePath) (parts : List OutputFile) (fs : FileSystem) :
    Except IoFault Unit × FileSystem :=
  writeFilesOn .sound dir parts fs

def write (output : Output) (path : FilePath) (fs : FileSystem) :
    Except IoFault FilePath × FileSystem :=
  output.writeOn .sound path fs

end Output

/-! ## Plans -/

namespace Plan

/-- The fragments of the schema of a plan. -/
def generate (p : Plan) (fs : FileSystem) : Logged FragmentSet := do
  let schema ← .ofExcept .io (fs.readText p.schemaPath)
  let set ← GraphqlFragments.generate schema p.tiers
  Logged.note
    [.fragmentCounts p.project set.default.length set.noRelations.length set.deep.length]
  return set

def runOn (m : Medium) (p : Plan) (fs : FileSystem) : Logged FilePath × FileSystem :=
  let generated := p.generate fs
  match generated.result with
  | .error failure => (⟨generated.log, .error failure⟩, fs)
  | .ok set =>
      let (written, fs) := (set.output p.generator).writeOn m p.output fs
      (⟨generated.log, written.mapError .io⟩, fs)

def run (p : Plan) (fs : FileSystem) : Logged FilePath × FileSystem :=
  p.runOn .sound fs

end Plan

namespace Configuration

/-- The plan of a project, unless it is to be left out. -/
def prepare (c : Configuration) (fs : FileSystem) (name : String) (overrides : Overrides)
    (explicit : Bool) : Logged (Option Plan) := do
  if ← .ofExcept .config (c.shouldSkip name overrides explicit) then return none
  return some (← c.plan fs name overrides)

/-- Runs a project, unless it is to be left out. Gives its plan and what has been
written. -/
def runProjectOn (m : Medium) (c : Configuration) (name : String) (overrides : Overrides)
    (explicit : Bool) (fs : FileSystem) : Logged (Option (Plan × FilePath)) × FileSystem :=
  let prepared := c.prepare fs name overrides explicit
  match prepared.result with
  | .error failure => (⟨prepared.log, .error failure⟩, fs)
  | .ok none => (⟨prepared.log, .ok none⟩, fs)
  | .ok (some plan) =>
      let (ran, fs) := plan.runOn m fs
      (⟨prepared.log ++ ran.log, ran.result.map fun path => some (plan, path)⟩, fs)

def runProject (c : Configuration) (name : String) (overrides : Overrides)
    (explicit : Bool) (fs : FileSystem) : Logged (Option (Plan × FilePath)) × FileSystem :=
  c.runProjectOn .sound name overrides explicit fs

end Configuration

end GraphqlFragments
