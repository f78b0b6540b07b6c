import GraphqlFragments.CommandLine.Footprint
/-!
# The program

Looks at the files that the arguments and the configuration name, runs the program
on them and writes what it has changed.
-/

namespace GraphqlFragments.Main

open GraphqlFragments.CommandLine

def pathText (location : Location) : String := "/" ++ String.intercalate "/" location

/-- What the machine has at a location. Reading a directory fails with an error of
its own. -/
def probe (location : Location) : IO (Option Entry) := do
  try
    let bytes ← IO.FS.readBinFile (pathText location)
    return some (.file (.ofBytes bytes.toList))
  catch
    | .inappropriateType _ 21 _ => return some .directory
    | _ => return none

def observe (fs : FileSystem) (location : Location) : IO FileSystem := do
  if location.isEmpty then return fs
  match ← probe location with
  | some entry => return fs.put location entry
  | none => return fs

def observePath (fs : FileSystem) (p : FilePath) : IO FileSystem :=
  (fs.visited p).foldlM observe fs

def observePaths (fs : FileSystem) (paths : List FilePath) : IO FileSystem :=
  paths.foldlM observePath fs

def store (fs : FileSystem) (location : Location) : IO Unit := do
  match fs.get? location with
  | none => return
  | some .directory => IO.FS.createDir (pathText location)
  | some (.file (.text s)) => IO.FS.writeFile (pathText location) s
  | some (.file (.bytes data)) =>
      IO.FS.writeBinFile (pathText location) ⟨data.toArray⟩

end GraphqlFragments.Main

open GraphqlFragments GraphqlFragments.Main GraphqlFragments.CommandLine in
def main (args : List String) : IO UInt32 := do
  let unseen : FileSystem := ⟨[], ⟨toString (← IO.currentDir)⟩⟩
  let here ← observePath unseen ⟨"."⟩
  let configured ← observePaths here (footprint args here)
  let known ← observePaths configured (footprint args configured)
  -- A first run shows which locations would change, and these count as well.
  let before ← (changes known (run args known).files).foldlM observe known
  let exit := run args before
  (changes before exit.files).forM (store exit.files)
  IO.print exit.output
  (exit.log ++ exit.report).forM IO.eprintln
  return exit.code.toUInt32
