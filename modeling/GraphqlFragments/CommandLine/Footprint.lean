import GraphqlFragments.CommandLine.Run
/-!
# Footprints

The files that a run of the program reads can be told from the arguments and the
configuration, so a run needs to know no others. What it writes is seen from its
outcome.
-/

namespace GraphqlFragments

namespace FileSystem

/-- The locations on the way along some parts of a path. -/
def trail (location : Location) : List (List Letter) → List Location
  | [] => []
  | part :: rest =>
      let next :=
        match FilePath.component? part with
        | some (.name name) => (enter location name).toOption.getD location
        | some .parent => location.dropLast
        | _ => location
      next :: trail next rest

/-- The locations that a path leads through, and the one that it leads to. -/
def visited (fs : FileSystem) (p : FilePath) : List Location :=
  match fs.parts p with
  | .ok parts => trail [] parts
  | .error _ => []

end FileSystem

namespace Configuration

/-- Where a project is written to, as far as its settings tell. -/
def outputPath? (c : Configuration) (workingDirectory : FilePath) (name : String)
    (project : ProjectSettings) (overrides : Overrides) : Option FilePath := do
  let settings := (project.fragmentSettings?.toOption.getD none).getD .none
  let label ← overrides.generator <|> settings.generator
  let generator := (Generator.ofLabel? label).getD .singleDocument
  let (path, _) ←
    (c.resolveOutput workingDirectory name settings overrides generator).toOption
  return path

/-- The schema, the tiers and the output of a project. -/
def footprint (c : Configuration) (workingDirectory : FilePath) (overrides : Overrides)
    (name : String) : List FilePath :=
  match c.project? name with
  | none => []
  | some project =>
      (c.schemaPath? project overrides).toList ++ (c.tiersPath? project overrides).toList ++
        (c.outputPath? workingDirectory name project overrides).toList

end Configuration

namespace CommandLine

/-- The configuration, and what it names once it can be read. -/
def footprint (args : List String) (fs : FileSystem) : List FilePath :=
  match request args with
  | some (.run options) =>
      match loadConfiguration fs options with
      | .error _ => [options.config]
      | .ok c =>
          let names := (options.project.map fun name => [name]).getD c.projectNames
          options.config ::
            names.flatMap (c.footprint fs.workingDirectory (overridesOf options))
  | _ => []

/-- The locations at which a run leaves something new. -/
def changes (before after : FileSystem) : List Location :=
  (after.entries.filter fun e => before.get? e.1 ≠ some e.2).reverse.map Prod.fst

end CommandLine

end GraphqlFragments
