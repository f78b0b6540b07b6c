import GraphqlFragments.Output
import GraphqlFragments.Project.Configuration
/-!
# Plans

All that the run of a project needs, settled before anything is written: its
settings, what the command line says instead, and the files that both name.
-/

namespace GraphqlFragments

/-- Settings that win over those of the project. Paths are taken from the working
directory. -/
structure Overrides where
  schema : Option FilePath
  generator : Option String
  outputDirectory : Option FilePath
  tiers : Option FilePath
  deriving DecidableEq, Repr

structure Plan where
  project : String
  schemaPath : FilePath
  generatorLabel : String
  generator : Generator
  output : FilePath
  /-- The output as the project settings keep it. -/
  outputSetting : String
  tiers : Option TierConfig
  deriving Repr

namespace Plan

/-- The settings with which the project is run the same way again. -/
def fragmentSettings (p : Plan) : FragmentSettings :=
  ⟨some p.outputSetting, some p.generatorLabel⟩

end Plan

namespace Configuration

def findProject (c : Configuration) (name : String) : Except ConfigFault ProjectSettings :=
  match c.project? name with
  | some project => .ok project
  | none => .error (.noProject name c.path)

/-- A project without settings for fragments is left out, unless it is asked for
by name or the generator is given. -/
def shouldSkip (c : Configuration) (name : String) (overrides : Overrides)
    (explicit : Bool) : Except ConfigFault Bool := do
  if explicit || overrides.generator.isSome then return false
  return (← (← c.findProject name).fragmentSettings?).isNone

/-! ## The schema -/

/-- The path of the schema, as the first of these gives it: the command line, an
extension for bundles, the project. -/
def schemaPath? (c : Configuration) (project : ProjectSettings) (overrides : Overrides) :
    Option FilePath :=
  let bundle := (bundleExtensions.findSome? project.extensionPath?).map FilePath.mk
  let schemaPath := project.schemaPath.map FilePath.mk
  overrides.schema <|> bundle.map c.resolvePath <|> schemaPath.map c.resolvePath

def isSchemaExtension (extension : Option (List Letter)) : Bool :=
  extension = some "graphql" || extension = some "gql"

/-- The schema has to be a file with one of the usual extensions. -/
def resolveSchemaPath (c : Configuration) (fs : FileSystem) (project : ProjectSettings)
    (overrides : Overrides) : Except SchemaPathFault FilePath :=
  match c.schemaPath? project overrides with
  | none => .error .undetermined
  | some path =>
      if !isSchemaExtension path.extension? then .error (.wrongExtension path)
      else if !fs.isFile path then .error (.missing path)
      else .ok path

/-! ## The output -/

/-- The file in an output directory that is named after a project. -/
def outputIn (dir : FilePath) (project : String) (generator : Generator) : FilePath :=
  dir.join (.mk (project ++ ".fragments." ++ generator.extension))

/-- The path of the output with the setting that stands for it. A path that is derived from an
output directory is set as it is shown. -/
def resolveOutput (c : Configuration) (workingDirectory : FilePath) (project : String)
    (settings : FragmentSettings) (overrides : Overrides) (generator : Generator) :
    Except ConfigFault (FilePath × String) :=
  match overrides.outputDirectory, settings.output with
  | some dir, _ =>
      let path := outputIn dir project generator
      .ok (path, (c.relativePath workingDirectory path).text)
  | none, some output => .ok (c.resolvePath ⟨output⟩, output)
  | none, none => .error (.noOutput project)

/-! ## The plan -/

def tiersPath? (c : Configuration) (project : ProjectSettings) (overrides : Overrides) :
    Option FilePath :=
  let setting := (project.extensionPath? tiersExtension).map FilePath.mk
  overrides.tiers <|> setting.map c.resolvePath

def loadTiers (fs : FileSystem) : Option FilePath → Except TierFault (Option TierConfig)
  | none => .ok none
  | some path => (TierConfig.load fs path).map some

def plan (c : Configuration) (fs : FileSystem) (name : String) (overrides : Overrides) :
    Logged Plan := do
  let project ← .ofExcept .config (c.findProject name)
  let settings := (← .ofExcept .config project.fragmentSettings?).getD .none
  let generatorLabel ←
    match overrides.generator <|> settings.generator with
    | some label => pure label
    | none => Logged.fail (.config (.noGenerator name))
  let generator ← Generator.ofLabel generatorLabel
  let (output, outputSetting) ← .ofExcept .config
    (c.resolveOutput fs.workingDirectory name settings overrides generator)
  let schemaPath ← .ofExcept .schemaPath (c.resolveSchemaPath fs project overrides)
  let tiers ← .ofExcept .tiers (loadTiers fs (c.tiersPath? project overrides))
  return ⟨name, schemaPath, generatorLabel, generator, output, outputSetting, tiers⟩

end Configuration

end GraphqlFragments
