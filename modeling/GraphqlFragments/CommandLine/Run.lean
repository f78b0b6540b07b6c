import GraphqlFragments.CommandLine.Options
import GraphqlFragments.Project.Run
import GraphqlFragments.Text.Blank
import GraphqlFragments.Text.Terminal
/-!
# Running the program

The program runs the projects of a configuration one after the other. One that
fails does not keep the others from being run, but the program then fails as well.
-/

namespace GraphqlFragments.CommandLine

/-- Why the program fails. -/
inductive Failing
  | failure (failure : Failure)
  /-- Some projects failed, each of which has been reported. -/
  | projects (names : List String)
  deriving Repr

namespace Failing

def message : Failing → String
  | failure f => f.message
  | projects names => "fragment generation failed for " ++ String.intercalate ", " names

def cause? : Failing → Option String
  | failure f => f.cause?
  | projects _ => none

/-- The failure with what lies behind it, numbered from the outside in. -/
def chain (f : Failing) : List String :=
  ("0: " ++ f.message) :: (f.cause?.map fun cause => "1: " ++ cause).toList

/-- The report for a terminal, line by line, with each message in red. -/
def redLines (f : Failing) : List (List Char) :=
  f.chain.flatMap fun message => Text.split '\n' (Text.red message.toList)

/-- The report in black and white, with no line indented. It ends before the first
line that is empty; one that is only blank or only changes the colour does not end
it. -/
def report (f : Failing) : List String :=
  (f.redLines.takeWhile (· ≠ [])).map fun line =>
    String.ofList (Text.dropBlanks (Text.dropReturn (Text.uncoloured line)))

end Failing

/-! ## Projects -/

/-- Where the program stands between two projects. -/
structure Progress where
  configuration : Configuration
  failed : List String
  log : List Notice
  files : FileSystem
  deriving Repr

/-- Runs one project and keeps the settings that it was run with. -/
def runProject (overrides : Overrides) (explicit : Bool) (s : Progress) (name : String) :
    Progress :=
  let (ran, files) := s.configuration.runProject name overrides explicit s.files
  let log := s.log ++ [.generating name] ++ ran.log
  match ran.result with
  | .ok (some (plan, path)) =>
      { s with
        configuration :=
          s.configuration.modifyProject name (·.setFragmentSettings plan.fragmentSettings)
        log := log ++ [.written name path]
        files }
  | .ok none => { s with log := log ++ [.skipping name], files }
  | .error failure =>
      { s with failed := s.failed ++ [name], log := log ++ [.failed name failure], files }

def runProjects (c : Configuration) (names : List String) (overrides : Overrides)
    (explicit : Bool) (fs : FileSystem) : Progress :=
  names.foldl (runProject overrides explicit) ⟨c, [], [], fs⟩

/-! ## The program -/

structure Outcome where
  log : List Notice
  failing : Option Failing
  files : FileSystem
  deriving Repr

/-- With a schema given, the configuration need not exist. -/
def loadConfiguration (fs : FileSystem) (options : Options) :
    Except ConfigFault Configuration :=
  if options.schema.isSome && !fs.fileExists options.config then .ok (.empty options.config)
  else Configuration.load fs options.config

def overridesOf (options : Options) : Overrides :=
  ⟨options.schema, options.generator, options.output, options.tiers⟩

/-- Saves the configuration if that is asked for. -/
def saveProgress (options : Options) (s : Progress) : Outcome :=
  let failing := if s.failed.isEmpty then none else some (Failing.projects s.failed)
  if !options.save then ⟨s.log, failing, s.files⟩
  else
    match s.configuration.save s.files with
    | .error fault => ⟨s.log, some (.failure (.io fault)), s.files⟩
    | .ok files => ⟨s.log ++ [.saved s.configuration.path], failing, files⟩

def runOptions (options : Options) (fs : FileSystem) : Outcome :=
  match loadConfiguration fs options with
  | .error fault => ⟨[], some (.failure (.config fault)), fs⟩
  | .ok c =>
      let names := (options.project.map fun name => [name]).getD c.projectNames
      saveProgress options
        (runProjects c names (overridesOf options) options.project.isSome fs)

/-- The least level of the notices that are shown. -/
def shownLevel (options : Options) : Level :=
  if options.verbose then .debug else if options.quiet then .error else .info

def shown (level : Level) (log : List Notice) : List Notice :=
  log.filter fun n => level.rank ≤ n.level.rank

/-- A notice as the log of the program has it: its first line, without anything that
a terminal would obey. -/
def logLine (n : Notice) : String :=
  String.ofList ((Text.lines (Text.shield n.line.toList)).headD [])

def versionText : String := "gen-fragments 0.1.0\n"

/-! ## Help -/

namespace OptionName

def description : OptionName → String
  | config => "Project configuration file [default: " ++ Configuration.defaultFile.text ++ "]"
  | project => "Only process this project"
  | schema => "Schema filename, overriding the project's schema"
  | generator => "Output format: js, graphql or gql"
  | output => "Output directory; writes <project>.fragments.<ext> into it"
  | tiers => "Tier allow-list file, overriding the project's fragment-tiers setting"
  | save => "Save the resolved output and generator to the project configuration"
  | verbose => "Show debug output"
  | quiet => "Only show errors"
  | help => "Print help"
  | version => "Print version"

/-- An option as it is given, with its letter first and a word for its value. -/
def usage (o : OptionName) : String :=
  let letter := (o.letter?.map fun c => "-" ++ c.toString ++ ", ").getD "    "
  let value := if o.takesValue then " <" ++ o.long.map Char.toUpper ++ ">" else ""
  letter ++ "--" ++ o.long ++ value

/-- The width of the longest way in which an option is given. -/
def usageWidth : Nat := (all.map fun o => o.usage.length).foldl max 0

def helpLine (o : OptionName) : String :=
  "  " ++ String.ofList (o.usage.toList.rightpad (usageWidth + 2) ' ') ++ o.description ++ "\n"

end OptionName

def helpText : String :=
  "Generate default, no-nesting and full fragments for every object type in your " ++
    "GraphQL schema\n\nUsage: gen-fragments [OPTIONS]\n\nOptions:\n" ++
    String.join (OptionName.all.map (·.helpLine))

/-! ## Running -/

/-- What a run of the program leaves behind. -/
structure Exit where
  code : Nat
  output : String
  log : List String
  report : List String
  files : FileSystem
  deriving Repr

/-- Runs the program with some arguments. -/
def run (args : List String) (fs : FileSystem) : Exit :=
  match request args with
  | none => ⟨2, "", [], [], fs⟩
  | some .help => ⟨0, helpText, [], [], fs⟩
  | some .version => ⟨0, versionText, [], [], fs⟩
  | some (.run options) =>
      let outcome := runOptions options fs
      { code := if outcome.failing.isSome then 1 else 0
        output := ""
        log := (shown (shownLevel options) outcome.log).map logLine
        report := (outcome.failing.map Failing.report).getD []
        files := outcome.files }

end GraphqlFragments.CommandLine
