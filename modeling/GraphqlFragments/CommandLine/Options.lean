import GraphqlFragments.Project.Configuration
/-!
# Command line options

Options have long names and some of them a letter. A value follows its option as
the next argument or within the same one. Anything the program does not know, and
any option given twice, is an error of usage.
-/

namespace GraphqlFragments.CommandLine

inductive OptionName
  | config
  | project
  | schema
  | generator
  | output
  | tiers
  | save
  | verbose
  | quiet
  | help
  | version
  deriving DecidableEq, Repr

namespace OptionName

def all : List OptionName :=
  [config, project, schema, generator, output, tiers, save, verbose, quiet, help, version]

def long : OptionName → String
  | config => "config"
  | project => "project"
  | schema => "schema"
  | generator => "generator"
  | output => "output"
  | tiers => "tiers"
  | save => "save"
  | verbose => "verbose"
  | quiet => "quiet"
  | help => "help"
  | version => "version"

def letter? : OptionName → Option Char
  | project => some 'p'
  | generator => some 'g'
  | output => some 'o'
  | save => some 's'
  | help => some 'h'
  | version => some 'V'
  | _ => none

def takesValue : OptionName → Bool
  | save | verbose | quiet | help | version => false
  | _ => true

/-- A path has at least one character. -/
def isPath : OptionName → Bool
  | config | schema | output | tiers => true
  | _ => false

def ofLong? (name : List Char) : Option OptionName :=
  all.find? fun o => o.long.toList = name

def ofLetter? (c : Char) : Option OptionName := all.find? fun o => o.letter? = some c

end OptionName

/-! ## Requests -/

structure Options where
  config : FilePath
  project : Option String
  schema : Option FilePath
  generator : Option String
  output : Option FilePath
  tiers : Option FilePath
  save : Bool
  verbose : Bool
  quiet : Bool
  deriving DecidableEq, Repr

inductive Request
  | run (options : Options)
  | help
  | version
  deriving DecidableEq, Repr

/-- What an option asks for at once, whatever follows it. -/
def OptionName.request? : OptionName → Option Request
  | .help => some .help
  | .version => some .version
  | _ => none

/-! ## Arguments -/

/-- An option with its value, which is empty for one that takes none. -/
structure Given where
  name : OptionName
  value : List Char
  deriving DecidableEq, Repr

/-- What an argument amounts to; `rest` are the arguments after it. -/
inductive Step
  | options (given : List Given) (rest : List (List Char))
  /-- Something is asked for at once, after some options. -/
  | asked (request : Request) (given : List Given)
  | finished
  | misused
  deriving DecidableEq, Repr

/-- A lone dash is a value like any other. -/
def isValue (arg : List Char) : Bool := arg.head? ≠ some '-' || arg = ['-']

/-- The value of an option, from within its argument or from the next one. -/
def valueStep (name : OptionName) (before : List Given) (attached : Option (List Char))
    (rest : List (List Char)) : Step :=
  match attached, rest with
  | some value, _ => .options (before ++ [⟨name, value⟩]) rest
  | none, [] => .misused
  | none, value :: rest =>
      if isValue value then .options (before ++ [⟨name, value⟩]) rest else .misused

/-- An argument after its two dashes. -/
def longStep (arg : List Char) (rest : List (List Char)) : Step :=
  let attached := (arg.dropWhile (· ≠ '=')).tail?
  match OptionName.ofLong? (arg.takeWhile (· ≠ '=')) with
  | none => .misused
  | some name =>
      if name.takesValue then valueStep name [] attached rest
      else if attached.isSome then .misused
      else
        match name.request? with
        | some request => .asked request []
        | none => .options [⟨name, []⟩] rest

/-- Letters after a dash. The first option that takes a value has the other
letters as its value, without an equals sign before them. -/
def lettersStep (before : List Given) (rest : List (List Char)) : List Char → Step
  | [] => .options before rest
  | c :: cs =>
      match OptionName.ofLetter? c with
      | none => .misused
      | some name =>
          if name.takesValue then
            let attached := if cs.isEmpty then none
              else if cs.head? = some '=' then some cs.tail else some cs
            valueStep name before attached rest
          else
            match name.request? with
            | some request => .asked request before
            | none => lettersStep (before ++ [⟨name, []⟩]) rest cs

/-- Two dashes by themselves end the options; nothing may follow them. -/
def argumentStep (arg : List Char) (rest : List (List Char)) : Step :=
  match arg with
  | ['-', '-'] => if rest.isEmpty then .finished else .misused
  | '-' :: '-' :: name => longStep name rest
  | '-' :: c :: cs => lettersStep [] rest (c :: cs)
  | _ => .misused

/-! ## Options -/

/-- Adds options to those given before, none of which may come again. -/
def add : List Given → List Given → Option (List Given)
  | given, [] => some given
  | given, option :: more =>
      if given.any (·.name = option.name) then none
      else if option.name.isPath && option.value.isEmpty then none
      else add (given ++ [option]) more

def optionsOf (given : List Given) : Options :=
  let value? (name : OptionName) : Option String :=
    (given.find? (·.name = name)).map fun g => String.ofList g.value
  let path? (name : OptionName) : Option FilePath := (value? name).map FilePath.mk
  let flag (name : OptionName) : Bool := (value? name).isSome
  { config := (path? .config).getD Configuration.defaultFile
    project := value? .project
    schema := path? .schema
    generator := value? .generator
    output := path? .output
    tiers := path? .tiers
    save := flag .save
    verbose := flag .verbose
    quiet := flag .quiet }

def finish (given : List Given) : Option Request :=
  let options := optionsOf given
  if options.verbose && options.quiet then none else some (.run options)

/-- Every step but the last takes up an argument, so there are at most as many
steps as arguments. -/
def requestWithin : (steps : Nat) → List Given → List (List Char) → Option Request
  | _, given, [] => finish given
  | 0, _, _ => none
  | steps + 1, given, arg :: rest =>
      match argumentStep arg rest with
      | .misused => none
      | .finished => finish given
      | .asked request before => (add given before).map fun _ => request
      | .options more rest => do requestWithin steps (← add given more) rest

/-- What the arguments ask for, unless they are misused. -/
def request (args : List String) : Option Request :=
  requestWithin args.length [] (args.map String.toList)

end GraphqlFragments.CommandLine
