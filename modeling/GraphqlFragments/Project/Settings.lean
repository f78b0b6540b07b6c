import GraphqlFragments.Failure
/-!
# Project settings

The settings of a project: its schema, its extensions, among them the settings
for its fragments, and whatever else the configuration says about it. What is not
understood is kept as it is.
-/

namespace GraphqlFragments

/-- What an extension says about the fragments of a project. -/
structure FragmentSettings where
  output : Option String
  generator : Option String
  deriving DecidableEq, Repr

structure ProjectSettings where
  schemaPath : Option String
  extensions : Table Json
  other : Table Json
  deriving Repr

/-- The former name of the extension for fragments. -/
def formerFragmentsExtension : String := "fragments"

def tiersExtension : String := "fragment-tiers"

/-- The extensions that name a schema, the preferred one first. -/
def bundleExtensions : List String := ["prepare-bundle", "bundle"]

def schemaPathKey : String := "schemaPath"

def extensionsKey : String := "extensions"

/-! ## Fragment settings -/

namespace FragmentSettings

def none : FragmentSettings := ⟨.none, .none⟩

/-- A text, or nothing for null. -/
def textOf : Json → Except Json.Problem (Option String)
  | .null => .ok .none
  | .string s => .ok (some s)
  | v => .error ⟨.wrongShape v .text, .none⟩

/-- Settings are given by name or, in a list, by position. -/
def ofJson : Json → Except Json.Problem FragmentSettings
  | .array items => do
      let output ← textOf (items.getD 0 .null)
      let generator ← textOf (items.getD 1 .null)
      if items.length > 2 then .error ⟨.tooManyItems items.length, .none⟩
      else return ⟨output, generator⟩
  | .object members =>
      members.foldlM (fun settings (key, v) => do
        if key = "output" then return { settings with output := ← textOf v }
        else if key = "generator" then return { settings with generator := ← textOf v }
        else return settings) none
  | v => .error ⟨.wrongShape v .fragmentSettings, .none⟩

def toJson (s : FragmentSettings) : Json :=
  let output := s.output.map fun text => ("output", Json.string text)
  let generator := s.generator.map fun text => ("generator", Json.string text)
  .object (output.toList ++ generator.toList)

end FragmentSettings

/-! ## Settings -/

namespace ProjectSettings

def empty : ProjectSettings := ⟨none, [], []⟩

/-- The settings for fragments, if there are any. -/
def fragmentSettings? (p : ProjectSettings) : Except ConfigFault (Option FragmentSettings) :=
  match p.extensions.get? fragmentsExtension with
  | none => .ok none
  | some v => ((FragmentSettings.ofJson v).mapError .badSettings).map some

/-- Replaces the settings for fragments, also those under their former name. -/
def setFragmentSettings (p : ProjectSettings) (settings : FragmentSettings) :
    ProjectSettings :=
  let extensions := p.extensions.erase formerFragmentsExtension
  { p with extensions := extensions.insert fragmentsExtension settings.toJson }

/-- The path that an extension gives, as a text or as its output. -/
def extensionPath? (p : ProjectSettings) (key : String) : Option String :=
  match p.extensions.get? key with
  | some (.string path) => some path
  | some (.object members) => (Table.get? members "output").bind Json.text?
  | _ => none

def members (p : ProjectSettings) : Table Json :=
  let schemaPath := p.schemaPath.map fun path => (schemaPathKey, Json.string path)
  let extensions :=
    if p.extensions.isEmpty then [] else [(extensionsKey, Json.object p.extensions)]
  schemaPath.toList ++ extensions ++ p.other

def toJson (p : ProjectSettings) : Json := .object p.members

/-! ## Reading -/

/-- What has been read of a project. A member that has not come yet is told from
an empty one, since it may come only once. -/
structure Draft where
  schemaPath : Option (Option String)
  extensions : Option (Table Json)
  other : Table Json

namespace Draft

def empty : Draft := ⟨none, none, []⟩

def settings (d : Draft) : ProjectSettings :=
  ⟨d.schemaPath.getD none, d.extensions.getD [], d.other⟩

end Draft

open Json.Reader

/-- A path, or null for none. -/
def pathReader : Json.Reader (Option String) := do
  if (← nextOr .endInValue) = 'n' then
    let _ ← scalar
    return none
  else return some (← textOf .path)

/-- Blames a member for coming twice, at the end of an object that ends there. -/
def repeatedMember {α : Type} (key : String) : Json.Reader α := do
  closeObject
  fail (.repeatedField key)

/-- A member of a project, whose values nest to `levels` levels at most. -/
def memberReader (levels : Nat) (key : String) (d : Draft) : Json.Reader Draft := do
  if key = schemaPathKey then
    if d.schemaPath.isSome then repeatedMember key
    colon
    return { d with schemaPath := some (← pathReader) }
  else if key = extensionsKey then
    if d.extensions.isSome then repeatedMember key
    colon
    return { d with extensions := some (← tableOf .map (value (levels - 1))) }
  else
    colon
    return { d with other := d.other.insert key (← value levels) }

def reader (levels : Nat) : Json.Reader ProjectSettings := do
  begins '{' .project
  let draft ← Json.Reader.members (memberReader levels) .empty
  closeObject
  return draft.settings

end ProjectSettings

end GraphqlFragments
