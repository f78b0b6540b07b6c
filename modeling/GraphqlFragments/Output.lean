import GraphqlFragments.Fragment
import GraphqlFragments.Logged
/-!
# Output formats

A set of fragments is written as one source module, as one document, or as a file
for each deep fragment.
-/

namespace GraphqlFragments

inductive Generator
  | sourceModule
  | singleDocument
  | multiFile
  deriving DecidableEq, Repr

namespace Generator

def ofLabel? : String → Option Generator
  | "js" | "source-module" => some sourceModule
  | "graphql" | "single-document" => some singleDocument
  | "gql" | "multi-file" => some multiFile
  | _ => none

/-- An unknown label stands for a single document, with a warning. -/
def ofLabel (label : String) : Logged Generator := do
  match ofLabel? label with
  | some generator => return generator
  | none =>
      Logged.note [.unknownGenerator label]
      return singleDocument

def extension : Generator → String
  | sourceModule => "js"
  | singleDocument => "graphql"
  | multiFile => "gql"

end Generator

structure OutputFile where
  name : String
  contents : String
  deriving DecidableEq, Repr

inductive Output
  | bundle (text : String)
  | files (files : List OutputFile)
  deriving DecidableEq, Repr

def banner : String := "This file was automatically generated and should not be edited."

namespace Fragment

/-- The fragment as an exported constant. -/
def exportText (f : Fragment) : String :=
  "\nexport const " ++ f.name ++ "Fragment = `" ++ f.body ++ "`\n"

def paragraph (f : Fragment) : String := "\n" ++ f.body ++ "\n"

def file (f : Fragment) : OutputFile :=
  ⟨f.name ++ "." ++ Generator.multiFile.extension, f.body ++ "\n"⟩

end Fragment

namespace FragmentSet

def moduleText (s : FragmentSet) : String :=
  "// " ++ banner ++ "\n" ++ String.join (s.all.map Fragment.exportText)

/-- A group under its title. An empty group has none. -/
def chapter (title : String) (group : List Fragment) : String :=
  if group.isEmpty then ""
  else "\n# " ++ title ++ "\n" ++ String.join (group.map Fragment.paragraph)

def documentText (s : FragmentSet) : String :=
  "# " ++ banner ++ "\n" ++ chapter "Default fragments" s.default ++
    chapter "NoNesting fragments (relations omitted)" s.noRelations ++
    chapter "Full fragments (nested relations spread recursively)" s.deep

def output (s : FragmentSet) : Generator → Output
  | .sourceModule => .bundle s.moduleText
  | .singleDocument => .bundle s.documentText
  | .multiFile => .files (s.deep.map Fragment.file)

end FragmentSet

end GraphqlFragments
