import GraphqlFragments.Proofs.Outcome
/-!
# Wrappers do not matter

Lists and non-null marks around the types of fields have no part in what a run reports and makes.
Every step of it gives the same for a schema and for the one that has the named types alone, so two
schemas that differ in their wrappers only have the same run.
-/

namespace GraphqlFragments

/-! ## Definitions by their named types -/

theorem map_eq_of_forall₂ {α β : Type} {R : α → α → Prop} (f : α → β)
    (hf : ∀ a b, R a b → f a = f b) {l l' : List α} (h : List.Forall₂ R l l') :
    l.map f = l'.map f := by
  induction h with
  | nil => rfl
  | cons hfirst _ ih => rw [List.map_cons, List.map_cons, hf _ _ hfirst, ih]

namespace Sdl

/-- The same field, its named type in any two wrappings. -/
structure FieldDefinition.Rewrapped (a b : FieldDefinition) : Prop where
  name : a.name = b.name
  type : a.type.innermost = b.type.innermost

/-- The same definition, the types of its fields in any two wrappings. -/
inductive Definition.Rewrapped : Definition → Definition → Prop
  | same (d : Definition) : Rewrapped d d
  | object (name : String) {a b : List FieldDefinition}
      (fields : List.Forall₂ FieldDefinition.Rewrapped a b) :
      Rewrapped (.object name a) (.object name b)
  | objectExtension (name : String) {a b : List FieldDefinition}
      (fields : List.Forall₂ FieldDefinition.Rewrapped a b) :
      Rewrapped (.objectExtension name a) (.objectExtension name b)

namespace FieldDefinition

/-- The field with its named type alone. -/
def unwrapped (d : FieldDefinition) : FieldDefinition := ⟨d.name, .named d.type.innermost false⟩

theorem Rewrapped.unwrapped_eq {a b : FieldDefinition} (h : a.Rewrapped b) :
    a.unwrapped = b.unwrapped := by
  rw [unwrapped, unwrapped, h.name, h.type]

theorem map_unwrapped_eq {a b : List FieldDefinition} (h : List.Forall₂ Rewrapped a b) :
    a.map unwrapped = b.map unwrapped :=
  map_eq_of_forall₂ unwrapped (fun _ _ => Rewrapped.unwrapped_eq) h

end FieldDefinition

namespace Definition

/-- The definition with the named types of its fields alone. -/
def unwrapped : Definition → Definition
  | .object name fields => .object name (fields.map FieldDefinition.unwrapped)
  | .objectExtension name fields => .objectExtension name (fields.map FieldDefinition.unwrapped)
  | d => d

theorem Rewrapped.unwrapped_eq {a b : Definition} (h : a.Rewrapped b) :
    a.unwrapped = b.unwrapped := by
  cases h with
  | same d => rfl
  | object name fields =>
      rw [unwrapped, unwrapped, FieldDefinition.map_unwrapped_eq fields]
  | objectExtension name fields =>
      rw [unwrapped, unwrapped, FieldDefinition.map_unwrapped_eq fields]

end Definition

end Sdl

/-! ## Type systems by their named types -/

def Field.unwrapped (f : Field) : Field := ⟨f.name, .named f.type.innermost⟩

def ObjectType.unwrapped (object : ObjectType) : ObjectType :=
  ⟨object.name, object.fields.map Field.unwrapped⟩

namespace TypeSystem

/-- Object types with the named types of their fields alone. -/
def unwrappedEntry (entry : String × List Field) : String × List Field :=
  (entry.1, entry.2.map Field.unwrapped)

def unwrapped (ts : TypeSystem) : TypeSystem := { ts with objects := ts.objects.map unwrappedEntry }

theorem unwrappedEntry_eq :
    unwrappedEntry = fun entry => (entry.1, entry.2.map Field.unwrapped) := rfl

theorem extendObjects_unwrapped (objects : Table (List Field))
    (extensions : List (String × List Field)) :
    extendObjects (objects.map unwrappedEntry) (extensions.map unwrappedEntry) =
      (extendObjects objects extensions).map (List.map unwrappedEntry) := by
  induction extensions generalizing objects with
  | nil => rfl
  | cons extension rest ih =>
      obtain ⟨name, fields⟩ := extension
      -- Which extensions find their type depends on names alone.
      have hcontains :
          Table.contains (objects.map unwrappedEntry) name = objects.contains name := by
        rw [Table.contains, Table.contains, unwrappedEntry_eq, Table.get?_map, Option.isSome_map]
      have hmodify : Table.modify (objects.map unwrappedEntry) name
          (· ++ fields.map Field.unwrapped) =
            (objects.modify name (· ++ fields)).map unwrappedEntry :=
        Table.modify_map (fun _ => List.map_append) objects name
      rw [List.map_cons, unwrappedEntry, extendObjects, extendObjects, hcontains, hmodify, ih]
      cases objects.contains name <;> rfl

theorem fieldOf_unwrapped (d : Sdl.FieldDefinition) :
    fieldOf d.unwrapped = (fieldOf d).unwrapped := by
  rw [fieldOf, fieldOf, Field.unwrapped, TypeRef.innermost_ofExpr]
  rfl

theorem map_fieldOf_unwrapped (fields : List Sdl.FieldDefinition) :
    (fields.map Sdl.FieldDefinition.unwrapped).map fieldOf =
      (fields.map fieldOf).map Field.unwrapped := by
  simp [fieldOf_unwrapped]

/-- A view of definitions that commutes with unwrapping does so on whole documents. -/
theorem filterMap_unwrapped {β : Type} {view : Sdl.Definition → Option β} {f : β → β}
    (h : ∀ d, view d.unwrapped = (view d).map f) (document : Sdl.Document) :
    (document.map Sdl.Definition.unwrapped).filterMap view = (document.filterMap view).map f := by
  rw [List.filterMap_map, List.map_filterMap]
  exact List.filterMap_congr fun d _ => h d

/-- Kinds and roots have nothing to do with fields. -/
theorem filterMap_unwrapped_of_eq {β : Type} {view : Sdl.Definition → Option β}
    (h : ∀ d, view d.unwrapped = view d) (document : Sdl.Document) :
    (document.map Sdl.Definition.unwrapped).filterMap view = document.filterMap view := by
  rw [filterMap_unwrapped fun d => (h d).trans Option.map_id'.symm, List.map_id']

theorem ofDocument_unwrapped (document : Sdl.Document) :
    ofDocument (document.map Sdl.Definition.unwrapped) = (ofDocument document).map unwrapped := by
  have hobjects (d : Sdl.Definition) : object? d.unwrapped = (object? d).map unwrappedEntry := by
    cases d with
    | object name fields =>
        exact congrArg (fun fields => some (name, fields)) (map_fieldOf_unwrapped fields)
    | _ => rfl
  have hextensions (d : Sdl.Definition) :
      extension? d.unwrapped = (extension? d).map unwrappedEntry := by
    cases d with
    | objectExtension name fields =>
        exact congrArg (fun fields => some (name, fields)) (map_fieldOf_unwrapped fields)
    | _ => rfl
  have hdefined : definedObjects (document.map Sdl.Definition.unwrapped) =
      (definedObjects document).map unwrappedEntry := by
    rw [definedObjects, filterMap_unwrapped hobjects]
    exact Table.ofList_map _ _
  have hkinds : kindsOf (document.map Sdl.Definition.unwrapped) = kindsOf document := by
    rw [kindsOf, kindsOf, filterMap_unwrapped_of_eq fun d => by cases d <;> rfl]
  have hroots : rootsOf (document.map Sdl.Definition.unwrapped) = rootsOf document := by
    rw [rootsOf, rootsOf, filterMap_unwrapped_of_eq fun d => by cases d <;> rfl,
      filterMap_unwrapped_of_eq fun d => by cases d <;> rfl]
  rw [ofDocument, ofDocument, hdefined, filterMap_unwrapped hextensions, extendObjects_unwrapped,
    hkinds, hroots]
  cases extendObjects (definedObjects document) (document.filterMap extension?) with
  | error fault => rfl
  | ok objects => cases rootsOf document <;> rfl

/-! ## Runs -/

theorem selections_unwrapped (ts : TypeSystem) (mode : Mode) (object : ObjectType) :
    ts.unwrapped.selections mode object.unwrapped = ts.selections mode object := by
  rw [selections, selections, ObjectType.unwrapped, List.mapM_map]
  rfl

theorem fragmentsOf_unwrapped (ts : TypeSystem) (config : TierConfig) (object : ObjectType) :
    ts.unwrapped.fragmentsOf config object.unwrapped = ts.fragmentsOf config object := by
  have hfragment (mode : Mode) : ts.unwrapped.fragment? mode object.unwrapped =
      ts.fragment? mode object := by
    simp only [fragment?, selections_unwrapped]
    rfl
  simp only [fragmentsOf, hfragment, selections_unwrapped]
  rfl

theorem objectTypes_unwrapped (ts : TypeSystem) :
    ts.unwrapped.objectTypes = ts.objectTypes.map ObjectType.unwrapped := by
  rw [objectTypes, unwrapped, List.map_map, objectTypes, List.map_map]
  rfl

theorem fragmentTypes_unwrapped (ts : TypeSystem) :
    ts.unwrapped.fragmentTypes = ts.fragmentTypes.map ObjectType.unwrapped := by
  rw [fragmentTypes, objectTypes_unwrapped, List.filter_map]
  rfl

theorem isNone_object_unwrapped (ts : TypeSystem) (name : String) :
    (ts.unwrapped.object name).isNone = (ts.object name).isNone := by
  simp [object, unwrapped, unwrappedEntry_eq, Table.get?_map]

theorem fragments_unwrapped (ts : TypeSystem) (config : TierConfig) :
    ts.unwrapped.fragments config = ts.fragments config := by
  have hunknown : ts.unwrapped.unknownTierTypes config = ts.unknownTierTypes config := by
    simp only [unknownTierTypes, isNone_object_unwrapped]
  have hsets : ts.unwrapped.fragmentTypes.mapM (ts.unwrapped.fragmentsOf config) =
      ts.fragmentTypes.mapM (ts.fragmentsOf config) := by
    rw [fragmentTypes_unwrapped, List.mapM_map]
    exact congrArg (List.mapM · ts.fragmentTypes) (funext (ts.fragmentsOf_unwrapped config))
  rw [fragments, fragments, hunknown, hsets]

end TypeSystem

/-! ## Two schemas -/

/-- The run on a document. -/
def generateFrom (document : Sdl.Document) (config : TierConfig) : Logged FragmentSet := do
  let ts ← .ofExcept .schema (TypeSystem.ofDocument document)
  ts.fragments config

theorem generate_of_parse {schema : String} {document : Sdl.Document}
    (h : Sdl.Document.parse schema = .ok document) (tiers : Option TierConfig) :
    generate schema tiers = generateFrom document (tiers.getD .empty) := by
  have htypes : TypeSystem.ofText schema = (TypeSystem.ofDocument document).mapError .schema := by
    unfold TypeSystem.ofText
    rw [h]
    rfl
  unfold generate generateFrom
  rw [htypes]
  cases TypeSystem.ofDocument document <;> rfl

theorem generateFrom_unwrapped (document : Sdl.Document) (config : TierConfig) :
    generateFrom (document.map Sdl.Definition.unwrapped) config =
      generateFrom document config := by
  unfold generateFrom
  rw [TypeSystem.ofDocument_unwrapped]
  cases TypeSystem.ofDocument document with
  | error fault => rfl
  | ok ts => exact ts.fragments_unwrapped config

/-- Fragments of a type system are made, or a field or the name of a fragment is at fault. -/
theorem TypeSystem.result_fragments_cases (ts : TypeSystem) (config : TierConfig) :
    (∃ set, (ts.fragments config).result = .ok set) ∨
      (∃ field, (ts.fragments config).result = .error (.unknownFieldType field)) ∨
      ∃ name, (ts.fragments config).result = .error (.duplicateFragment name) := by
  rw [ts.result_fragments]
  cases ts.firstUnknownField? with
  | some field => exact Or.inr (Or.inl ⟨field, rfl⟩)
  | none =>
      dsimp only
      cases firstRepeated? [] (ts.emitted config).names with
      | some name => exact Or.inr (Or.inr ⟨name, rfl⟩)
      | none => exact Or.inl ⟨_, rfl⟩

/-- A run on a document succeeds, or it fails over the schema, a field or a fragment name. -/
theorem result_generateFrom (document : Sdl.Document) (config : TierConfig) :
    (∃ set, (generateFrom document config).result = .ok set) ∨
      (∃ fault, (generateFrom document config).result = .error (.schema fault)) ∨
      (∃ field, (generateFrom document config).result = .error (.unknownFieldType field)) ∨
      ∃ name, (generateFrom document config).result = .error (.duplicateFragment name) := by
  unfold generateFrom
  rw [Logged.result_bind, Logged.result_ofExcept]
  cases TypeSystem.ofDocument document with
  | error fault => exact Or.inr (Or.inl ⟨fault, rfl⟩)
  | ok ts =>
      obtain hset | hfield | hname := ts.result_fragments_cases config
      · exact Or.inl hset
      · exact Or.inr (Or.inr (Or.inl hfield))
      · exact Or.inr (Or.inr (Or.inr hname))

/-- Two schema texts whose definitions are the same but for the wrappers of field types have the
same run with any tiers: the same notices, and the same fragments or the same failure, which is one
of the schema, of a field or of a fragment name. -/
theorem generate_eq_of_rewrapped {schema schema' : String} {document document' : Sdl.Document}
    (hparse : Sdl.Document.parse schema = .ok document)
    (hparse' : Sdl.Document.parse schema' = .ok document')
    (h : List.Forall₂ Sdl.Definition.Rewrapped document document')
    (tiers : Option TierConfig) :
    generate schema tiers = generate schema' tiers ∧
      ((∃ set, (generate schema tiers).result = .ok set) ∨
        (∃ fault, (generate schema tiers).result = .error (.schema fault)) ∨
        (∃ field, (generate schema tiers).result = .error (.unknownFieldType field)) ∨
        ∃ name, (generate schema tiers).result = .error (.duplicateFragment name)) := by
  have hunwrapped : document.map Sdl.Definition.unwrapped =
      document'.map Sdl.Definition.unwrapped :=
    map_eq_of_forall₂ Sdl.Definition.unwrapped (fun _ _ => Sdl.Definition.Rewrapped.unwrapped_eq) h
  rw [generate_of_parse hparse, generate_of_parse hparse', ← generateFrom_unwrapped document',
    ← hunwrapped, generateFrom_unwrapped]
  exact ⟨rfl, result_generateFrom document _⟩

/-- Types of fields in several wrappings, also in an extension in front of its type. -/
def wrappedSchema : String :=
  "extend type Tree { parent: [[Tree!]]! } type Tree { name: String! leaves: [Leaf] } " ++
    "type Leaf { width: [[[Float!]!]!]! tree: Tree }"

def wrappedDocument : Sdl.Document :=
  [.objectExtension "Tree" [⟨"parent", .list (.list (.named "Tree" true) false) true⟩],
    .object "Tree" [⟨"name", .named "String" true⟩, ⟨"leaves", .list (.named "Leaf" false) false⟩],
    .object "Leaf"
      [⟨"width", .list (.list (.list (.named "Float" true) true) true) true⟩,
        ⟨"tree", .named "Tree" false⟩]]

/-- The same types of fields, wrapped the other way round. -/
def rewrappedSchema : String :=
  "extend type Tree { parent: Tree } type Tree { name: [String] leaves: Leaf! } " ++
    "type Leaf { width: Float tree: [Tree!]! }"

def rewrappedDocument : Sdl.Document :=
  [.objectExtension "Tree" [⟨"parent", .named "Tree" false⟩],
    .object "Tree" [⟨"name", .list (.named "String" false) false⟩, ⟨"leaves", .named "Leaf" true⟩],
    .object "Leaf" [⟨"width", .named "Float" false⟩, ⟨"tree", .list (.named "Tree" true) true⟩]]

def treeTiers : TierConfig :=
  [("Tree", [("Public", ["parent"]), ("None", ["width"])]), ("Root", [])]

theorem generate_eq_of_rewrapped_trees :
    Sdl.Document.parse wrappedSchema = .ok wrappedDocument ∧
      Sdl.Document.parse rewrappedSchema = .ok rewrappedDocument ∧
      List.Forall₂ Sdl.Definition.Rewrapped wrappedDocument rewrappedDocument ∧
      generate wrappedSchema (some treeTiers) = generate rewrappedSchema (some treeTiers) := by
  have hparse : Sdl.Document.parse wrappedSchema = .ok wrappedDocument :=
    eq_ok_of_toOption (by decide +kernel)
  have hparse' : Sdl.Document.parse rewrappedSchema = .ok rewrappedDocument :=
    eq_ok_of_toOption (by decide +kernel)
  have hsame : List.Forall₂ Sdl.Definition.Rewrapped wrappedDocument rewrappedDocument :=
    .cons (.objectExtension "Tree" (.cons ⟨rfl, rfl⟩ .nil))
      (.cons (.object "Tree" (.cons ⟨rfl, rfl⟩ (.cons ⟨rfl, rfl⟩ .nil)))
        (.cons (.object "Leaf" (.cons ⟨rfl, rfl⟩ (.cons ⟨rfl, rfl⟩ .nil))) .nil))
  exact ⟨hparse, hparse', hsame, (generate_eq_of_rewrapped hparse hparse' hsame _).1⟩

end GraphqlFragments
