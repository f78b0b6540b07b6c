import GraphqlFragments.Proofs.Emission
/-!
# Root operation types

An operation has the type that is assigned to it last: the entries of the last schema definition
come first, and then those of all extensions of the schema, wherever they stand. What is assigned
nowhere has a conventional type if no definition says otherwise. `isRoot_iff_effective` says that
these are the root types of a document, and which object types have fragments therefore.
-/

namespace GraphqlFragments

namespace RootTypes

/-- The type that an entry assigns to an operation, if it does. -/
def assigned? (operation : Sdl.Operation) (entry : Sdl.RootEntry) : Option String :=
  if entry.operation = operation then entry.typeName else .none

variable {r assigned : RootTypes} {operation : Sdl.Operation}

theorem get_set (r : RootTypes) (operation other : Sdl.Operation) (name : String) :
    (r.set other name).get operation =
      if other = operation then some name else r.get operation := by
  cases other <;> cases operation <;> rfl

@[simp] theorem get_none (operation : Sdl.Operation) : none.get operation = .none := by
  cases operation <;> rfl

theorem has_iff {name : String} : r.has name = true ↔ ∃ operation, r.get operation = some name := by
  constructor
  · intro h
    simp only [has, Bool.or_eq_true, decide_eq_true_eq] at h
    rcases h with (hquery | hmutation) | hsubscription
    · exact ⟨.query, hquery⟩
    · exact ⟨.mutation, hmutation⟩
    · exact ⟨.subscription, hsubscription⟩
  · rintro ⟨operation, h⟩
    cases operation <;> simp_all [has, get]

/-- Of several entries for an operation the last one counts, and without any it keeps its type. -/
theorem get_of_assign {entries : List Sdl.RootEntry} (h : r.assign entries = .ok assigned)
    (operation : Sdl.Operation) :
    assigned.get operation =
      (entries.filterMap (assigned? operation)).getLast?.or (r.get operation) := by
  induction entries generalizing r with
  | nil =>
      cases h
      rfl
  | cons entry rest ih =>
      rw [assign] at h
      cases hname : entry.typeName with
      | none =>
          rw [hname] at h
          cases h
      | some name =>
          rw [hname] at h
          rw [ih h, get_set, List.filterMap_cons, assigned?, hname]
          by_cases hoperation : entry.operation = operation
          · rw [if_pos hoperation, if_pos hoperation, List.getLast?_cons]
            cases (rest.filterMap (assigned? operation)).getLast? <;> rfl
          · rw [if_neg hoperation, if_neg hoperation]

end RootTypes

namespace TypeSystem

/-! ## Effective types -/

def isSchemaDefinition : Sdl.Definition → Bool
  | .schema _ => true
  | _ => false

/-- The entries that count, in order: those of the last schema definition, if there is one, and
those of all extensions of the schema. -/
def rootEntries (document : Sdl.Document) : List Sdl.RootEntry :=
  (document.filterMap schemaRoots?).getLast?.getD [] ++
    (document.filterMap extendedRoots?).flatten

def conventionalRoot : Sdl.Operation → String
  | .query => "Query"
  | .mutation => "Mutation"
  | .subscription => "Subscription"

/-- The type that is assigned to an operation last. An operation that no entry is for has its
conventional type if the document has no schema definition, and none otherwise. -/
def effectiveRoot? (document : Sdl.Document) (operation : Sdl.Operation) : Option String :=
  ((rootEntries document).filterMap (RootTypes.assigned? operation)).getLast?.or
    (if document.any isSchemaDefinition then none else some (conventionalRoot operation))

variable {document : Sdl.Document} {ts : TypeSystem} {config : TierConfig} {object : ObjectType}
  {set : FragmentSet}

theorem any_isSchemaDefinition (document : Sdl.Document) :
    document.any isSchemaDefinition = (document.filterMap schemaRoots?).getLast?.isSome := by
  induction document with
  | nil => rfl
  | cons d rest ih =>
      rw [List.any_cons, ih, List.filterMap_cons]
      cases d with
      | schema roots => simp [isSchemaDefinition, schemaRoots?]
      | _ => rfl

theorem get_rootsOf {roots : RootTypes} (h : rootsOf document = .ok roots)
    (operation : Sdl.Operation) : roots.get operation = effectiveRoot? document operation := by
  unfold rootsOf at h
  unfold effectiveRoot? rootEntries
  rw [any_isSchemaDefinition]
  cases hlast : (document.filterMap schemaRoots?).getLast? with
  | none =>
      rw [hlast] at h
      have hconventional : RootTypes.conventional.get operation =
          some (conventionalRoot operation) := by
        cases operation <;> rfl
      simpa [hconventional] using RootTypes.get_of_assign h operation
  | some entries =>
      rw [hlast] at h
      obtain ⟨defined, hdefined, hextended⟩ := exists_of_bind_eq_ok h
      rw [RootTypes.get_of_assign hextended, RootTypes.get_of_assign hdefined]
      simp [List.filterMap_append, List.getLast?_append]

/-! ## Types with fragments -/

theorem mem_fragmentTypes_iff :
    object ∈ ts.fragmentTypes ↔
      object ∈ ts.objectTypes ∧ isReserved object.name = false ∧ ts.isRoot object.name = false := by
  simp [fragmentTypes]

/-- A type that gets fragments has one if a fragment can select one of its fields. -/
theorem exists_type_eq_iff (hsound : ts.IsSound) (hobject : object ∈ ts.fragmentTypes) :
    (∃ f ∈ (ts.emitted config).all, f.type = object.name) ↔
      ∃ d ∈ object.fields, ts.isPrintable d := by
  constructor
  · rintro ⟨f, hf, htype⟩
    obtain ⟨other, hother, e, hhas, rfl⟩ := mem_emitted_iff.mp hf
    rw [type_edition] at htype
    obtain rfl : other = object := hsound.eq_of_name_eq hother hobject htype
    cases e with
    | default => exact hhas
    | noNesting =>
        obtain ⟨d, hd, hplain⟩ := hhas
        exact ⟨d, hd, by simp [isPrintable, hplain]⟩
    | full => exact hhas.1
    | tier label allowed => exact hhas.1
  · intro hprintable
    exact ⟨_, mem_emitted_iff.mpr ⟨object, hobject, .default, hprintable, rfl⟩, type_edition _⟩

/-- The root types of a document. For every operation the last of the entries that count gives its
type. A type of an operation never gets fragments. An object type that is of no operation, be it
called by a conventional name, gets fragments as any other type does: if a field of it leads to a
scalar, an enum or an object type. -/
theorem isRoot_iff_effective (h : ofDocument document = .ok ts) :
    (∀ name, ts.isRoot name = true ↔ ∃ operation, effectiveRoot? document operation = some name) ∧
    (∀ name, (∃ operation, effectiveRoot? document operation = some name) →
      (∀ object ∈ ts.fragmentTypes, object.name ≠ name) ∧
      ∀ config set, (ts.fragments config).result = .ok set → ∀ f ∈ set.all, f.type ≠ name) ∧
    ∀ object ∈ ts.objectTypes, isReserved object.name = false →
      (∀ operation, effectiveRoot? document operation ≠ some object.name) →
      object ∈ ts.fragmentTypes ∧
      ∀ config set, (ts.fragments config).result = .ok set →
        ((∃ f ∈ set.all, f.type = object.name) ↔ ∃ d ∈ object.fields, ts.isPrintable d) := by
  have hroots := rootsOf_of_ofDocument h
  have hroot (name : String) :
      ts.isRoot name = true ↔ ∃ operation, effectiveRoot? document operation = some name := by
    simp only [isRoot, RootTypes.has_iff, get_rootsOf hroots]
  have hnever (name : String) (hname : ts.isRoot name = true) :
      ∀ object ∈ ts.fragmentTypes, object.name ≠ name := by
    rintro object hobject rfl
    have hnot := (mem_fragmentTypes_iff.mp hobject).2.2
    rw [hname] at hnot
    cases hnot
  refine ⟨hroot, fun name hname => ?_, fun object hobject hreserved hnone => ?_⟩
  · have hname := (hroot name).mpr hname
    refine ⟨hnever name hname, fun config set hset f hf => ?_⟩
    obtain ⟨-, -, rfl⟩ := fragments_eq_ok_iff.mp hset
    obtain ⟨object, hobject, e, -, rfl⟩ := mem_emitted_iff.mp hf
    rw [type_edition]
    exact hnever name hname object hobject
  · have hfree : ts.isRoot object.name = false := by
      rw [Bool.eq_false_iff, Ne, hroot, not_exists]
      exact hnone
    have hmem : object ∈ ts.fragmentTypes := mem_fragmentTypes_iff.mpr ⟨hobject, hreserved, hfree⟩
    refine ⟨hmem, fun config set hset => ?_⟩
    obtain ⟨-, -, rfl⟩ := fragments_eq_ok_iff.mp hset
    exact exists_type_eq_iff (isSound_ofDocument h) hmem

/-- Extensions in front of the definition that they extend, a definition that another one
replaces, and an operation that an extension takes over. -/
def layered : Sdl.Document :=
  [.schemaExtension [⟨.mutation, some "Change"⟩], .object "Query" [⟨"id", .named "ID" true⟩],
    .object "Base" [⟨"id", .named "ID" true⟩], .object "Change" [⟨"id", .named "ID" true⟩],
    .schema [⟨.query, some "Query"⟩, ⟨.subscription, some "Feed"⟩],
    .object "Feed" [⟨"id", .named "ID" true⟩], .schemaExtension [⟨.query, some "Base"⟩],
    .schema [⟨.query, some "Query"⟩]]

def layeredTypes : TypeSystem where
  kinds := builtinKinds ++ [("Query", .object), ("Base", .object), ("Change", .object),
    ("Feed", .object)]
  objects :=
    [("Query", [⟨"id", .nonNull (.named "ID")⟩]), ("Base", [⟨"id", .nonNull (.named "ID")⟩]),
      ("Change", [⟨"id", .nonNull (.named "ID")⟩]), ("Feed", [⟨"id", .nonNull (.named "ID")⟩])]
  roots := ⟨some "Base", some "Change", none⟩

theorem isRoot_iff_effective_layered :
    ofDocument layered = .ok layeredTypes ∧ layeredTypes.isRoot "Base" = true ∧
      layeredTypes.isRoot "Change" = true ∧ layeredTypes.isRoot "Feed" = false ∧
      ∃ set, (layeredTypes.fragments .empty).result = .ok set ∧
        (∃ f ∈ set.all, f.type = "Query") ∧ ∀ f ∈ set.all, f.type ≠ "Base" := by
  have hdocument : ofDocument layered = .ok layeredTypes := by rfl
  obtain ⟨hroot, hroots, hothers⟩ := isRoot_iff_effective hdocument
  have hrun : (layeredTypes.fragments .empty).result = .ok (layeredTypes.emitted .empty) :=
    fragments_eq_ok_iff.mpr ⟨by decide, by decide, rfl⟩
  have hbase : ∃ operation, effectiveRoot? layered operation = some "Base" := ⟨.query, by decide⟩
  have hnone (name : String) (hname : name = "Query" ∨ name = "Feed") (operation : Sdl.Operation) :
      effectiveRoot? layered operation ≠ some name := by
    rcases hname with rfl | rfl <;> cases operation <;> decide
  have hquery := hothers ⟨"Query", [⟨"id", .nonNull (.named "ID")⟩]⟩ (by decide) (by decide)
    (hnone "Query" (Or.inl rfl))
  refine ⟨hdocument, (hroot "Base").mpr hbase, (hroot "Change").mpr ⟨.mutation, by decide⟩, ?_,
    _, hrun, ?_, (hroots "Base" hbase).2 _ _ hrun⟩
  · rw [Bool.eq_false_iff, Ne, hroot, not_exists]
    exact hnone "Feed" (Or.inr rfl)
  · exact (hquery.2 _ _ hrun).mpr (by decide)

/-- The conventional query type of this schema is that of its mutations. -/
def swapped : String :=
  "schema \x7b query: Root mutation: Query \x7d type Root \x7b id: ID \x7d " ++
    "type Query \x7b id: ID \x7d"

def swappedDocument : Sdl.Document :=
  [.schema [⟨.query, some "Root"⟩, ⟨.mutation, some "Query"⟩],
    .object "Root" [⟨"id", .named "ID" false⟩], .object "Query" [⟨"id", .named "ID" false⟩]]

def swappedTypes : TypeSystem where
  kinds := builtinKinds ++ [("Root", .object), ("Query", .object)]
  objects := [("Root", [⟨"id", .named "ID"⟩]), ("Query", [⟨"id", .named "ID"⟩])]
  roots := ⟨some "Root", some "Query", none⟩

/-- A type called Query that is not that of queries can still be that of another operation, and
then it has no fragments, whatever its fields are. -/
theorem no_fragments_swapped :
    Sdl.Document.parse swapped = .ok swappedDocument ∧
      ofDocument swappedDocument = .ok swappedTypes ∧
      effectiveRoot? swappedDocument .query ≠ some "Query" ∧
      (∃ object ∈ swappedTypes.objectTypes, object.name = "Query" ∧
        ∃ d ∈ object.fields, swappedTypes.isPrintable d) ∧
      ∃ set, (generate swapped none).result = .ok set ∧ ∀ f ∈ set.all, f.type ≠ "Query" := by
  have hparse : Sdl.Document.parse swapped = .ok swappedDocument :=
    eq_ok_of_toOption (by decide +kernel)
  have hdocument : ofDocument swappedDocument = .ok swappedTypes := rfl
  have htypes : ofText swapped = .ok swappedTypes :=
    ofText_eq_ok_iff.mpr ⟨swappedDocument, hparse, hdocument⟩
  have hrun : (generate swapped none).result = .ok (swappedTypes.emitted .empty) :=
    generate_eq_ok_iff.mpr ⟨swappedTypes, htypes, by decide, by decide, rfl⟩
  exact ⟨hparse, hdocument, by decide, by decide, _, hrun, by decide⟩

end TypeSystem

end GraphqlFragments
