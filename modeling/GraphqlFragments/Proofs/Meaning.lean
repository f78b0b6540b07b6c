import GraphqlFragments.Proofs.Definitions
import Mathlib.Logic.Relation
/-!
# What a schema document means

Of several definitions of one name the last one counts, extensions of object types count
wherever they stand, and object types stand in the order of their first definitions. The main
statement is `ofDocument_meaning`. It also says which edits of a document nobody can notice:
moving extensions, and leaving out definitions that a later one overrides.
-/

namespace GraphqlFragments

namespace TypeSystem

/-! ## What a definition says about a name -/

/-- The kind of type that a definition introduces under a name, if it does. -/
def kindFor? (name : String) : Sdl.Definition → Option TypeKind
  | .scalar n => if n = name then some .scalar else none
  | .enum n => if n = name then some .enum else none
  | .interface n => if n = name then some .interface else none
  | .union n => if n = name then some .union else none
  | .input n => if n = name then some .inputObject else none
  | .object n _ => if n = name then some .object else none
  | _ => none

/-- The fields with which a definition introduces an object type of a name. -/
def fieldsFor? (name : String) : Sdl.Definition → Option (List Sdl.FieldDefinition)
  | .object n fields => if n = name then some fields else none
  | _ => none

/-- The fields that a definition adds to an object type of a name. -/
def addedFor (name : String) : Sdl.Definition → List Sdl.FieldDefinition
  | .objectExtension n fields => if n = name then fields else []
  | _ => []

/-- The name of the object type that a definition introduces. -/
def objectName? : Sdl.Definition → Option String
  | .object n _ => some n
  | _ => none

def builtinScalars : List String := ["Int", "Float", "String", "Boolean", "ID"]

theorem kindFor?_eq (name : String) (d : Sdl.Definition) :
    kindFor? name d = (introduced? d).bind fun entry =>
      if entry.1 = name then some entry.2 else none := by
  cases d <;> rfl

theorem get?_builtinKinds (name : String) :
    Table.get? builtinKinds name = if name ∈ builtinScalars then some .scalar else none := by
  unfold builtinKinds builtinScalars
  simp only [Table.get?, List.mem_cons, List.not_mem_nil, or_false]
  grind

/-- The kind of a name is that of its last definition. -/
theorem get?_kindsOf (document : Sdl.Document) (name : String) :
    (kindsOf document).get? name = (document.filterMap (kindFor? name)).getLast?.or
      (if name ∈ builtinScalars then some .scalar else none) := by
  rw [kindsOf, Table.get?_foldl_insert_eq, Table.get?_append, Table.get?_reverse,
    List.filterMap_filterMap, get?_builtinKinds, funext (kindFor?_eq name)]

theorem get?_definedObjects (document : Sdl.Document) (name : String) :
    (definedObjects document).get? name =
      (document.filterMap (fieldsFor? name)).getLast?.map (List.map fieldOf) := by
  have hfields (d : Sdl.Definition) :
      ((object? d).bind fun entry => if entry.1 = name then some entry.2 else none) =
        (fieldsFor? name d).map (List.map fieldOf) := by
    cases d with
    | object n fields => by_cases h : n = name <;> simp [object?, fieldsFor?, h]
    | _ => rfl
  rw [definedObjects, Table.ofList, Table.get?_foldl_insert_eq, List.append_nil,
    Table.get?_reverse, List.filterMap_filterMap, funext hfields, ← List.map_filterMap,
    List.getLast?_map]

theorem keys_definedObjects (document : Sdl.Document) :
    (definedObjects document).keys = (document.filterMap objectName?).eraseDups := by
  have hname (d : Sdl.Definition) : (object? d).map Prod.fst = objectName? d := by
    cases d <;> rfl
  rw [definedObjects, Table.keys_ofList, List.map_filterMap, funext hname]

/-! ## Extensions -/

/-- The fields that extensions add to an object type, in their order. -/
def added (extensions : List (String × List Field)) (name : String) : List Field :=
  extensions.flatMap fun extension => if extension.1 = name then extension.2 else []

/-- Extensions add their fields at the end, unless one extends what is not defined. -/
theorem extendObjects_eq {objects : Table (List Field)} (h : objects.keys.Nodup)
    (extensions : List (String × List Field)) :
    extendObjects objects extensions =
      if ∀ extension ∈ extensions, extension.1 ∈ objects.keys then
        .ok (objects.map fun object => (object.1, object.2 ++ added extensions object.1))
      else .error .undefinedExtension := by
  induction extensions generalizing objects with
  | nil => simp [extendObjects, added]
  | cons extension rest ih =>
      obtain ⟨name, fields⟩ := extension
      have hcontains : objects.contains name = true ↔ name ∈ objects.keys := Table.isSome_get?_iff
      rw [extendObjects]
      by_cases hname : name ∈ objects.keys
      · have hmodified : (objects.modify name (· ++ fields)).keys.Nodup := by
          rwa [Table.keys_modify]
        rw [if_pos (hcontains.mpr hname), ih hmodified, Table.keys_modify,
          Table.modify_eq_map h, List.map_map]
        simp only [List.forall_mem_cons, hname, true_and]
        have hfields (object : String × List Field) :
            (if object.1 = name then object.2 ++ fields else object.2) ++ added rest object.1 =
              object.2 ++ added ((name, fields) :: rest) object.1 := by
          simp only [added, List.flatMap_cons, eq_comm (a := name)]
          split <;> simp
        simp only [Function.comp_def, hfields]
      · rw [if_neg fun hc => hname (hcontains.mp hc),
          if_neg fun hall => hname (hall _ List.mem_cons_self)]

/-- Extensions can be applied if all that they extend is defined. -/
def Extendable (document : Sdl.Document) : Prop :=
  ∀ name fields, .objectExtension name fields ∈ document →
    ∃ defined, .object name defined ∈ document

theorem mem_keys_definedObjects_iff {document : Sdl.Document} {name : String} :
    name ∈ (definedObjects document).keys ↔ ∃ fields, .object name fields ∈ document := by
  rw [keys_definedObjects, List.mem_eraseDups, List.mem_filterMap]
  constructor
  · rintro ⟨d, hd, hname⟩
    cases d with
    | object n fields =>
        cases hname
        exact ⟨fields, hd⟩
    | _ => cases hname
  · rintro ⟨fields, hd⟩
    exact ⟨_, hd, rfl⟩

theorem extendable_iff {document : Sdl.Document} :
    (∀ extension ∈ document.filterMap extension?, extension.1 ∈ (definedObjects document).keys) ↔
      Extendable document := by
  simp only [List.mem_filterMap, mem_keys_definedObjects_iff]
  constructor
  · intro h name fields hmem
    exact h (name, fields.map fieldOf) ⟨_, hmem, rfl⟩
  · rintro h extension ⟨d, hd, hextension⟩
    cases d with
    | objectExtension n fields =>
        cases hextension
        exact h n fields hd
    | _ => cases hextension

theorem added_extensions (document : Sdl.Document) (name : String) :
    added (document.filterMap extension?) name =
      (document.flatMap (addedFor name)).map fieldOf := by
  induction document with
  | nil => rfl
  | cons d rest ih =>
      rw [List.flatMap_cons, List.map_append, ← ih, List.filterMap_cons]
      cases d with
      | objectExtension n fields =>
          by_cases h : n = name <;> simp [extension?, added, addedFor, h]
      | _ => rfl

/-! ## What is read -/

theorem assign_ne_undefinedExtension (roots : RootTypes) (entries : List Sdl.RootEntry) :
    roots.assign entries ≠ .error .undefinedExtension := by
  induction entries generalizing roots with
  | nil => exact nofun
  | cons entry rest ih =>
      rw [RootTypes.assign]
      cases entry.typeName with
      | none => exact nofun
      | some name => exact ih _

private theorem bind_ne_error {ε α β : Type} {x : Except ε α} {f : α → Except ε β} {fault : ε}
    (hx : x ≠ .error fault) (hf : ∀ a, f a ≠ .error fault) : x >>= f ≠ .error fault := by
  cases x with
  | error other => exact fun h => hx (congrArg _ (Except.error.inj h))
  | ok a => exact hf a

theorem rootsOf_ne_undefinedExtension (document : Sdl.Document) :
    rootsOf document ≠ .error .undefinedExtension := by
  unfold rootsOf
  cases (document.filterMap schemaRoots?).getLast? with
  | none => exact assign_ne_undefinedExtension _ _
  | some entries =>
      exact bind_ne_error (assign_ne_undefinedExtension _ _) fun roots =>
        assign_ne_undefinedExtension roots _

/-- The object types of a document with all their fields. -/
def extendedObjects (document : Sdl.Document) : Table (List Field) :=
  (definedObjects document).map fun object =>
    (object.1, object.2 ++ (document.flatMap (addedFor object.1)).map fieldOf)

theorem extendObjects_definedObjects (document : Sdl.Document) :
    extendObjects (definedObjects document) (document.filterMap extension?) =
      if ∀ extension ∈ document.filterMap extension?,
        extension.1 ∈ (definedObjects document).keys then .ok (extendedObjects document)
      else .error .undefinedExtension := by
  have hnodup : (definedObjects document).keys.Nodup := Table.nodup_keys_ofList _
  rw [extendObjects_eq hnodup]
  simp only [added_extensions]
  rfl

theorem ofDocument_of_not_extendable {document : Sdl.Document} (h : ¬Extendable document) :
    ofDocument document = .error .undefinedExtension := by
  unfold ofDocument
  rw [extendObjects_definedObjects, if_neg fun hall => h (extendable_iff.mp hall)]
  rfl

theorem ofDocument_of_extendable {document : Sdl.Document} (h : Extendable document) :
    ofDocument document = (rootsOf document).map fun roots =>
      ⟨kindsOf document, extendedObjects document, roots⟩ := by
  unfold ofDocument
  rw [extendObjects_definedObjects, if_pos (extendable_iff.mpr h)]
  cases rootsOf document <;> rfl

theorem ofDocument_eq_undefinedExtension_iff {document : Sdl.Document} :
    ofDocument document = .error .undefinedExtension ↔ ¬Extendable document := by
  refine ⟨fun h hextendable => ?_, ofDocument_of_not_extendable⟩
  rw [ofDocument_of_extendable hextendable] at h
  cases hroots : rootsOf document with
  | error fault =>
      rw [hroots] at h
      cases h
      exact rootsOf_ne_undefinedExtension document hroots
  | ok roots =>
      rw [hroots] at h
      cases h

/-- What has been read of a document. -/
theorem exists_roots_of_ofDocument {document : Sdl.Document} {ts : TypeSystem}
    (h : ofDocument document = .ok ts) :
    ∃ roots, rootsOf document = .ok roots ∧
      ts = ⟨kindsOf document, extendedObjects document, roots⟩ := by
  by_cases hextendable : Extendable document
  · rw [ofDocument_of_extendable hextendable] at h
    cases hroots : rootsOf document with
    | error fault =>
        rw [hroots] at h
        cases h
    | ok roots =>
        rw [hroots] at h
        cases h
        exact ⟨roots, rfl, rfl⟩
  · rw [ofDocument_of_not_extendable hextendable] at h
    cases h

theorem eq_of_ofDocument {document : Sdl.Document} {ts : TypeSystem}
    (h : ofDocument document = .ok ts) :
    ts.kinds = kindsOf document ∧ ts.objects = extendedObjects document := by
  obtain ⟨roots, -, rfl⟩ := exists_roots_of_ofDocument h
  exact ⟨rfl, rfl⟩

theorem rootsOf_of_ofDocument {document : Sdl.Document} {ts : TypeSystem}
    (h : ofDocument document = .ok ts) : rootsOf document = .ok ts.roots := by
  obtain ⟨roots, hroots, rfl⟩ := exists_roots_of_ofDocument h
  exact hroots

theorem get?_extendedObjects (document : Sdl.Document) (name : String) :
    (extendedObjects document).get? name =
      (document.filterMap (fieldsFor? name)).getLast?.map fun fields =>
        (fields ++ document.flatMap (addedFor name)).map fieldOf := by
  rw [extendedObjects, Table.get?_mapEntries (fun name fields =>
    fields ++ (document.flatMap (addedFor name)).map fieldOf), get?_definedObjects,
    Option.map_map]
  simp only [Function.comp_def, List.map_append]

theorem keys_extendedObjects (document : Sdl.Document) :
    (extendedObjects document).keys = (document.filterMap objectName?).eraseDups := by
  rw [← keys_definedObjects, extendedObjects, Table.keys, List.map_map]
  rfl

theorem map_name_objectTypes (ts : TypeSystem) :
    ts.objectTypes.map ObjectType.name = ts.objects.keys := by
  rw [objectTypes, List.map_map]
  rfl

/-- The types that get fragments come in the order of all object types. -/
theorem map_name_fragmentTypes (ts : TypeSystem) :
    ts.fragmentTypes.map ObjectType.name =
      ts.objects.keys.filter fun name => !isReserved name && !ts.isRoot name := by
  rw [← map_name_objectTypes, fragmentTypes, List.filter_map]
  rfl

/-! ## Fields -/

/-- A field of an object type stands in a definition or in an extension of it. -/
theorem exists_definition_of_mem_fields {document : Sdl.Document} {ts : TypeSystem}
    (h : ofDocument document = .ok ts) {object : ObjectType} (hobject : object ∈ ts.objectTypes)
    {field : Field} (hfield : field ∈ object.fields) :
    ∃ fields, (.object object.name fields ∈ document ∨
        .objectExtension object.name fields ∈ document) ∧
      ∃ d ∈ fields, field = fieldOf d := by
  obtain ⟨⟨name, fields⟩, hmem, rfl⟩ := List.mem_map.mp hobject
  have hget := (Table.mem_iff_get? (isSound_ofDocument h).nodup_objects).mp hmem
  rw [(eq_of_ofDocument h).2, get?_extendedObjects] at hget
  obtain ⟨defined, hlast, rfl⟩ := Option.map_eq_some_iff.mp hget
  obtain ⟨d, hd, rfl⟩ := List.mem_map.mp hfield
  rcases List.mem_append.mp hd with hdefined | hadded
  · obtain ⟨definition, hdefinition, hfields⟩ :=
      List.mem_filterMap.mp (List.mem_of_getLast? hlast)
    cases definition with
    | object n fields =>
        obtain ⟨rfl, rfl⟩ : n = name ∧ fields = defined := by simpa [fieldsFor?] using hfields
        exact ⟨fields, Or.inl hdefinition, d, hdefined, rfl⟩
    | _ => cases hfields
  · obtain ⟨definition, hdefinition, hfields⟩ := List.mem_flatMap.mp hadded
    cases definition with
    | objectExtension n fields =>
        obtain ⟨rfl, hwritten⟩ : n = name ∧ d ∈ fields := by
          rw [addedFor] at hfields
          split at hfields
          · next hn => exact ⟨hn, hfields⟩
          · cases hfields
        exact ⟨fields, Or.inr hdefinition, d, hwritten, rfl⟩
    | _ => cases hfields

/-! ## Edits -/

/-- A definition extends an object type of a name. -/
def extends? (name : String) : Sdl.Definition → Bool
  | .objectExtension n _ => n = name
  | _ => false

def isExtension : Sdl.Definition → Bool
  | .objectExtension _ _ => true
  | _ => false

/-- An edit that is not to change what a document means. -/
inductive Edit : Sdl.Document → Sdl.Document → Prop
  /-- Extensions stand at other places, those of one type in the same order. -/
  | move {old new : Sdl.Document}
      (rest : old.filter (fun d => !isExtension d) = new.filter fun d => !isExtension d)
      (order : ∀ name, old.filter (extends? name) = new.filter (extends? name)) : Edit old new
  /-- A definition that is not of an object type is left out before a later definition of the
  same name. -/
  | drop {before after : Sdl.Document} {d : Sdl.Definition} {name : String} {kind : TypeKind}
      (introduces : kindFor? name d = some kind) (other : kind ≠ .object)
      (later : ∃ e ∈ after, (kindFor? name e).isSome) :
      Edit (before ++ d :: after) (before ++ after)

/-- What the reading of a document looks at. -/
structure SaysTheSame (a b : Sdl.Document) : Prop where
  kinds : ∀ name, (kindsOf a).get? name = (kindsOf b).get? name
  objects : a.filterMap object? = b.filterMap object?
  extensions : ∀ name fields, .objectExtension name fields ∈ a ↔ .objectExtension name fields ∈ b
  added : ∀ name, a.flatMap (addedFor name) = b.flatMap (addedFor name)
  roots : a.filterMap schemaRoots? = b.filterMap schemaRoots?
  extendedRoots : a.filterMap extendedRoots? = b.filterMap extendedRoots?

/-- Two type systems that nobody can tell apart. -/
structure Alike (a b : TypeSystem) : Prop where
  kindOf : ∀ name, a.kindOf name = b.kindOf name
  objects : a.objects = b.objects
  roots : a.roots = b.roots

/-- The same fault, or type systems that nobody can tell apart. -/
def Agree : Except SchemaFault TypeSystem → Except SchemaFault TypeSystem → Prop
  | .error a, .error b => a = b
  | .ok a, .ok b => Alike a b
  | _, _ => False

theorem SaysTheSame.agree {a b : Sdl.Document} (h : SaysTheSame a b) :
    Agree (ofDocument a) (ofDocument b) := by
  have hobjects : definedObjects a = definedObjects b := by
    rw [definedObjects, definedObjects, h.objects]
  have hdefined (name : String) :
      (∃ fields, .object name fields ∈ a) ↔ ∃ fields, .object name fields ∈ b := by
    rw [← mem_keys_definedObjects_iff, ← mem_keys_definedObjects_iff, hobjects]
  have hextendable : Extendable a ↔ Extendable b := by
    simp only [Extendable, h.extensions, hdefined]
  by_cases ha : Extendable a
  · have hextended : extendedObjects a = extendedObjects b := by
      simp only [extendedObjects, hobjects, h.added]
    have hroots : rootsOf a = rootsOf b := by
      simp only [rootsOf, h.roots, h.extendedRoots]
    rw [ofDocument_of_extendable ha, ofDocument_of_extendable (hextendable.mp ha), hroots]
    cases rootsOf b with
    | error fault => rfl
    | ok roots => exact ⟨h.kinds, hextended, rfl⟩
  · rw [ofDocument_of_not_extendable ha,
      ofDocument_of_not_extendable fun hb => ha (hextendable.mpr hb)]
    rfl

theorem filterMap_filter_of_none {α β : Type} {f : α → Option β} {p : α → Bool}
    (h : ∀ a, p a = false → f a = none) (items : List α) :
    (items.filter p).filterMap f = items.filterMap f := by
  rw [List.filterMap_filter]
  refine congrArg (List.filterMap · items) (funext fun a => ?_)
  cases hp : p a with
  | false => exact (h a hp).symm
  | true => rfl

theorem saysTheSame_of_move {old new : Sdl.Document}
    (hrest : old.filter (fun d => !isExtension d) = new.filter fun d => !isExtension d)
    (horder : ∀ name, old.filter (extends? name) = new.filter (extends? name)) :
    SaysTheSame old new := by
  have hviews {β : Type} {f : Sdl.Definition → Option β}
      (hf : ∀ name fields, f (.objectExtension name fields) = none) :
      old.filterMap f = new.filterMap f := by
    have hnone (d : Sdl.Definition) (hd : (!isExtension d) = false) : f d = none := by
      cases d with
      | objectExtension name fields => exact hf name fields
      | _ => cases hd
    rw [← filterMap_filter_of_none hnone old, hrest, filterMap_filter_of_none hnone new]
  have hadded (document : Sdl.Document) (name : String) :
      document.flatMap (addedFor name) =
        (document.filter (extends? name)).flatMap (addedFor name) := by
    induction document with
    | nil => rfl
    | cons d rest ih =>
        rw [List.flatMap_cons, ih, List.filter_cons]
        cases d with
        | objectExtension n fields => by_cases h : n = name <;> simp [extends?, addedFor, h]
        | _ => rfl
  refine ⟨fun name => ?_, hviews fun _ _ => rfl, fun name fields => ?_, fun name => ?_,
    hviews fun _ _ => rfl, hviews fun _ _ => rfl⟩
  · rw [kindsOf, kindsOf, hviews fun _ _ => rfl]
  · have hmem (document : Sdl.Document) : .objectExtension name fields ∈ document ↔
        .objectExtension name fields ∈ document.filter (extends? name) := by
      simp [extends?]
    rw [hmem old, horder, ← hmem new]
  · rw [hadded old, horder, ← hadded new]

/-- What a definition says is not said last if a later one says something as well. -/
theorem getLast?_filterMap_drop {before after : Sdl.Document} {d : Sdl.Definition}
    {f : Sdl.Definition → Option TypeKind} (h : f d = none ∨ ∃ e ∈ after, (f e).isSome) :
    ((before ++ d :: after).filterMap f).getLast? = ((before ++ after).filterMap f).getLast? := by
  cases hd : f d with
  | none => rw [List.filterMap_append, List.filterMap_cons_none hd, List.filterMap_append]
  | some kind =>
      obtain ⟨e, he, hsome⟩ := h.resolve_left (by rw [hd]; exact nofun)
      have hne : after.filterMap f ≠ [] := by
        obtain ⟨other, hother⟩ := Option.isSome_iff_exists.mp hsome
        exact List.ne_nil_of_mem (List.mem_filterMap.mpr ⟨e, he, hother⟩)
      rw [List.filterMap_append, List.filterMap_cons_some hd, List.filterMap_append,
        List.getLast?_append_of_ne_nil _ hne,
        List.getLast?_append_of_ne_nil _ (List.cons_ne_nil kind _),
        List.getLast?_cons_of_ne_nil hne]

theorem saysTheSame_of_drop {before after : Sdl.Document} {d : Sdl.Definition} {name : String}
    {kind : TypeKind} (hd : kindFor? name d = some kind) (hkind : kind ≠ .object)
    (hlater : ∃ e ∈ after, (kindFor? name e).isSome) :
    SaysTheSame (before ++ d :: after) (before ++ after) := by
  have hviews {β : Type} {f : Sdl.Definition → Option β} (hf : f d = none) :
      (before ++ d :: after).filterMap f = (before ++ after).filterMap f := by
    rw [List.filterMap_append, List.filterMap_cons_none hf, List.filterMap_append]
  have hother (n : String) (hn : n ≠ name) : kindFor? n d = none := by
    cases d <;> grind [kindFor?]
  have hkinds (n : String) : kindFor? n d = none ∨ ∃ e ∈ after, (kindFor? n e).isSome := by
    by_cases hn : n = name
    · exact Or.inr (hn ▸ hlater)
    · exact Or.inl (hother n hn)
  have hobject (fields : List Sdl.FieldDefinition) (n : String) : d ≠ .object n fields := by
    rintro rfl
    grind [kindFor?]
  have hextension (fields : List Sdl.FieldDefinition) (n : String) :
      d ≠ .objectExtension n fields := by
    rintro rfl
    cases hd
  refine ⟨fun n => ?_, hviews ?_, fun n fields => ?_, fun n => ?_, hviews ?_, hviews ?_⟩
  · rw [get?_kindsOf, get?_kindsOf, getLast?_filterMap_drop (hkinds n)]
  · cases d with
    | object n fields => exact absurd rfl (hobject fields n)
    | _ => rfl
  · simp only [List.mem_append, List.mem_cons, (hextension fields n).symm, false_or]
  · cases d with
    | objectExtension n fields => exact absurd rfl (hextension fields n)
    | _ => simp [addedFor]
  · cases d with
    | schema roots => cases hd
    | _ => rfl
  · cases d with
    | schemaExtension roots => cases hd
    | _ => rfl

theorem SaysTheSame.trans {a b c : Sdl.Document} (h : SaysTheSame a b) (h' : SaysTheSame b c) :
    SaysTheSame a c where
  kinds name := (h.kinds name).trans (h'.kinds name)
  objects := h.objects.trans h'.objects
  extensions name fields := (h.extensions name fields).trans (h'.extensions name fields)
  added name := (h.added name).trans (h'.added name)
  roots := h.roots.trans h'.roots
  extendedRoots := h.extendedRoots.trans h'.extendedRoots

theorem saysTheSame_of_edits {old new : Sdl.Document} (h : Relation.ReflTransGen Edit old new) :
    SaysTheSame old new := by
  induction h with
  | refl => exact ⟨fun _ => rfl, rfl, fun _ _ => Iff.rfl, fun _ => rfl, rfl, rfl⟩
  | tail _ hedit ih =>
      refine ih.trans ?_
      cases hedit with
      | move rest order => exact saysTheSame_of_move rest order
      | drop introduces other later => exact saysTheSame_of_drop introduces other later

/-! ## The meaning -/

/-- The meaning of every document. Reading it fails over an extension exactly if what is
extended is defined nowhere. Otherwise the last definition of a name gives its kind and its
fields, extensions add theirs in the order of the document, and object types come in the order
of their first definitions. -/
theorem ofDocument_meaning (document : Sdl.Document) :
    (ofDocument document = .error .undefinedExtension ↔
      ∃ name fields, .objectExtension name fields ∈ document ∧
        ∀ defined, .object name defined ∉ document) ∧
    (∀ ts, ofDocument document = .ok ts →
      (∀ name, ts.kindOf name = (document.filterMap (kindFor? name)).getLast?.or
        (if name ∈ builtinScalars then some .scalar else none)) ∧
      (∀ name, ts.object name =
        (document.filterMap (fieldsFor? name)).getLast?.map fun fields =>
          ⟨name, (fields ++ document.flatMap (addedFor name)).map fieldOf⟩) ∧
      ts.objectTypes.map ObjectType.name = (document.filterMap objectName?).eraseDups ∧
      ts.fragmentTypes.map ObjectType.name =
        (document.filterMap objectName?).eraseDups.filter
          (fun name => !isReserved name && !ts.isRoot name) ∧
      ∀ object ∈ ts.objectTypes, ts.object object.name = some object) ∧
    (∀ edited, Relation.ReflTransGen Edit document edited →
      Agree (ofDocument document) (ofDocument edited)) ∧
    ∀ schema, Sdl.Document.parse schema = .ok document →
      ofText schema = (ofDocument document).mapError .schema := by
  refine ⟨?_, fun ts hts => ?_, fun edited hedits => (saysTheSame_of_edits hedits).agree,
    fun schema hparse => ?_⟩
  · rw [ofDocument_eq_undefinedExtension_iff]
    simp only [Extendable, not_forall, not_exists, exists_prop]
  · obtain ⟨hkinds, hobjects⟩ := eq_of_ofDocument hts
    have hkeys : ts.objects.keys = (document.filterMap objectName?).eraseDups := by
      rw [hobjects, keys_extendedObjects]
    refine ⟨fun name => ?_, fun name => ?_, ?_, ?_, fun object hobject => ?_⟩
    · rw [kindOf, hkinds, get?_kindsOf]
    · rw [TypeSystem.object, hobjects, get?_extendedObjects, Option.map_map]
      rfl
    · rw [map_name_objectTypes, hkeys]
    · rw [map_name_fragmentTypes, hkeys]
    · obtain ⟨⟨name, fields⟩, hmem, rfl⟩ := List.mem_map.mp hobject
      have hget := (Table.mem_iff_get? (isSound_ofDocument hts).nodup_objects).mp hmem
      rw [TypeSystem.object, hget]
      rfl
  · unfold ofText
    rw [hparse]
    rfl

example :
    (ofDocument [.objectExtension "Post" [⟨"title", .named "String" false⟩], .enum "Post",
      .object "User" [⟨"id", .named "ID" true⟩], .object "Post" [],
      .object "Post" [⟨"id", .named "ID" true⟩]]).toOption.map objectTypes =
    some [⟨"User", [⟨"id", .nonNull (.named "ID")⟩]⟩,
      ⟨"Post", [⟨"id", .nonNull (.named "ID")⟩, ⟨"title", .named "String"⟩]⟩] := by
  decide

end TypeSystem

end GraphqlFragments
