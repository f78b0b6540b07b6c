import GraphqlFragments.Generation
import Mathlib.Data.List.Nodup
/-!
# The objects of a schema

Object types of a schema have different names, and a name whose kind is that of an
object type has an object type, although the two are found in different tables.
-/

namespace GraphqlFragments.TypeSystem

/-- The object types of a type system are known by their names, and kinds speak of
object types that exist. -/
structure IsSound (ts : TypeSystem) : Prop where
  nodup_objects : ts.objects.keys.Nodup
  mem_objects_of_kind : ∀ name, ts.kindOf name = some .object → name ∈ ts.objects.keys

theorem keys_extendObjects {objects extended : Table (List Field)}
    {extensions : List (String × List Field)}
    (h : extendObjects objects extensions = .ok extended) : extended.keys = objects.keys := by
  induction extensions generalizing objects with
  | nil =>
      cases h
      rfl
  | cons extension rest ih =>
      obtain ⟨name, fields⟩ := extension
      rw [extendObjects] at h
      split at h
      · rw [ih h, Table.keys_modify]
      · cases h

theorem not_object_of_builtin {name : String} :
    Table.get? builtinKinds name ≠ some .object := by
  intro h
  have hmem := Table.mem_of_get? h
  simp [builtinKinds] at hmem

/-- The kind of an object type comes from the definition of one. -/
theorem mem_definedObjects_of_kind {document : Sdl.Document} {name : String}
    (h : (kindsOf document).get? name = some .object) :
    name ∈ (definedObjects document).keys := by
  rcases Table.get?_foldl_insert h with hintroduced | hbuiltin
  · obtain ⟨definition, hdefinition, hkind⟩ := List.mem_filterMap.mp hintroduced
    cases definition with
    | object n fields =>
        cases hkind
        have hobject : (name, fields.map fieldOf) ∈ document.filterMap object? :=
          List.mem_filterMap.mpr ⟨_, hdefinition, rfl⟩
        exact Table.mem_keys_ofList_of_mem hobject
    | scalar n => cases hkind
    | enum n => cases hkind
    | interface n => cases hkind
    | union n => cases hkind
    | input n => cases hkind
    | objectExtension n fields => cases hkind
    | schema roots => cases hkind
    | schemaExtension roots => cases hkind
  · exact absurd hbuiltin not_object_of_builtin

theorem isSound_ofDocument {document : Sdl.Document} {ts : TypeSystem}
    (h : ofDocument document = .ok ts) : ts.IsSound := by
  unfold ofDocument at h
  cases hobjects : extendObjects (definedObjects document) (document.filterMap extension?) with
  | error fault =>
      rw [hobjects] at h
      cases h
  | ok objects =>
      cases hroots : rootsOf document with
      | error fault =>
          rw [hobjects, hroots] at h
          cases h
      | ok roots =>
          rw [hobjects, hroots] at h
          cases h
          have hkeys := keys_extendObjects hobjects
          refine ⟨?_, fun name hkind => ?_⟩
          · rw [hkeys]
            exact Table.nodup_keys_ofList _
          · rw [hkeys]
            exact mem_definedObjects_of_kind hkind

/-- A text with a type system is a document that means it. -/
theorem ofText_eq_ok_iff {schema : String} {ts : TypeSystem} :
    ofText schema = .ok ts ↔
      ∃ document, Sdl.Document.parse schema = .ok document ∧ ofDocument document = .ok ts := by
  unfold ofText
  cases Sdl.Document.parse schema with
  | error problem => simp [Except.mapError, bind, Except.bind]
  | ok document => cases h : ofDocument document <;> simp [Except.mapError, bind, Except.bind, h]

theorem isSound_ofText {schema : String} {ts : TypeSystem} (h : ofText schema = .ok ts) :
    ts.IsSound := by
  obtain ⟨document, -, hdocument⟩ := ofText_eq_ok_iff.mp h
  exact isSound_ofDocument hdocument

variable {ts : TypeSystem} {a b : ObjectType}

/-- Object types with fragments are known by their names. -/
theorem IsSound.eq_of_name_eq (h : ts.IsSound) (ha : a ∈ ts.fragmentTypes)
    (hb : b ∈ ts.fragmentTypes) (hname : a.name = b.name) : a = b := by
  have hnames : ts.objectTypes.map ObjectType.name = ts.objects.keys := by
    rw [objectTypes, List.map_map]
    rfl
  have hnodup := h.nodup_objects
  rw [← hnames] at hnodup
  exact List.inj_on_of_nodup_map hnodup (List.mem_of_mem_filter ha) (List.mem_of_mem_filter hb)
    hname

theorem isSome_object_of_mem (h : a ∈ ts.fragmentTypes) : (ts.object a.name).isSome := by
  obtain ⟨⟨name, fields⟩, hmem, rfl⟩ := List.mem_map.mp (List.mem_of_mem_filter h)
  unfold object
  rw [Option.isSome_map, Table.isSome_get?_iff]
  exact List.mem_map_of_mem hmem

end GraphqlFragments.TypeSystem
