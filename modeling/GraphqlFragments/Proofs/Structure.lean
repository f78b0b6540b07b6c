import GraphqlFragments.Proofs.Meaning
import GraphqlFragments.Proofs.Sdl.Types
/-!
# The structure of types

The type of a field has the wrappers and the name that are written in the schema, however deep they
nest. So types of fields are the same only if they are written in the same way, and no type is
made non-null twice.
-/

namespace GraphqlFragments

namespace TypeRef

/-! ## Types of the grammar -/

/-- A type stands somewhere in another one, or is the whole of it. -/
inductive Within (part : TypeRef) : TypeRef → Prop
  | whole : Within part part
  | list {item : TypeRef} (h : Within part item) : Within part (list item)
  | nonNull {inner : TypeRef} (h : Within part inner) : Within part (nonNull inner)

theorem ofExpr_list (item : Sdl.TypeExpr) (required : Bool) :
    ofExpr (.list item required) =
      if required then nonNull (list (ofExpr item)) else list (ofExpr item) := by
  rw [ofExpr_eq_wrap, ofExpr_eq_wrap]
  cases required <;> rfl

theorem not_within_ofExpr (e : Sdl.TypeExpr) (t : TypeRef) :
    ¬Within (nonNull (nonNull t)) (ofExpr e) := by
  induction e with
  | named name required =>
      cases required with
      | false =>
          change ¬Within _ (named name)
          exact nofun
      | true =>
          change ¬Within _ (nonNull (named name))
          rintro (_ | _ | hname)
          cases hname
  | list item required ih =>
      have hlist : ¬Within (nonNull (nonNull t)) (list (ofExpr item)) := by
        intro h
        cases h with
        | list hitem => exact ih hitem
      rw [ofExpr_list]
      cases required with
      | false => exact hlist
      | true =>
          intro h
          cases h with
          | nonNull hinner => exact hlist hinner

/-- A type reference is that of a type of the grammar exactly if nothing in it is made non-null
twice. -/
theorem exists_ofExpr_eq_iff {t : TypeRef} :
    (∃ e, ofExpr e = t) ↔ ∀ s, ¬Within (nonNull (nonNull s)) t := by
  constructor
  · rintro ⟨e, rfl⟩
    exact not_within_ofExpr e
  · intro h
    induction t with
    | named name => exact ⟨.named name false, rfl⟩
    | list item ih =>
        obtain ⟨e, rfl⟩ := ih fun s hs => h s (.list hs)
        exact ⟨.list e false, ofExpr_list e false⟩
    | nonNull inner ih =>
        obtain ⟨e, rfl⟩ := ih fun s hs => h s (.nonNull hs)
        -- The type inside takes the mark, unless it has one of its own.
        cases e with
        | named name required =>
            cases required with
            | false => exact ⟨.named name true, rfl⟩
            | true => exact absurd .whole (h (named name))
        | list item required =>
            cases required with
            | false => exact ⟨.list item true, by rw [ofExpr_list, ofExpr_list]; rfl⟩
            | true =>
                rw [ofExpr_list] at h
                exact absurd .whole (h (list (ofExpr item)))

/-! ## Types of a schema -/

/-- Types keep their structure. The type reference of a type of the grammar has the same wrappers
from the outside in and the same innermost name, and no others are spelled by the tokens that the
type is read from. The types of the fields of a schema are those of its definitions, and none of
them has a non-null mark directly inside another one. Two types are equal as type references exactly
if they are written with the same wrappers in the same order around the same name. -/
theorem ofExpr_keeps_structure :
    (∀ e : Sdl.TypeExpr,
      (ofExpr e).wrappers = e.wrappers ∧ (ofExpr e).innermost = e.innermost) ∧
    (∀ (c rest : Sdl.Cursor) (e : Sdl.TypeExpr), Sdl.Parser.type.run c = .ok (e, rest) →
      ∀ ws name, c.unread = Sdl.spelled ws name ++ rest.unread ↔
        (ofExpr e).wrappers = ws ∧ (ofExpr e).innermost = name) ∧
    (∀ schema ts, TypeSystem.ofText schema = .ok ts →
      ∃ document, Sdl.Document.parse schema = .ok document ∧
        ∀ object ∈ ts.objectTypes, ∀ field ∈ object.fields,
          (∃ fields, (.object object.name fields ∈ document ∨
              .objectExtension object.name fields ∈ document) ∧
            ∃ d ∈ fields, field.name = d.name ∧ field.type = ofExpr d.type) ∧
          ∀ t, ¬Within (nonNull (nonNull t)) field.type) ∧
    ∀ e e' : Sdl.TypeExpr, ofExpr e = ofExpr e' ↔
      e.wrappers = e'.wrappers ∧ e.innermost = e'.innermost := by
  refine ⟨fun e => ⟨wrappers_ofExpr e, innermost_ofExpr e⟩, fun c rest e hrun ws name => ?_,
    fun schema ts hts => ?_, fun e e' => ?_⟩
  · rw [wrappers_ofExpr, innermost_ofExpr]
    exact Sdl.unread_eq_iff_of_type hrun
  · obtain ⟨document, hparse, hdocument⟩ := TypeSystem.ofText_eq_ok_iff.mp hts
    refine ⟨document, hparse, fun object hobject field hfield => ?_⟩
    obtain ⟨fields, hdefinition, d, hd, rfl⟩ :=
      TypeSystem.exists_definition_of_mem_fields hdocument hobject hfield
    exact ⟨⟨fields, hdefinition, d, hd, rfl, rfl⟩, exists_ofExpr_eq_iff.mp ⟨d.type, rfl⟩⟩
  · rw [eq_iff, wrappers_ofExpr, wrappers_ofExpr, innermost_ofExpr, innermost_ofExpr]

/-- Types that are wrapped several times, one of them with commas in between. -/
def forest : String :=
  "type Tree { rows: [[Leaf!], ,]! parent: Tree! } extend type Tree { near: [[Tree]!]! } " ++
    "type Leaf { widths: [[[Float!]!]!]! }"

def forestTypes : TypeSystem where
  kinds := TypeSystem.builtinKinds ++ [("Tree", .object), ("Leaf", .object)]
  objects :=
    [("Tree",
      [⟨"rows", .nonNull (.list (.list (.nonNull (.named "Leaf"))))⟩,
        ⟨"parent", .nonNull (.named "Tree")⟩,
        ⟨"near", .nonNull (.list (.nonNull (.list (.named "Tree"))))⟩]),
      ("Leaf",
        [⟨"widths", .nonNull (.list (.nonNull (.list (.nonNull (.list
          (.nonNull (.named "Float")))))))⟩])]
  roots := .conventional

/-- The cursor at a place of the text. -/
def cursorAt (offset : Nat) : Sdl.Cursor :=
  ⟨Sdl.tokens offset (forest.toList.drop offset), Text.utf8Size forest.toList, 0⟩

/-- The type of the first field. -/
def rows : Sdl.TypeExpr := .list (.list (.named "Leaf" true) false) true

/-- The type of the first field starts at 18, and the second field at 32. -/
theorem ofExpr_keeps_structure_forest :
    Sdl.Parser.type.run (cursorAt 18) = .ok (rows, cursorAt 32) ∧
    (cursorAt 18).unread =
      Sdl.spelled [.nonNull, .list, .list, .nonNull] "Leaf" ++ (cursorAt 32).unread ∧
    TypeSystem.ofText forest = .ok forestTypes ∧
    ∀ object ∈ forestTypes.objectTypes, ∀ field ∈ object.fields, ∀ t,
      ¬Within (nonNull (nonNull t)) field.type := by
  obtain ⟨-, hread, hschema, -⟩ := ofExpr_keeps_structure
  have hrun : Sdl.Parser.type.run (cursorAt 18) = .ok (rows, cursorAt 32) :=
    eq_ok_of_toOption (by decide +kernel)
  have htypes : TypeSystem.ofText forest = .ok forestTypes :=
    eq_ok_of_toOption (by decide +kernel)
  obtain ⟨document, -, hfields⟩ := hschema forest forestTypes htypes
  exact ⟨hrun, (hread _ _ rows hrun _ _).mpr ⟨rfl, rfl⟩, htypes,
    fun object hobject field hfield => (hfields object hobject field hfield).2⟩

end TypeRef

end GraphqlFragments
