import GraphqlFragments.Proofs.Emission
/-!
# New types

Object types that are added at the end of a schema come with fragments of their own and leave
those of the others alone. The kinds of the names that the old fields lead to do not change, since
what is added has names of its own, and the object types of the old schema still come first.
-/

namespace GraphqlFragments

namespace TypeSystem

/-- Definitions of object types. -/
def definitionsOf (types : List (String × List Sdl.FieldDefinition)) : Sdl.Document :=
  types.map fun type => .object type.1 type.2

/-- The types have names of their own, which mean nothing in the document. -/
structure AreNew (document : Sdl.Document) (types : List (String × List Sdl.FieldDefinition)) :
    Prop where
  nodup : (types.map Prod.fst).Nodup
  notBuiltin : ∀ type ∈ types, type.1 ∉ builtinScalars
  undefined : ∀ type ∈ types, ∀ d ∈ document, kindFor? type.1 d = none

/-- The second type system has all that the first one has, and more object types after those of
the first one. -/
structure Extends (old new : TypeSystem) : Prop where
  kinds : ∀ name kind, old.kindOf name = some kind → new.kindOf name = some kind
  objects : old.objects <+: new.objects
  roots : new.roots = old.roots

variable {old new : TypeSystem} {config : TierConfig}

/-! ## Adding definitions -/

section Adding

variable {document : Sdl.Document} {types : List (String × List Sdl.FieldDefinition)}

theorem kindOf_addition (h : AreNew document types) {name : String} {kind : TypeKind}
    (hkind : (kindsOf document).get? name = some kind) :
    (kindsOf (document ++ definitionsOf types)).get? name = some kind := by
  rw [get?_kindsOf] at hkind
  -- A name that had a kind before is none of the new ones.
  have hother : ∀ type ∈ types, type.1 ≠ name := by
    rintro type htype rfl
    rw [List.filterMap_eq_nil_iff.mpr (h.undefined type htype),
      if_neg (h.notBuiltin type htype)] at hkind
    cases hkind
  have hnone : (definitionsOf types).filterMap (kindFor? name) = [] := by
    refine List.filterMap_eq_nil_iff.mpr fun d hd => ?_
    obtain ⟨type, htype, rfl⟩ := List.mem_map.mp hd
    exact if_neg (hother type htype)
  rw [get?_kindsOf, List.filterMap_append, hnone, List.append_nil, hkind]

theorem definedObjects_addition (h : AreNew document types) :
    definedObjects (document ++ definitionsOf types) =
      definedObjects document ++ types.map fun type => (type.1, type.2.map fieldOf) := by
  have hentries : (definitionsOf types).filterMap object? =
      types.map fun type => (type.1, type.2.map fieldOf) := by
    rw [definitionsOf, List.filterMap_map, ← List.filterMap_eq_map]
    rfl
  rw [definedObjects, Table.ofList, List.filterMap_append, List.foldl_append, hentries]
  refine Table.foldl_insert_of_nodup ?_
  rw [Table.keys, List.map_append, List.map_map, List.nodup_append]
  refine ⟨Table.nodup_keys_ofList _, h.nodup, fun name hname name' htype hsame => ?_⟩
  obtain ⟨type, htype, htypeName⟩ := List.mem_map.mp htype
  obtain rfl : type.1 = name := htypeName.trans hsame.symm
  obtain ⟨fields, hd⟩ := mem_keys_definedObjects_iff.mp hname
  have hundefined := h.undefined type htype _ hd
  rw [kindFor?, if_pos rfl] at hundefined
  cases hundefined

theorem extendedObjects_addition (h : AreNew document types) :
    extendedObjects document <+: extendedObjects (document ++ definitionsOf types) := by
  have hadded (name : String) : (definitionsOf types).flatMap (addedFor name) = [] := by
    refine List.flatMap_eq_nil_iff.mpr fun d hd => ?_
    obtain ⟨type, -, rfl⟩ := List.mem_map.mp hd
    rfl
  rw [extendedObjects, extendedObjects, definedObjects_addition h, List.map_append]
  simp only [List.flatMap_append, hadded, List.append_nil]
  exact List.prefix_append _ _

theorem rootsOf_addition : rootsOf (document ++ definitionsOf types) = rootsOf document := by
  have hnone {β : Type} (view : Sdl.Definition → Option β)
      (hview : ∀ name fields, view (.object name fields) = none) :
      (document ++ definitionsOf types).filterMap view = document.filterMap view := by
    rw [List.filterMap_append, List.append_right_eq_self, List.filterMap_eq_nil_iff]
    intro d hd
    obtain ⟨type, -, rfl⟩ := List.mem_map.mp hd
    exact hview _ _
  rw [rootsOf, rootsOf, hnone schemaRoots? fun _ _ => rfl, hnone extendedRoots? fun _ _ => rfl]

theorem extends_of_areNew (h : AreNew document types) (hold : ofDocument document = .ok old)
    (hnew : ofDocument (document ++ definitionsOf types) = .ok new) : old.Extends new := by
  obtain ⟨holdKinds, holdObjects⟩ := eq_of_ofDocument hold
  obtain ⟨hnewKinds, hnewObjects⟩ := eq_of_ofDocument hnew
  refine ⟨fun name kind hkind => ?_, ?_, ?_⟩
  · rw [kindOf, holdKinds] at hkind
    rw [kindOf, hnewKinds]
    exact kindOf_addition h hkind
  · rw [holdObjects, hnewObjects]
    exact extendedObjects_addition h
  · have hroots := rootsOf_of_ofDocument hnew
    rw [rootsOf_addition, rootsOf_of_ofDocument hold] at hroots
    exact (Except.ok.inj hroots).symm

end Adding

/-! ## The fragments of the old types -/

theorem Extends.kindOf_eq (h : old.Extends new) {owner : String} {f : Field}
    (hknown : old.unknownField? owner f = none) :
    new.kindOf f.type.innermost = old.kindOf f.type.innermost := by
  cases hkind : old.kindOf f.type.innermost with
  | some kind => exact h.kinds _ kind hkind
  | none =>
      rw [unknownField?, if_pos hkind] at hknown
      cases hknown

private theorem any_congr_of_mem {α : Type} {p q : α → Bool} {items : List α}
    (h : ∀ a ∈ items, p a = q a) : items.any p = items.any q := by
  have hid (r : α → Bool) : items.any r = (items.map r).any id := by
    rw [List.any_map]
    rfl
  rw [hid p, hid q, List.map_congr_left h]

theorem Extends.emittedOf_eq (h : old.Extends new) {object : ObjectType}
    (hknown : old.unknownFieldOf? object = none) :
    new.emittedOf config object = old.emittedOf config object := by
  -- The run has succeeded, so no field of the type leads to a name that only the new types give
  -- a meaning to.
  have hkinds : ∀ f ∈ object.fields,
      new.kindOf f.type.innermost = old.kindOf f.type.innermost :=
    fun f hf => h.kindOf_eq (List.findSome?_eq_none_iff.mp hknown f hf)
  have hplain : ∀ f ∈ object.fields, new.isPlain f = old.isPlain f := by
    intro f hf
    rw [isPlain, isPlain, hkinds f hf]
  have hrelation : ∀ f ∈ object.fields, new.isRelation f = old.isRelation f := by
    intro f hf
    rw [isRelation, isRelation, hkinds f hf]
  have hpicks (mode : Mode) : new.picks mode object.fields = old.picks mode object.fields := by
    refine List.filterMap_congr fun f hf => ?_
    rw [pick?, pick?, hplain f hf, hrelation f hf]
  have hanyPlain : object.fields.any new.isPlain = object.fields.any old.isPlain :=
    any_congr_of_mem hplain
  have hanyPrintable : object.fields.any new.isPrintable = object.fields.any old.isPrintable := by
    refine any_congr_of_mem fun f hf => ?_
    rw [isPrintable, isPrintable, hplain f hf, hrelation f hf]
  simp only [emittedOf, hanyPlain, hanyPrintable, hpicks]

theorem Extends.fragmentTypes (h : old.Extends new) : old.fragmentTypes <+: new.fragmentTypes := by
  have hroot : new.isRoot = old.isRoot := by
    funext name
    rw [isRoot, isRoot, h.roots]
  rw [TypeSystem.fragmentTypes, TypeSystem.fragmentTypes, hroot]
  exact (h.objects.map _).filter _

/-- What the old type system calls for comes first in each group. -/
theorem Extends.emitted (h : old.Extends new) (hknown : old.firstUnknownField? = none) :
    (old.emitted config).default <+: (new.emitted config).default ∧
      (old.emitted config).noRelations <+: (new.emitted config).noRelations ∧
      (old.emitted config).deep <+: (new.emitted config).deep := by
  obtain ⟨more, hmore⟩ := h.fragmentTypes
  have hsame : old.fragmentTypes.map (new.emittedOf config) =
      old.fragmentTypes.map (old.emittedOf config) :=
    List.map_congr_left fun object hobject =>
      h.emittedOf_eq (List.findSome?_eq_none_iff.mp hknown object hobject)
  rw [TypeSystem.emitted, TypeSystem.emitted, ← hmore, List.map_append, hsame]
  simp only [FragmentSet.join, List.flatMap_append]
  exact ⟨List.prefix_append _ _, List.prefix_append _ _, List.prefix_append _ _⟩

end TypeSystem

/-- If object types with names of their own are added to the end of a schema, the fragments of
the old schema come first in their groups, as they were. The new types may refer to each other
and to the old ones, and they may have tiers. -/
theorem groups_prefix_of_addition {schema extended : String} {tiers : Option TierConfig}
    {set set' : FragmentSet} {document : Sdl.Document}
    {types : List (String × List Sdl.FieldDefinition)}
    (hparse : Sdl.Document.parse schema = .ok document)
    (hextended : Sdl.Document.parse extended = .ok (document ++ TypeSystem.definitionsOf types))
    (hnew : TypeSystem.AreNew document types) (h : (generate schema tiers).result = .ok set)
    (h' : (generate extended tiers).result = .ok set') :
    set.default <+: set'.default ∧ set.noRelations <+: set'.noRelations ∧
      set.deep <+: set'.deep := by
  obtain ⟨old, hold, hknown, -, rfl⟩ := generate_eq_ok_iff.mp h
  obtain ⟨new, hnewTypes, -, -, rfl⟩ := generate_eq_ok_iff.mp h'
  obtain ⟨_, hread, holdDocument⟩ := TypeSystem.ofText_eq_ok_iff.mp hold
  obtain ⟨_, hread', hnewDocument⟩ := TypeSystem.ofText_eq_ok_iff.mp hnewTypes
  cases hparse.symm.trans hread
  cases hextended.symm.trans hread'
  exact (TypeSystem.extends_of_areNew hnew holdDocument hnewDocument).emitted hknown

def blogDocument : Sdl.Document :=
  [.object "Post" [⟨"id", .named "ID" false⟩, ⟨"author", .named "User" false⟩],
    .object "User" [⟨"name", .named "String" false⟩]]

/-- The blog with comments on posts and answers to comments. -/
def talkingBlog : String :=
  blog ++ "type Comment { on: Post! answers: [Answer!] } type Answer { to: Comment author: User }"

def commentTypes : List (String × List Sdl.FieldDefinition) :=
  [("Comment", [⟨"on", .named "Post" true⟩, ⟨"answers", .list (.named "Answer" true) false⟩]),
    ("Answer", [⟨"to", .named "Comment" false⟩, ⟨"author", .named "User" false⟩])]

def talkingBlogTypes : TypeSystem where
  kinds := blogTypes.kinds ++ [("Comment", .object), ("Answer", .object)]
  objects := blogTypes.objects ++
    [("Comment",
        [⟨"on", .nonNull (.named "Post")⟩, ⟨"answers", .list (.nonNull (.named "Answer"))⟩]),
      ("Answer", [⟨"to", .named "Comment"⟩, ⟨"author", .named "User"⟩])]
  roots := .conventional

/-- Tiers for a type that only the extended schema has. -/
def commentTiers : TierConfig := [("Comment", [("PublicListing", ["on"]), ("Public", [])])]

theorem groups_prefix_of_addition_blog :
    ∃ set set', (generate blog (some commentTiers)).result = .ok set ∧
      (generate talkingBlog (some commentTiers)).result = .ok set' ∧
      set.deep.map Fragment.name = ["PostFull", "UserFull"] ∧
      set'.deep.map Fragment.name =
        ["PostFull", "UserFull", "CommentPublicListing", "CommentPublic", "AnswerFull"] ∧
      set.default <+: set'.default ∧ set.noRelations <+: set'.noRelations ∧
        set.deep <+: set'.deep := by
  have hparse : Sdl.Document.parse blog = .ok blogDocument :=
    eq_ok_of_toOption (by decide +kernel)
  have hextended : Sdl.Document.parse talkingBlog =
      .ok (blogDocument ++ TypeSystem.definitionsOf commentTypes) :=
    eq_ok_of_toOption (by decide +kernel)
  have htypes : TypeSystem.ofText talkingBlog = .ok talkingBlogTypes :=
    TypeSystem.ofText_eq_ok_iff.mpr ⟨_, hextended, by cbv⟩
  have hrun : (generate blog (some commentTiers)).result = .ok (blogTypes.emitted commentTiers) :=
    generate_eq_ok_iff.mpr ⟨blogTypes, ofText_blog, by decide, by decide, rfl⟩
  have hrun' : (generate talkingBlog (some commentTiers)).result =
      .ok (talkingBlogTypes.emitted commentTiers) :=
    generate_eq_ok_iff.mpr ⟨talkingBlogTypes, htypes, by decide, by decide, rfl⟩
  have hnew : TypeSystem.AreNew blogDocument commentTypes :=
    ⟨by decide, by decide, by decide⟩
  exact ⟨_, _, hrun, hrun', by decide, by decide,
    groups_prefix_of_addition hparse hextended hnew hrun hrun'⟩

end GraphqlFragments
