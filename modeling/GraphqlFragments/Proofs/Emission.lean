import GraphqlFragments.Proofs.Meaning
import GraphqlFragments.Proofs.Resolution
import GraphqlFragments.Proofs.Sdl.Names
/-!
# What is emitted

Which fragments a run has, group by group and in order. The groups follow the order in which
the schema first defines its types, and the tiers of a type the order of its entry. Whether a
type has a fragment hangs on fields that lead to scalars, enums and object types; fields that
lead elsewhere can be left out of the schema without a trace. The name of every fragment begins
with the name of a type, which is a name of the grammar.
-/

namespace GraphqlFragments

/-- The name of a fragment and the type that it is on. -/
def Fragment.title (f : Fragment) : String × String := (f.name, f.type)

namespace TypeSystem

/-- The field leads to an interface, a union or an input object. -/
def leadsElsewhere (ts : TypeSystem) (f : Field) : Bool :=
  ts.kindOf f.type.innermost = some .interface || ts.kindOf f.type.innermost = some .union ||
    ts.kindOf f.type.innermost = some .inputObject

/-- The object type without its fields that lead elsewhere. -/
def pruneType (ts : TypeSystem) (object : ObjectType) : ObjectType :=
  ⟨object.name, object.fields.filter fun f => !ts.leadsElsewhere f⟩

/-- The same types without the fields that lead elsewhere. -/
def prune (ts : TypeSystem) : TypeSystem where
  kinds := ts.kinds
  objects := ts.objects.map fun object =>
    (object.1, object.2.filter fun f => !ts.leadsElsewhere f)
  roots := ts.roots

variable {ts : TypeSystem} {config : TierConfig}

/-! ## Fields that do not count -/

theorem isPrintable_eq_false_of_leadsElsewhere {f : Field} (h : ts.leadsElsewhere f) :
    ts.isPrintable f = false := by
  unfold leadsElsewhere at h
  unfold isPrintable isPlain isRelation
  cases hkind : ts.kindOf f.type.innermost with
  | none => rfl
  | some kind => cases kind <;> simp_all

theorem isPlain_eq_false_of_leadsElsewhere {f : Field} (h : ts.leadsElsewhere f) :
    ts.isPlain f = false :=
  (Bool.or_eq_false_iff.mp (isPrintable_eq_false_of_leadsElsewhere h)).1

theorem pick?_of_leadsElsewhere {f : Field} (mode : Mode) (h : ts.leadsElsewhere f) :
    ts.pick? mode f = none := by
  obtain ⟨hplain, hrelation⟩ :=
    Bool.or_eq_false_iff.mp (isPrintable_eq_false_of_leadsElsewhere h)
  rw [pick?, hplain, hrelation]
  rfl

theorem unknownField?_of_leadsElsewhere {f : Field} (owner : String) (h : ts.leadsElsewhere f) :
    ts.unknownField? owner f = none := by
  unfold unknownField?
  refine if_neg fun hnone => ?_
  rw [leadsElsewhere, hnone] at h
  cases h

theorem any_pruned {p : Field → Bool} (hp : ∀ f, ts.leadsElsewhere f → p f = false)
    (fields : List Field) :
    (fields.filter fun f => !ts.leadsElsewhere f).any p = fields.any p := by
  rw [List.any_filter]
  refine congrArg (List.any fields) (funext fun f => ?_)
  cases h : ts.leadsElsewhere f with
  | true => exact (hp f h).symm
  | false => rfl

theorem picks_pruned (mode : Mode) (fields : List Field) :
    ts.picks mode (fields.filter fun f => !ts.leadsElsewhere f) = ts.picks mode fields := by
  refine filterMap_filter_of_none (fun f hf => ?_) fields
  exact pick?_of_leadsElsewhere mode (by simpa using hf)

theorem fragmentTypes_prune : ts.prune.fragmentTypes = ts.fragmentTypes.map ts.pruneType := by
  rw [fragmentTypes, fragmentTypes, objectTypes, objectTypes, prune, List.map_map,
    List.filter_map, List.filter_map, List.map_map]
  rfl

theorem emittedOf_pruneType (object : ObjectType) :
    ts.prune.emittedOf config (ts.pruneType object) = ts.emittedOf config object := by
  have hpicks (mode : Mode) : ts.prune.picks mode (ts.pruneType object).fields =
      ts.picks mode object.fields := picks_pruned mode object.fields
  have hplain : (ts.pruneType object).fields.any ts.prune.isPlain =
      object.fields.any ts.isPlain :=
    any_pruned (fun _ => isPlain_eq_false_of_leadsElsewhere) _
  have hprintable : (ts.pruneType object).fields.any ts.prune.isPrintable =
      object.fields.any ts.isPrintable :=
    any_pruned (fun _ => isPrintable_eq_false_of_leadsElsewhere) _
  simp only [emittedOf, hpicks, hplain, hprintable]
  rfl

theorem unknownFieldOf?_pruneType (object : ObjectType) :
    ts.prune.unknownFieldOf? (ts.pruneType object) = ts.unknownFieldOf? object := by
  have hfaults : (object.fields.filter fun f => !ts.leadsElsewhere f).findSome?
      (ts.unknownField? object.name) = object.fields.findSome? (ts.unknownField? object.name) := by
    rw [← List.head?_filterMap, ← List.head?_filterMap, filterMap_filter_of_none]
    exact fun f hf => unknownField?_of_leadsElsewhere _ (by simpa using hf)
  exact hfaults

/-- The outcome of a run does not hang on fields that lead elsewhere. -/
theorem result_fragments_prune (ts : TypeSystem) (config : TierConfig) :
    (ts.prune.fragments config).result = (ts.fragments config).result := by
  have hemitted : ts.prune.emitted config = ts.emitted config := by
    rw [emitted, emitted, fragmentTypes_prune, List.map_map]
    exact congrArg (fun f => FragmentSet.join (ts.fragmentTypes.map f))
      (funext emittedOf_pruneType)
  have hunknown : ts.prune.firstUnknownField? = ts.firstUnknownField? := by
    rw [firstUnknownField?, firstUnknownField?, fragmentTypes_prune, List.findSome?_map]
    exact congrArg (List.findSome? · ts.fragmentTypes) (funext unknownFieldOf?_pruneType)
  rw [result_fragments, result_fragments, hemitted, hunknown]

/-! ## The titles of a group -/

theorem map_title_default : (ts.emitted config).default.map Fragment.title =
    (ts.fragmentTypes.filter fun object => object.fields.any ts.isPrintable).map
      fun object => (object.name, object.name) := by
  rw [default_emitted, List.map_map]
  rfl

theorem map_title_noRelations : (ts.emitted config).noRelations.map Fragment.title =
    (ts.fragmentTypes.filter fun object => object.fields.any ts.isPlain).map
      fun object => (object.name ++ "NoNesting", object.name) := by
  rw [noRelations_emitted, List.map_map]
  rfl

/-- The deep fragments of a type with a field that counts. -/
def deepTitles (ts : TypeSystem) (config : TierConfig) (object : ObjectType) :
    List (String × String) :=
  match config.get? object.name with
  | none => [(object.name ++ "Full", object.name)]
  | some entry =>
      (entry.filter fun tier =>
        [TierConfig.adminTier, TierConfig.adminListing, TierConfig.publicTier].contains tier.1 ||
          object.fields.any fun f => ts.isPrintable f && tier.2.contains f.name).map
        fun tier => (object.name ++ tier.1, object.name)

theorem map_title_deepFragments (object : ObjectType) :
    (config.deepFragments object.name (ts.picks .deep object.fields)).map Fragment.title =
      if object.fields.any ts.isPrintable then ts.deepTitles config object else [] := by
  rw [TierConfig.deepFragments_picks]
  cases object.fields.any ts.isPrintable with
  | false => rfl
  | true =>
      rw [if_pos rfl, if_pos rfl, deepTitles]
      cases config.get? object.name with
      | none => rfl
      | some entry =>
          dsimp only
          rw [List.map_map]
          rfl

private theorem flatMap_filter {α β : Type} (p : α → Bool) (f : α → List β) (items : List α) :
    (items.filter p).flatMap f = items.flatMap fun a => if p a then f a else [] := by
  induction items with
  | nil => rfl
  | cons a rest ih =>
      rw [List.filter_cons, List.flatMap_cons, ← ih]
      cases p a <;> rfl

theorem map_title_deep : (ts.emitted config).deep.map Fragment.title =
    (ts.fragmentTypes.filter fun object => object.fields.any ts.isPrintable).flatMap
      (ts.deepTitles config) := by
  rw [deep_emitted, List.map_flatMap, flatMap_filter]
  exact congrArg (List.flatMap · ts.fragmentTypes) (funext map_title_deepFragments)

end TypeSystem

open TypeSystem in
/-- The fragments of a run by name and type, in order. A default fragment needs a field that
leads to a scalar, an enum or an object type, one without relations a field that leads to a
scalar or an enum. A type of the first sort has its full fragment or, if it has an entry, one
for each of its tiers in the order of the entry, except for tiers that build on no listing and
allow no such field. -/
theorem titles_of_generate {schema : String} {tiers : Option TierConfig} {set : FragmentSet}
    (h : (generate schema tiers).result = .ok set) :
    ∃ document ts, Sdl.Document.parse schema = .ok document ∧ ofDocument document = .ok ts ∧
      ts.fragmentTypes.map ObjectType.name = (document.filterMap objectName?).eraseDups.filter
        (fun name => !isReserved name && !ts.isRoot name) ∧
      set.default.map Fragment.title =
        (ts.fragmentTypes.filter fun object => object.fields.any ts.isPrintable).map
          (fun object => (object.name, object.name)) ∧
      set.noRelations.map Fragment.title =
        (ts.fragmentTypes.filter fun object => object.fields.any ts.isPlain).map
          (fun object => (object.name ++ "NoNesting", object.name)) ∧
      set.deep.map Fragment.title =
        (ts.fragmentTypes.filter fun object => object.fields.any ts.isPrintable).flatMap
          (ts.deepTitles (tiers.getD .empty)) ∧
      (ts.prune.fragments (tiers.getD .empty)).result = .ok set := by
  obtain ⟨ts, hts, -, -, hset⟩ := generate_eq_ok_iff.mp h
  obtain ⟨document, hparse, hdocument⟩ := ofText_eq_ok_iff.mp hts
  have hprune : (ts.prune.fragments (tiers.getD .empty)).result = .ok set := by
    rw [result_fragments_prune, ← result_generate_of_ok hts, h]
  refine ⟨document, ts, hparse, hdocument, ?_, ?_, ?_, ?_, hprune⟩
  · rw [map_name_fragmentTypes, (eq_of_ofDocument hdocument).2, keys_extendedObjects]
  · rw [hset, map_title_default]
  · rw [hset, map_title_noRelations]
  · rw [hset, map_title_deep]

/-- Fields that lead to an interface, a type that has no others, a type without plain fields,
and a tier for each way of having a fragment or none. -/
def forum : String :=
  "interface Node { id: ID } type Query { posts: [Post] } " ++
    "type Post { title: String author: User node: Node } " ++
    "type User { friend: User } type Link { node: Node }"

def forumTiers : TierConfig :=
  [("Post", [("PublicListing", ["node"]), ("Public", ["node"]), ("Team", ["title"])])]

def forumTypes : TypeSystem where
  kinds := TypeSystem.builtinKinds ++ [("Node", .interface), ("Query", .object),
    ("Post", .object), ("User", .object), ("Link", .object)]
  objects :=
    [("Query", [⟨"posts", .list (.named "Post")⟩]),
      ("Post", [⟨"title", .named "String"⟩, ⟨"author", .named "User"⟩, ⟨"node", .named "Node"⟩]),
      ("User", [⟨"friend", .named "User"⟩]),
      ("Link", [⟨"node", .named "Node"⟩])]
  roots := .conventional

theorem titles_of_generate_forum :
    ∃ set, (generate forum (some forumTiers)).result = .ok set ∧
      ∃ ts : TypeSystem, ts.fragmentTypes.map ObjectType.name = ["Post", "User", "Link"] ∧
        set.deep.map Fragment.title =
          (ts.fragmentTypes.filter fun object => object.fields.any ts.isPrintable).flatMap
            (ts.deepTitles forumTiers) ∧
        set.all.map Fragment.title =
          [("Post", "Post"), ("User", "User"), ("PostNoNesting", "Post"), ("PostPublic", "Post"),
            ("PostTeam", "Post"), ("UserFull", "User")] := by
  have htypes : TypeSystem.ofText forum = .ok forumTypes :=
    eq_ok_of_toOption (by decide +kernel)
  have hrun : (generate forum (some forumTiers)).result =
      .ok (forumTypes.emitted forumTiers) :=
    generate_eq_ok_iff.mpr ⟨forumTypes, htypes, by decide, by decide, rfl⟩
  obtain ⟨document, ts, hparse, hdocument, -, -, -, hdeep, -⟩ := titles_of_generate hrun
  obtain ⟨document', hparse', hdocument'⟩ := TypeSystem.ofText_eq_ok_iff.mp htypes
  obtain rfl : document' = document := Except.ok.inj (hparse'.symm.trans hparse)
  obtain rfl : forumTypes = ts := Except.ok.inj (hdocument'.symm.trans hdocument)
  exact ⟨_, hrun, forumTypes, by decide, hdeep, by decide⟩

/-! ## Names -/

theorem TypeSystem.isName_of_mem_objectTypes {schema : String} {ts : TypeSystem}
    (hts : TypeSystem.ofText schema = .ok ts) {object : ObjectType}
    (h : object ∈ ts.objectTypes) : Sdl.IsName object.name := by
  obtain ⟨document, hparse, hdocument⟩ := ofText_eq_ok_iff.mp hts
  have hname : object.name ∈ (document.filterMap objectName?).eraseDups := by
    rw [← keys_extendedObjects, ← (eq_of_ofDocument hdocument).2, ← map_name_objectTypes]
    exact List.mem_map_of_mem h
  obtain ⟨d, hd, hdefines⟩ := List.mem_filterMap.mp (List.mem_eraseDups.mp hname)
  cases d with
  | object n fields =>
      cases hdefines
      exact (Sdl.isNamed_of_parse hparse _ hd).1
  | _ => cases hdefines

/-- A deep fragment is named after a type, with the label of one of its tiers if it has any. -/
theorem name_of_mem_deep {schema : String} {tiers : Option TierConfig} {set : FragmentSet}
    (h : (generate schema tiers).result = .ok set) {f : Fragment} (hf : f ∈ set.deep) :
    ∃ type label, Sdl.IsName type ∧ f.name = type ++ label ∧
      (label = "Full" ∨ ∃ entry ∈ tiers.getD .empty, label ∈ Table.keys entry.2) := by
  obtain ⟨ts, hts, -, -, rfl⟩ := generate_eq_ok_iff.mp h
  obtain ⟨object, hobject, hedition⟩ := TypeSystem.mem_deep_iff.mp hf
  have htype := TypeSystem.isName_of_mem_objectTypes hts (List.mem_filter.mp hobject).1
  rcases hedition with ⟨-, rfl⟩ | ⟨label, allowed, hhas, rfl⟩
  · exact ⟨object.name, "Full", htype, TypeSystem.name_edition _, Or.inl rfl⟩
  · obtain ⟨-, ⟨entry, hget, hmem⟩, -⟩ := hhas
    refine ⟨object.name, label, htype, TypeSystem.name_edition _, Or.inr ?_⟩
    exact ⟨_, Table.mem_of_get? hget, List.mem_map_of_mem hmem⟩

end GraphqlFragments
