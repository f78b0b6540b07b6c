import GraphqlFragments.Proofs.Exposure
import Mathlib.Data.List.Infix
/-!
# What a tier selects

The fragment of a tier spreads the listing that it builds on, if there is one. Then it has one
selection for each declaration of a field that its label allows and that leads to a scalar, an
enum or an object type, in the order of the declarations. `selections_of_tier` says so of every
run, and how the selections are written.
-/

namespace GraphqlFragments

namespace TierConfig

/-- The fields that the tiers of a type allow under a label. -/
def allowList (tiers : Tiers) (label : String) : List String :=
  (tiers.filter fun tier => tier.1 = label).flatMap Prod.snd

/-- The labels of the siblings that the fragment of a label spreads in front of its fields. -/
def leadingLabels (label : String) : List String :=
  if label = "Admin" then ["AdminListing"]
  else if label = "AdminListing" ∨ label = "Public" then ["PublicListing"]
  else []

/-- The listing that stands for a type with tiers in a fragment, given the label of the fragment
if it is that of a tier. -/
def listingFor (tier : Option String) : String :=
  if tier.any fun label => "Admin".toList <:+: label.toList then "AdminListing"
  else "PublicListing"

theorem mem_allowList_iff {tiers : Tiers} {label field : String} :
    field ∈ allowList tiers label ↔ ∃ allowed, (label, allowed) ∈ tiers ∧ field ∈ allowed := by
  simp [allowList]

theorem baseLabel?_eq_leadingLabels (label : String) :
    (baseLabel? label).toList = leadingLabels label := by
  unfold baseLabel? leadingLabels adminTier adminListing publicTier publicListing
  by_cases hadmin : label = "Admin"
  · simp [hadmin]
  · by_cases hlisted : label = "AdminListing" ∨ label = "Public"
    · simp [hadmin, hlisted]
    · simp [hadmin, hlisted]

theorem relationLabel_eq_listingFor (tier : Option String) :
    relationLabel tier = listingFor tier := by
  cases tier with
  | none => rfl
  | some label =>
      unfold relationLabel listingFor adminTier adminListing publicListing
      simp only [Option.any_some, decide_eq_true_eq, ← Text.contains_eq_true_iff]

/-- A deep spread is settled to a listing or to the full fragment of its type. -/
theorem settle_nested (config : TierConfig) (tier : Option String) (name type : String) :
    config.settle tier (.nested name ⟨type, .deepNesting⟩) = .nested name
      ⟨type, if config.contains type then .tier (listingFor tier) else .full⟩ := by
  unfold settle settleSpread
  rw [relationLabel_eq_listingFor]
  rfl

end TierConfig

namespace TypeSystem

/-- What the fragment of a label selects for a field: a plain field by its name, a relation with
one spread of its target. -/
def tierSelection (ts : TypeSystem) (config : TierConfig) (label : String) (d : Field) :
    Selection :=
  if ts.isRelation d then
    .nested d.name ⟨d.type.innermost,
      if config.contains d.type.innermost then .tier (TierConfig.listingFor (some label))
      else .full⟩
  else .field d.name

/-- The lines of what the fragment of a label selects for a field. -/
def tierLines (ts : TypeSystem) (config : TierConfig) (label : String) (d : Field) :
    List String :=
  if ts.isRelation d then
    ["  " ++ d.name ++ " \x7b",
      "    ..." ++ d.type.innermost ++
        (if config.contains d.type.innermost then TierConfig.listingFor (some label) else "Full"),
      "  \x7d"]
  else ["  " ++ d.name]

variable {ts : TypeSystem} {config : TierConfig} {object : ObjectType} {tiers : Tiers}
  {label : String} {allowed : List String}

theorem lines_tierSelection (ts : TypeSystem) (config : TierConfig) (label : String) (d : Field) :
    (ts.tierSelection config label d).lines = ts.tierLines config label d := by
  unfold tierSelection tierLines
  by_cases hrelation : ts.isRelation d
  · by_cases hcontains : config.contains d.type.innermost
    · simp [hrelation, hcontains, Selection.lines, Spread.toText, Spread.fragmentName,
        SpreadSuffix.text, ← String.append_assoc]
    · simp [hrelation, hcontains, Selection.lines, Spread.toText, Spread.fragmentName,
        SpreadSuffix.text, ← String.append_assoc]
  · simp [hrelation, Selection.lines]

/-- Settling the deep selections of some fields goes field by field, and leaves out those that
lead elsewhere. -/
theorem map_settle_picks_eq (fields : List Field) :
    (ts.picks .deep fields).map (config.settle (some label)) =
      (fields.filter ts.isPrintable).map (ts.tierSelection config label) := by
  induction fields with
  | nil => rfl
  | cons d rest ih =>
      unfold picks at ih ⊢
      rw [List.filterMap_cons, List.filter_cons]
      cases hrelation : ts.isRelation d with
      | true =>
          have hplain := isPlain_eq_false_of_isRelation hrelation
          simp [pick?, isPrintable, hplain, hrelation, Mode.relationSuffix?, ih, tierSelection,
            TierConfig.settle_nested]
      | false =>
          cases hplain : ts.isPlain d with
          | true =>
              simp [pick?, isPrintable, hplain, hrelation, ih, tierSelection, TierConfig.settle]
          | false => simp [pick?, isPrintable, hplain, hrelation, ih]

/-- The list of a tier that has a fragment allows the same fields as all lists of its label. -/
theorem sameFields_allowList (hnodup : (ts.emitted config).names.Nodup)
    (hobject : object ∈ ts.fragmentTypes) (hget : config.get? object.name = some tiers)
    (hhas : ts.HasEdition config object (.tier label allowed)) :
    ts.SameFields object allowed (TierConfig.allowList tiers label) := by
  intro d hd hprintable
  have hlabel : d.name ∈ TierConfig.allowList tiers label ↔
      ts.LabelAllows object tiers label d.name := by
    rw [TierConfig.mem_allowList_iff]
    exact ⟨fun h => ⟨d, hd, hprintable, rfl, h⟩, fun ⟨_, _, _, _, h⟩ => h⟩
  rw [hlabel, ← exists_allowed_iff_labelAllows hnodup hobject hget hhas]
  exact ⟨fun h => ⟨d, hd, hprintable, rfl, h⟩, fun ⟨_, _, _, _, h⟩ => h⟩

theorem selections_edition_tier (hnodup : (ts.emitted config).names.Nodup)
    (hobject : object ∈ ts.fragmentTypes) (hget : config.get? object.name = some tiers)
    (hhas : ts.HasEdition config object (.tier label allowed)) :
    (ts.edition config object (.tier label allowed)).selections =
      (TierConfig.leadingLabels label).map
          (fun base => Selection.spread ⟨object.name, .tier base⟩) ++
        (object.fields.filter fun d =>
          ts.isPrintable d && (TierConfig.allowList tiers label).contains d.name).map
            (ts.tierSelection config label) := by
  have hfields := picks_filter_of_sameFields
    (sameFields_allowList hnodup hobject hget hhas)
  rw [edition, TierConfig.selections_tierFragment, hfields, map_settle_picks_eq,
    List.filter_filter, ← TierConfig.baseLabel?_eq_leadingLabels, Option.toList_map]

end TypeSystem

open TypeSystem in
/-- The fragment of a tier spreads the sibling that its label builds on, and then selects the
fields of its type that lead to a scalar, an enum or an object type and that the label allows, one
selection for each of their declarations, in order. Nothing else of the list of allowed fields
counts. A relation spreads one fragment of its target: a listing if the target has tiers, that of
the admins if the label contains their word, and the full fragment otherwise. -/
theorem selections_of_tier {schema : String} {tiers : Option TierConfig} {set : FragmentSet}
    {ts : TypeSystem} (h : (generate schema tiers).result = .ok set)
    (hts : TypeSystem.ofText schema = .ok ts) {object : ObjectType}
    (hobject : object ∈ ts.fragmentTypes) {labels : Tiers}
    (hget : (tiers.getD .empty).get? object.name = some labels) {label : String} {f : Fragment}
    (hf : f ∈ set.deep) (htype : f.type = object.name) (hname : f.name = object.name ++ label) :
    f.selections =
        (TierConfig.leadingLabels label).map
            (fun base => Selection.spread ⟨object.name, .tier base⟩) ++
          (object.fields.filter fun d =>
            ts.isPrintable d && (TierConfig.allowList labels label).contains d.name).map
              (ts.tierSelection (tiers.getD .empty) label) ∧
      f.lines =
        ("fragment " ++ object.name ++ label ++ " on " ++ object.name ++ " \x7b") ::
          ((TierConfig.leadingLabels label).map (fun base => "  ..." ++ object.name ++ base) ++
            (object.fields.filter fun d =>
              ts.isPrintable d && (TierConfig.allowList labels label).contains d.name).flatMap
                (ts.tierLines (tiers.getD .empty) label)) ++ ["\x7d"] := by
  have hsound := isSound_ofText hts
  obtain ⟨rfl, hnodup⟩ := eq_emitted_of_generate h hts
  have hdeep := (FragmentSet.deepOf?_eq_some_iff hnodup).mpr ⟨hf, htype, hname⟩
  rcases (deepOf?_emitted_iff hsound hnodup hobject).mp hdeep with
    ⟨-, ⟨-, hnone⟩, -⟩ | ⟨allowed, hhas, rfl⟩
  · rw [hget] at hnone
    cases hnone
  have hselections := selections_edition_tier hnodup hobject hget hhas
  refine ⟨hselections, ?_⟩
  have hlines (d : Field) := lines_tierSelection ts (tiers.getD .empty) label d
  have hleading : ((TierConfig.leadingLabels label).map
      (fun base => Selection.spread ⟨object.name, .tier base⟩)).flatMap Selection.lines =
        (TierConfig.leadingLabels label).map (fun base => "  ..." ++ object.name ++ base) := by
    rw [List.flatMap_map, List.map_eq_flatMap]
    simp [Selection.lines, Spread.toText, Spread.fragmentName, SpreadSuffix.text,
      ← String.append_assoc]
  rw [Fragment.lines, hselections, List.flatMap_append, hleading, List.flatMap_map]
  simp only [hlines, Fragment.header, htype, hname, ← String.append_assoc]

/-- A type with a field that is declared twice, a field that leads elsewhere, and relations to
types with tiers and without. -/
def shelf : String :=
  "interface Node \x7b id: ID \x7d type Book \x7b title: String author: Author title: String " ++
    "node: Node tags: [Tag] \x7d type Author \x7b name: String \x7d type Tag \x7b name: String \x7d"

def shelfTypes : TypeSystem where
  kinds := TypeSystem.builtinKinds ++ [("Node", .interface), ("Book", .object),
    ("Author", .object), ("Tag", .object)]
  objects :=
    [("Book", [⟨"title", .named "String"⟩, ⟨"author", .named "Author"⟩, ⟨"title", .named "String"⟩,
        ⟨"node", .named "Node"⟩, ⟨"tags", .list (.named "Tag")⟩]),
      ("Author", [⟨"name", .named "String"⟩]), ("Tag", [⟨"name", .named "String"⟩])]
  roots := .conventional

def shelfLabels : Tiers :=
  [("Public", ["author"]), ("HeadAdmin", ["tags", "price", "node", "author", "title"])]

def shelfTiers : TierConfig := [("Book", shelfLabels), ("Author", [("Public", ["name"])])]

theorem selections_of_tier_shelf :
    ∃ set, (generate shelf (some shelfTiers)).result = .ok set ∧
      (∃ f ∈ set.deep, f.name = "BookPublic" ∧ f.lines =
        ["fragment BookPublic on Book \x7b", "  ...BookPublicListing", "  author \x7b",
          "    ...AuthorPublicListing", "  \x7d", "\x7d"]) ∧
      ∃ f ∈ set.deep, f.name = "BookHeadAdmin" ∧ f.lines =
        ["fragment BookHeadAdmin on Book \x7b", "  title", "  author \x7b",
          "    ...AuthorAdminListing", "  \x7d", "  title", "  tags \x7b", "    ...TagFull",
          "  \x7d", "\x7d"] := by
  have htypes : TypeSystem.ofText shelf = .ok shelfTypes :=
    eq_ok_of_toOption (by decide +kernel)
  have hrun : (generate shelf (some shelfTiers)).result = .ok (shelfTypes.emitted shelfTiers) :=
    generate_eq_ok_iff.mpr ⟨shelfTypes, htypes, by decide, by decide, rfl⟩
  let book : ObjectType := ⟨"Book", [⟨"title", .named "String"⟩, ⟨"author", .named "Author"⟩,
    ⟨"title", .named "String"⟩, ⟨"node", .named "Node"⟩, ⟨"tags", .list (.named "Tag")⟩]⟩
  have hobject : book ∈ shelfTypes.fragmentTypes := by decide
  have hget : ((some shelfTiers).getD .empty).get? book.name = some shelfLabels := rfl
  have hlines (label : String) (f : Fragment) (hf : f ∈ (shelfTypes.emitted shelfTiers).deep)
      (htype : f.type = book.name) (hname : f.name = book.name ++ label) :=
    (selections_of_tier hrun htypes hobject hget hf htype hname).2
  refine ⟨_, hrun, ⟨shelfTypes.edition shelfTiers book (.tier "Public" ["author"]), ?_, ?_, ?_⟩,
    ⟨shelfTypes.edition shelfTiers book
      (.tier "HeadAdmin" ["tags", "price", "node", "author", "title"]), ?_, ?_, ?_⟩⟩
  · decide
  · decide
  · rw [hlines "Public" _ (by decide) (by decide) (by decide)]
    decide
  · decide
  · decide
  · rw [hlines "HeadAdmin" _ (by decide) (by decide) (by decide)]
    decide

end GraphqlFragments
