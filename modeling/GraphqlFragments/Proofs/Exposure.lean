import GraphqlFragments.Proofs.Locality
/-!
# What a tier exposes

A tier selects the fields that it allows and spreads the listing that it builds on,
which may build on another listing in turn. `exposes_iff` says which fields of its
type come together that way, provided the type has a public listing.
-/

namespace GraphqlFragments

/-- The field of a type is selected by a fragment or by one that a spread in front of
its fields leads to, and so on. -/
inductive FragmentSet.Exposes (set : FragmentSet) : Fragment → String → String → Prop
  | own {f : Fragment} {selection : Selection} {field : String}
      (hmem : selection ∈ f.selections) (hfield : selection.fieldName? = some field) :
      set.Exposes f f.type field
  | leading {f g : Fragment} {s : Spread} {type field : String}
      (hmem : .spread s ∈ f.selections) (hfind : set.find? s.fragmentName = some g)
      (hexposes : set.Exposes g type field) : set.Exposes f type field

namespace TierConfig

/-- The labels whose fields a tier of a type exposes: its own, and those of the
listings that it builds on. -/
def exposedLabels (tiers : Tiers) (label : String) : List String :=
  if label = publicTier ∨ label = adminListing then [label, publicListing]
  else if label = adminTier ∧ adminListing ∈ tiers.keys then
    [adminTier, adminListing, publicListing]
  else [label]

end TierConfig

namespace TypeSystem

/-- A label of an object type allows the printable fields of a name. -/
def LabelAllows (ts : TypeSystem) (object : ObjectType) (tiers : Tiers)
    (label field : String) : Prop :=
  ∃ d ∈ object.fields, ts.isPrintable d ∧ d.name = field ∧
    ∃ allowed, (label, allowed) ∈ tiers ∧ field ∈ allowed

variable {ts : TypeSystem} {config : TierConfig} {object : ObjectType} {tiers : Tiers}
  {label field : String} {allowed : List String} {f g : Fragment}

/-! ## One fragment -/

theorem exposes_iff_own_or_leading {set : FragmentSet} {type : String} :
    set.Exposes f type field ↔
      (f.type = type ∧ ∃ selection ∈ f.selections, selection.fieldName? = some field) ∨
      ∃ s, .spread s ∈ f.selections ∧
        ∃ g, set.find? s.fragmentName = some g ∧ set.Exposes g type field := by
  constructor
  · intro h
    cases h with
    | own hmem hfield => exact Or.inl ⟨rfl, _, hmem, hfield⟩
    | leading hmem hfind hexposes => exact Or.inr ⟨_, hmem, _, hfind, hexposes⟩
  · rintro (⟨rfl, selection, hmem, hfield⟩ | ⟨s, hmem, g, hfind, hexposes⟩)
    · exact .own hmem hfield
    · exact .leading hmem hfind hexposes

theorem fieldName?_settle (tier : Option String) (selection : Selection) :
    (config.settle tier selection).fieldName? = selection.fieldName? := by
  cases selection <;> rfl

/-- A tier selects the printable fields that it allows. -/
theorem exists_field_tier_iff :
    (∃ selection ∈ (ts.edition config object (.tier label allowed)).selections,
        selection.fieldName? = some field) ↔
      ∃ d ∈ object.fields, ts.isPrintable d ∧ d.name = field ∧ field ∈ allowed := by
  rw [edition, TierConfig.selections_tierFragment]
  constructor
  · rintro ⟨selection, hmem, hfield⟩
    rcases List.mem_append.mp hmem with hbase | hsettled
    · cases hlabel : TierConfig.baseLabel? label with
      | none =>
          rw [hlabel] at hbase
          cases hbase
      | some base =>
          rw [hlabel] at hbase
          obtain rfl := List.mem_singleton.mp hbase
          cases hfield
    · obtain ⟨pick, hpick, rfl⟩ := List.mem_map.mp hsettled
      obtain ⟨d, hd, hd'⟩ := List.mem_filterMap.mp hpick
      rw [fieldName?_settle, fieldName?_of_pick? hd', Option.some.injEq] at hfield
      obtain ⟨hfields, hallowed⟩ := List.mem_filter.mp hd
      refine ⟨d, hfields, ?_, hfield, hfield ▸ List.contains_iff_mem.mp hallowed⟩
      rw [← isSome_pick?_deep_iff, hd']
      rfl
  · rintro ⟨d, hd, hprintable, rfl, hallowed⟩
    obtain ⟨pick, hpick⟩ := Option.isSome_iff_exists.mp (isSome_pick?_deep_iff.mpr hprintable)
    refine ⟨config.settle (some label) pick, List.mem_append_right _ ?_, ?_⟩
    · refine List.mem_map_of_mem (List.mem_filterMap.mpr ⟨d, List.mem_filter.mpr ⟨hd, ?_⟩, hpick⟩)
      exact List.contains_iff_mem.mpr hallowed
    · rw [fieldName?_settle, fieldName?_of_pick? hpick]

/-! ## Chains of listings -/

/-- A label has one fragment at most, so all its entries that have one are for the
same fields. -/
theorem edition_tier_eq (hnodup : (ts.emitted config).names.Nodup)
    (hobject : object ∈ ts.fragmentTypes) {a₁ a₂ : List String}
    (h₁ : ts.HasEdition config object (.tier label a₁))
    (h₂ : ts.HasEdition config object (.tier label a₂)) :
    ts.edition config object (.tier label a₁) = ts.edition config object (.tier label a₂) := by
  have hmem (allowed : List String) (h : ts.HasEdition config object (.tier label allowed)) :
      ts.edition config object (.tier label allowed) ∈ (ts.emitted config).all :=
    mem_emitted_iff.mpr ⟨object, hobject, _, h, rfl⟩
  exact List.inj_on_of_nodup_map hnodup (hmem a₁ h₁) (hmem a₂ h₂) rfl

/-- What an edition of a tier allows is what its label allows. -/
theorem exists_allowed_iff_labelAllows (hnodup : (ts.emitted config).names.Nodup)
    (hobject : object ∈ ts.fragmentTypes) (hget : config.get? object.name = some tiers)
    (hhas : ts.HasEdition config object (.tier label allowed)) :
    (∃ d ∈ object.fields, ts.isPrintable d ∧ d.name = field ∧ field ∈ allowed) ↔
      ts.LabelAllows object tiers label field := by
  constructor
  · rintro ⟨d, hd, hprintable, hname, hallowed⟩
    obtain ⟨-, ⟨tiers', htiers, hmem⟩, -⟩ := hhas
    rw [hget] at htiers
    cases htiers
    exact ⟨d, hd, hprintable, hname, allowed, hmem, hallowed⟩
  · rintro ⟨d, hd, hprintable, rfl, allowed', hmem, hallowed⟩
    have hhas' : ts.HasEdition config object (.tier label allowed') :=
      ⟨⟨d, hd, hprintable⟩, ⟨tiers, hget, hmem⟩, Or.inr ⟨d, hd, hprintable, hallowed⟩⟩
    have hselected : ∃ selection ∈ (ts.edition config object (.tier label allowed')).selections,
        selection.fieldName? = some d.name :=
      exists_field_tier_iff.mpr ⟨d, hd, hprintable, rfl, hallowed⟩
    rw [← edition_tier_eq hnodup hobject hhas hhas'] at hselected
    exact exists_field_tier_iff.mp hselected

/-- A tier exposes what its label allows and what the listing it builds on exposes. -/
theorem exposes_tier_iff (hnodup : (ts.emitted config).names.Nodup)
    (hobject : object ∈ ts.fragmentTypes) (hget : config.get? object.name = some tiers)
    (hhas : ts.HasEdition config object (.tier label allowed)) :
    (ts.emitted config).Exposes (ts.edition config object (.tier label allowed)) object.name field ↔
      ts.LabelAllows object tiers label field ∨
      ∃ base, TierConfig.baseLabel? label = some base ∧
        ∃ g, (ts.emitted config).find? (object.name ++ base) = some g ∧
          (ts.emitted config).Exposes g object.name field := by
  rw [exposes_iff_own_or_leading, type_edition, exists_field_tier_iff,
    exists_allowed_iff_labelAllows hnodup hobject hget hhas]
  simp only [true_and, spread_mem_edition_iff]
  refine or_congr_right ⟨?_, ?_⟩
  · rintro ⟨s, ⟨base, hbase, rfl⟩, hexposes⟩
    exact ⟨base, hbase, hexposes⟩
  · rintro ⟨base, hbase, hexposes⟩
    exact ⟨_, ⟨base, hbase, rfl⟩, hexposes⟩

/-- The name of a tier with a fragment leads to that fragment. -/
theorem find?_tier (hnodup : (ts.emitted config).names.Nodup)
    (hobject : object ∈ ts.fragmentTypes)
    (hhas : ts.HasEdition config object (.tier label allowed)) :
    (ts.emitted config).find? (object.name ++ label) =
      some (ts.edition config object (.tier label allowed)) :=
  (FragmentSet.find?_eq_some_iff hnodup).mpr
    ⟨mem_emitted_iff.mpr ⟨object, hobject, _, hhas, rfl⟩, rfl⟩

theorem exposes_tier_iff_of_base_none (hnodup : (ts.emitted config).names.Nodup)
    (hobject : object ∈ ts.fragmentTypes) (hget : config.get? object.name = some tiers)
    (hhas : ts.HasEdition config object (.tier label allowed))
    (hbase : TierConfig.baseLabel? label = none) :
    (ts.emitted config).Exposes (ts.edition config object (.tier label allowed)) object.name
        field ↔ ts.LabelAllows object tiers label field := by
  rw [exposes_tier_iff hnodup hobject hget hhas, hbase]
  simp

theorem exposes_tier_iff_of_base (hnodup : (ts.emitted config).names.Nodup)
    (hobject : object ∈ ts.fragmentTypes) (hget : config.get? object.name = some tiers)
    (hhas : ts.HasEdition config object (.tier label allowed)) {base : String}
    {listed : List String} (hbase : TierConfig.baseLabel? label = some base)
    (hlisting : ts.HasEdition config object (.tier base listed)) :
    (ts.emitted config).Exposes (ts.edition config object (.tier label allowed)) object.name
        field ↔
      ts.LabelAllows object tiers label field ∨
        (ts.emitted config).Exposes (ts.edition config object (.tier base listed)) object.name
          field := by
  rw [exposes_tier_iff hnodup hobject hget hhas, hbase]
  simp [find?_tier hnodup hobject hlisting]

/-- If a type has no admin listing, whatever bears the name of one exposes no field of
the type: it is a fragment of another type and builds on no listing of this one. -/
theorem not_exposes_of_missing (hsound : ts.IsSound) (hobject : object ∈ ts.fragmentTypes)
    (hget : config.get? object.name = some tiers)
    (hmissing : TierConfig.adminListing ∉ tiers.keys)
    (hfind : (ts.emitted config).find? (object.name ++ TierConfig.adminListing) = some g) :
    ¬(ts.emitted config).Exposes g object.name field := by
  have hname : g.name = object.name ++ TierConfig.adminListing := by
    simpa using List.find?_some hfind
  obtain ⟨other, hother, e, hhas, rfl⟩ := mem_emitted_iff.mp (List.mem_of_find?_eq_some hfind)
  rw [name_edition] at hname
  have hne : other.name ≠ object.name := by
    intro heq
    obtain rfl : other = object := hsound.eq_of_name_eq hother hobject heq
    obtain ⟨allowed, rfl⟩ :=
      edition_of_listing (Or.inr rfl) ((String.append_right_inj _).mp hname)
    obtain ⟨-, ⟨tiers', htiers, hmem⟩, -⟩ := hhas
    rw [hget] at htiers
    cases htiers
    exact hmissing (List.mem_map_of_mem hmem)
  rw [exposes_iff_own_or_leading, type_edition]
  rintro (⟨heq, -⟩ | ⟨s, hs, -⟩)
  · exact hne heq
  · -- A label that builds on a listing ends differently, or the types are the same.
    obtain ⟨base, hbase, rfl⟩ := spread_mem_edition_iff.mp hs
    cases e with
    | tier label allowed =>
        have hbuilds : TierConfig.buildsOnListing label := by
          rw [← TierConfig.isSome_baseLabel?]
          exact Option.isSome_iff_exists.mpr ⟨base, hbase⟩
        have hends : ∀ l ∈ [TierConfig.adminTier, TierConfig.adminListing, TierConfig.publicTier],
            (l.toList <:+ TierConfig.adminListing.toList ∨
              TierConfig.adminListing.toList <:+ l.toList) → l = TierConfig.adminListing := by
          decide
        obtain rfl : label = TierConfig.adminListing :=
          hends label (List.contains_iff_mem.mp hbuilds) (isSuffix_or_isSuffix_of_append_eq hname)
        exact hne ((String.append_left_inj _).mp hname)
    | default => cases hbase
    | noNesting => cases hbase
    | full => cases hbase

/-- What a tier exposes if its type has a public listing. -/
theorem exposes_edition_iff (hsound : ts.IsSound) (hnodup : (ts.emitted config).names.Nodup)
    (hobject : object ∈ ts.fragmentTypes) (hget : config.get? object.name = some tiers)
    {listed : List String}
    (hlisting : ts.HasEdition config object (.tier TierConfig.publicListing listed))
    (hhas : ts.HasEdition config object (.tier label allowed)) :
    (ts.emitted config).Exposes (ts.edition config object (.tier label allowed)) object.name
        field ↔
      ∃ l ∈ TierConfig.exposedLabels tiers label, ts.LabelAllows object tiers l field := by
  have hlisted : (ts.emitted config).Exposes
      (ts.edition config object (.tier TierConfig.publicListing listed)) object.name field ↔
        ts.LabelAllows object tiers TierConfig.publicListing field :=
    exposes_tier_iff_of_base_none hnodup hobject hget hlisting rfl
  unfold TierConfig.exposedLabels
  by_cases hbuilds : label = TierConfig.publicTier ∨ label = TierConfig.adminListing
  · have hbase : TierConfig.baseLabel? label = some TierConfig.publicListing := by
      rcases hbuilds with rfl | rfl <;> rfl
    rw [if_pos hbuilds, exposes_tier_iff_of_base hnodup hobject hget hhas hbase hlisting, hlisted]
    simp
  rw [if_neg hbuilds]
  by_cases hadmin : label = TierConfig.adminTier
  · subst hadmin
    by_cases hdeclared : TierConfig.adminListing ∈ tiers.keys
    · obtain ⟨⟨l, allowed'⟩, hmem, rfl⟩ := List.mem_map.mp hdeclared
      have hadminListing : ts.HasEdition config object (.tier TierConfig.adminListing allowed') :=
        ⟨hhas.1, ⟨tiers, hget, hmem⟩, Or.inl rfl⟩
      rw [if_pos ⟨rfl, hdeclared⟩,
        exposes_tier_iff_of_base hnodup hobject hget hhas rfl hadminListing,
        exposes_tier_iff_of_base hnodup hobject hget hadminListing rfl hlisting, hlisted]
      simp
    · rw [if_neg fun h => hdeclared h.2, exposes_tier_iff hnodup hobject hget hhas]
      simp only [List.mem_singleton, exists_eq_left]
      refine or_iff_left ?_
      rintro ⟨base, hbase, g, hfind, hexposes⟩
      cases hbase
      exact not_exposes_of_missing hsound hobject hget hdeclared hfind hexposes
  · have hbase : TierConfig.baseLabel? label = none := by
      rw [not_or] at hbuilds
      simp [TierConfig.baseLabel?, hadmin, hbuilds]
    rw [if_neg fun h => hadmin h.1,
      exposes_tier_iff_of_base_none hnodup hobject hget hhas hbase]
    simp

end TypeSystem

/-! ## The tiers of a run -/

variable {schema : String} {tiers : Option TierConfig} {set : FragmentSet} {ts : TypeSystem}

/-- If the public listing of a type allows a printable field, the tiers of the type
expose of it just what they and the listings they build on allow. -/
theorem exposes_iff (h : (generate schema tiers).result = .ok set)
    (hts : TypeSystem.ofText schema = .ok ts) {object : ObjectType}
    (hobject : object ∈ ts.fragmentTypes) {labels : Tiers}
    (hget : (tiers.getD .empty).get? object.name = some labels)
    (hlisting : ∃ field, ts.LabelAllows object labels TierConfig.publicListing field)
    {label : String} {f : Fragment} (hf : set.deepOf? object.name label = some f)
    (field : String) :
    set.Exposes f object.name field ↔
      ∃ l ∈ TierConfig.exposedLabels labels label, ts.LabelAllows object labels l field := by
  have hsound := TypeSystem.isSound_ofText hts
  obtain ⟨rfl, hnodup⟩ := eq_emitted_of_generate h hts
  obtain ⟨_, d, hd, hprintable, rfl, listed, hmem, hlisted⟩ := hlisting
  have hpublic : ts.HasEdition (tiers.getD .empty) object
      (.tier TierConfig.publicListing listed) :=
    ⟨⟨d, hd, hprintable⟩, ⟨labels, hget, hmem⟩, Or.inr ⟨d, hd, hprintable, hlisted⟩⟩
  rcases (TypeSystem.deepOf?_emitted_iff hsound hnodup hobject).mp hf with
    ⟨-, ⟨-, hnone⟩, -⟩ | ⟨allowed, hhas, rfl⟩
  · rw [hget] at hnone
    cases hnone
  · exact TypeSystem.exposes_edition_iff hsound hnodup hobject hget hpublic hhas

def blogPost : ObjectType := ⟨"Post", [⟨"id", .named "ID"⟩, ⟨"author", .named "User"⟩]⟩

/-- Everybody may see the number of a post, but only the staff its author. -/
def postTiers : Tiers :=
  [("PublicListing", ["id"]), ("Public", []), ("AdminListing", []), ("Admin", ["author"])]

theorem exposes_iff_blog :
    ∃ set, (generate blog (some [("Post", postTiers)])).result = .ok set ∧
      (∃ f, set.deepOf? "Post" "Admin" = some f ∧ set.Exposes f "Post" "id" ∧
        set.Exposes f "Post" "author") ∧
      ∃ f, set.deepOf? "Post" "Public" = some f ∧ set.Exposes f "Post" "id" ∧
        ¬set.Exposes f "Post" "author" := by
  let config : TierConfig := [("Post", postTiers)]
  have hrun : (generate blog (some config)).result = .ok (blogTypes.emitted config) :=
    generate_eq_ok_iff.mpr ⟨blogTypes, ofText_blog, by decide, by decide, rfl⟩
  have hid : blogTypes.LabelAllows blogPost postTiers "PublicListing" "id" :=
    ⟨⟨"id", .named "ID"⟩, by decide, by decide, rfl, ["id"], by decide, by decide⟩
  have hauthor : blogTypes.LabelAllows blogPost postTiers "Admin" "author" :=
    ⟨⟨"author", .named "User"⟩, by decide, by decide, rfl, ["author"], by decide, by decide⟩
  have h (label : String) (f : Fragment)
      (hf : (blogTypes.emitted config).deepOf? blogPost.name label = some f) (field : String) :
      (blogTypes.emitted config).Exposes f blogPost.name field ↔
        ∃ l ∈ TierConfig.exposedLabels postTiers label,
          blogTypes.LabelAllows blogPost postTiers l field :=
    exposes_iff hrun ofText_blog (by decide) rfl ⟨"id", hid⟩ hf field
  refine ⟨_, hrun, ⟨_, rfl, ?_, ?_⟩, ⟨_, rfl, ?_, ?_⟩⟩
  · exact (h "Admin" _ rfl "id").mpr ⟨"PublicListing", by decide, hid⟩
  · exact (h "Admin" _ rfl "author").mpr ⟨"Admin", by decide, hauthor⟩
  · exact (h "Public" _ rfl "id").mpr ⟨"PublicListing", by decide, hid⟩
  · intro hexposes
    obtain ⟨l, hl, d, -, -, -, allowed, hmem, hallowed⟩ := (h "Public" _ rfl "author").mp hexposes
    have hnever : ∀ l ∈ TierConfig.exposedLabels postTiers "Public", ∀ entry ∈ postTiers,
        entry.1 = l → "author" ∉ entry.2 := by
      decide
    exact hnever l hl _ hmem rfl hallowed

end GraphqlFragments
