import GraphqlFragments.Proofs.Editions
/-!
# Resolving spreads

A spread means the fragment of its target type with its suffix. The target has
that fragment only under conditions of its own, so a spread may name nothing, or
a fragment of another type whose name happens to be the same. The main
statements say for every spread of a run which of these is the case.
-/

namespace GraphqlFragments

namespace FragmentSet

/-- The group in which a spread's fragment belongs. -/
def groupOf (set : FragmentSet) : SpreadSuffix → List Fragment
  | .noNesting => set.noRelations
  | _ => set.deep

variable {set : FragmentSet} {g : Fragment}

theorem mem_all_of_mem_groupOf {suffix : SpreadSuffix} (h : g ∈ set.groupOf suffix) :
    g ∈ set.all := by
  unfold all
  cases suffix with
  | noNesting => exact List.mem_append_left _ (List.mem_append_right _ h)
  | deepNesting => exact List.mem_append_right _ h
  | full => exact List.mem_append_right _ h
  | tier label => exact List.mem_append_right _ h

/-- If all names differ, a name finds the one fragment that has it. -/
theorem find?_eq_some_iff (hnodup : set.names.Nodup) {name : String} :
    set.find? name = some g ↔ g ∈ set.all ∧ g.name = name := by
  unfold find?
  constructor
  · intro h
    exact ⟨List.mem_of_find?_eq_some h, by simpa using List.find?_some h⟩
  · rintro ⟨hmem, rfl⟩
    cases h : set.all.find? fun f => f.name = g.name with
    | none =>
        have hnone := List.find?_eq_none.mp h g hmem
        simp at hnone
    | some g' =>
        have hname : g'.name = g.name := by simpa using List.find?_some h
        rw [List.inj_on_of_nodup_map hnodup (List.mem_of_find?_eq_some h) hmem hname]

end FragmentSet

namespace TypeSystem

/-- The target of a spread is a type that gets fragments, and it has the one that
the spread means. -/
def Resolves (ts : TypeSystem) (config : TierConfig) (s : Spread) : Prop :=
  ∃ object ∈ ts.fragmentTypes, object.name = s.type ∧
    match s.suffix with
    | .noNesting => ∃ f ∈ object.fields, ts.isPlain f
    | .deepNesting => False
    | .full => ∃ f ∈ object.fields, ts.isPrintable f
    | .tier label =>
        (∃ f ∈ object.fields, ts.isPrintable f) ∧
          ∃ tiers allowed, config.get? s.type = some tiers ∧ (label, allowed) ∈ tiers ∧
            (label = TierConfig.adminListing ∨
              ∃ f ∈ object.fields, ts.isPrintable f ∧ f.name ∈ allowed)

variable {ts : TypeSystem} {config : TierConfig} {object : ObjectType} {e : Edition}
  {s : Spread}

/-- The edition with the suffix of a listing is the tier of that label. -/
theorem edition_of_listing {label : String}
    (hlabel : label = TierConfig.publicListing ∨ label = TierConfig.adminListing)
    (hsuffix : e.suffix = label) : ∃ allowed, e = .tier label allowed := by
  cases e with
  | default => rcases hlabel with rfl | rfl <;> exact absurd hsuffix (by decide)
  | noNesting => rcases hlabel with rfl | rfl <;> exact absurd hsuffix (by decide)
  | full => rcases hlabel with rfl | rfl <;> exact absurd hsuffix (by decide)
  | tier l allowed => exact ⟨allowed, by rw [← hsuffix]; rfl⟩

/-- The fragment that a spread means is in its group exactly if the target has it. -/
theorem exists_target_iff (h : config.IsSettled s) :
    (∃ g ∈ (ts.emitted config).groupOf s.suffix,
      g.name = s.fragmentName ∧ g.type = s.type) ↔ ts.Resolves config s := by
  obtain ⟨target, suffix⟩ := s
  cases suffix with
  | noNesting =>
      constructor
      · rintro ⟨g, hg, -, htype⟩
        obtain ⟨object, hobject, hhas, rfl⟩ := mem_noRelations_iff.mp hg
        exact ⟨object, hobject, htype, hhas⟩
      · rintro ⟨object, hobject, rfl, hhas⟩
        exact ⟨ts.edition config object .noNesting,
          mem_noRelations_iff.mpr ⟨object, hobject, hhas, rfl⟩, rfl, rfl⟩
  | deepNesting => exact absurd h id
  | full =>
      constructor
      · rintro ⟨g, hg, -, htype⟩
        obtain ⟨object, hobject, ⟨hhas, rfl⟩ | ⟨label, allowed, hhas, rfl⟩⟩ :=
          mem_deep_iff.mp hg
        · exact ⟨object, hobject, htype, hhas.1⟩
        · exact ⟨object, hobject, htype, hhas.1⟩
      · rintro ⟨object, hobject, rfl, hprintable⟩
        exact ⟨ts.edition config object .full,
          mem_deep_iff.mpr ⟨object, hobject, Or.inl ⟨⟨hprintable, h⟩, rfl⟩⟩, rfl, rfl⟩
  | tier label =>
      constructor
      · rintro ⟨g, hg, hname, htype⟩
        obtain ⟨object, hobject, e, hhas, rfl⟩ :=
          mem_emitted_iff.mp (FragmentSet.mem_all_of_mem_groupOf hg)
        obtain rfl : object.name = target := (type_edition e).symm.trans htype
        -- Two fragments of one type have the same name only if they have the same suffix.
        rw [name_edition] at hname
        obtain ⟨allowed, rfl⟩ := edition_of_listing h ((String.append_right_inj _).mp hname)
        obtain ⟨hprintable, ⟨tiers, hget, hmem⟩, hkept⟩ := hhas
        rw [TierConfig.buildsOnListing_listing_iff h] at hkept
        exact ⟨object, hobject, rfl, hprintable, tiers, allowed, hget, hmem, hkept⟩
      · rintro ⟨object, hobject, rfl, hprintable, tiers, allowed, hget, hmem, hallowed⟩
        rw [← TierConfig.buildsOnListing_listing_iff h] at hallowed
        exact ⟨ts.edition config object (.tier label allowed),
          mem_deep_iff.mpr ⟨object, hobject, Or.inr ⟨label, allowed,
            ⟨hprintable, ⟨tiers, hget, hmem⟩, hallowed⟩, rfl⟩⟩, rfl, rfl⟩

/-- A name leads to the fragment of the target unless another type took the place
of a fragment that the target does not have. -/
theorem find?_sound_iff (hnodup : (ts.emitted config).names.Nodup) (h : config.IsSettled s) :
    (∀ g, (ts.emitted config).find? s.fragmentName = some g → g.type = s.type) ↔
      (¬ts.Resolves config s →
        ∀ type, ts.HasFragment config type s.fragmentName → type = s.type) := by
  constructor
  · intro hsound _ type hnames
    obtain ⟨g, hg, rfl, hname⟩ := exists_named_iff.mpr hnames
    exact hsound g ((FragmentSet.find?_eq_some_iff hnodup).mpr ⟨hg, hname⟩)
  · intro hother g hg
    obtain ⟨hmem, hname⟩ := (FragmentSet.find?_eq_some_iff hnodup).mp hg
    by_cases hresolves : ts.Resolves config s
    -- The target's own fragment has the name, and no two fragments share one.
    · obtain ⟨g', hg', hname', htype⟩ := (exists_target_iff h).mpr hresolves
      have hg'mem := FragmentSet.mem_all_of_mem_groupOf hg'
      have hsame := (FragmentSet.find?_eq_some_iff hnodup).mpr ⟨hg'mem, hname'⟩
      rw [hg] at hsame
      rw [Option.some.inj hsame, htype]
    · exact hother hresolves g.type (exists_named_iff.mp ⟨g, hmem, rfl, hname⟩)

end TypeSystem

/-! ## A schema with a type in tiers -/

/-- Posts with an author. -/
def blog : String := "type Post { id: ID author: User } type User { name: String }"

def blogTypes : TypeSystem where
  kinds := TypeSystem.builtinKinds ++ [("Post", .object), ("User", .object)]
  objects :=
    [("Post", [⟨"id", .named "ID"⟩, ⟨"author", .named "User"⟩]),
      ("User", [⟨"name", .named "String"⟩])]
  roots := .conventional

def blogTiers : TierConfig := [("User", [("PublicListing", ["name"])])]

def blogFragments : FragmentSet where
  default :=
    [⟨"Post", "Post", [.field "id", .nested "author" ⟨"User", .noNesting⟩]⟩,
      ⟨"User", "User", [.field "name"]⟩]
  noRelations :=
    [⟨"PostNoNesting", "Post", [.field "id"]⟩, ⟨"UserNoNesting", "User", [.field "name"]⟩]
  deep :=
    [⟨"PostFull", "Post", [.field "id", .nested "author" ⟨"User", .tier "PublicListing"⟩]⟩,
      ⟨"UserPublicListing", "User", [.field "name"]⟩]

theorem ofText_blog : TypeSystem.ofText blog = .ok blogTypes :=
  eq_ok_of_toOption (by decide +kernel)

theorem generate_blog : (generate blog (some blogTiers)).result = .ok blogFragments :=
  generate_eq_ok_iff.mpr ⟨blogTypes, ofText_blog, by decide, by decide, by decide⟩

/-! ## The spreads of a run -/

variable {schema : String} {tiers : Option TierConfig} {set : FragmentSet} {ts : TypeSystem}

/-- The fragment that a spread means, with the name and the type of its target, is
there exactly if the target is a type with fragments that has it, and then the
name of the spread leads to it. -/
theorem spread_resolves_iff (h : (generate schema tiers).result = .ok set)
    (hts : TypeSystem.ofText schema = .ok ts) :
    ∀ f ∈ set.all, ∀ s ∈ f.spreads,
      s.suffix ∈ [.noNesting, .full, .tier TierConfig.publicListing,
        .tier TierConfig.adminListing] ∧
      ((∃ g ∈ set.groupOf s.suffix, g.name = s.fragmentName ∧ g.type = s.type) ↔
        ts.Resolves (tiers.getD .empty) s) ∧
      ∀ g ∈ set.groupOf s.suffix, g.name = s.fragmentName → g.type = s.type →
        set.find? s.fragmentName = some g := by
  obtain ⟨rfl, hnodup⟩ := eq_emitted_of_generate h hts
  intro f hf s hs
  have hsettled := TypeSystem.isSettled_of_mem_spreads f hf s hs
  refine ⟨TierConfig.suffix_mem_of_isSettled hsettled,
    TypeSystem.exists_target_iff hsettled, ?_⟩
  intro g hg hname _
  exact (FragmentSet.find?_eq_some_iff hnodup).mpr
    ⟨FragmentSet.mem_all_of_mem_groupOf hg, hname⟩

theorem spread_resolves_iff_blog :
    blogTypes.Resolves blogTiers ⟨"User", .tier "PublicListing"⟩ ∧
      blogFragments.find? "UserPublicListing" =
        some ⟨"UserPublicListing", "User", [.field "name"]⟩ := by
  have h := spread_resolves_iff generate_blog ofText_blog
    ⟨"PostFull", "Post", [.field "id", .nested "author" ⟨"User", .tier "PublicListing"⟩]⟩
    (by decide) ⟨"User", .tier "PublicListing"⟩ (by decide)
  have hlisting : ⟨"UserPublicListing", "User", [.field "name"]⟩ ∈ blogFragments.deep := by
    decide
  exact ⟨h.2.1.mp ⟨_, hlisting, rfl, rfl⟩, h.2.2 _ hlisting rfl rfl⟩

/-- A spread names some fragment of the run exactly if its target has the fragment
it means or any type has one of that name. So the fragments of a run are closed
under spreads exactly if this holds of every spread that the fields and the tiers
of the schema call for. -/
theorem spreads_closed_iff (h : (generate schema tiers).result = .ok set)
    (hts : TypeSystem.ofText schema = .ok ts) :
    (∀ f ∈ set.all, ∀ s ∈ f.spreads,
      (s.fragmentName ∈ set.names ↔
        ts.Resolves (tiers.getD .empty) s ∨
          ∃ type, ts.HasFragment (tiers.getD .empty) type s.fragmentName)) ∧
    ((∀ f ∈ set.all, ∀ s ∈ f.spreads, s.fragmentName ∈ set.names) ↔
      ∀ object ∈ ts.fragmentTypes, ∀ e, ts.HasEdition (tiers.getD .empty) object e →
        ∀ s, ts.Spreads (tiers.getD .empty) object e s →
          ts.Resolves (tiers.getD .empty) s ∨
            ∃ type, ts.HasFragment (tiers.getD .empty) type s.fragmentName) := by
  obtain ⟨rfl, -⟩ := eq_emitted_of_generate h hts
  have hspread : ∀ f ∈ (ts.emitted (tiers.getD .empty)).all, ∀ s ∈ f.spreads,
      (s.fragmentName ∈ (ts.emitted (tiers.getD .empty)).names ↔
        ts.Resolves (tiers.getD .empty) s ∨
          ∃ type, ts.HasFragment (tiers.getD .empty) type s.fragmentName) := by
    intro f hf s hs
    rw [TypeSystem.mem_names_emitted_iff]
    refine ⟨Or.inr, ?_⟩
    rintro (hresolves | hnamed)
    · have hsettled := TypeSystem.isSettled_of_mem_spreads f hf s hs
      obtain ⟨g, hg, hname, htype⟩ := (TypeSystem.exists_target_iff hsettled).mpr hresolves
      exact ⟨s.type, TypeSystem.exists_named_iff.mp
        ⟨g, FragmentSet.mem_all_of_mem_groupOf hg, htype, hname⟩⟩
    · exact hnamed
  refine ⟨hspread, ?_⟩
  rw [← TypeSystem.forall_spreads_iff]
  exact forall₂_congr fun f hf => forall₂_congr fun s hs => hspread f hf s hs

theorem spreads_closed_iff_blog :
    (∀ f ∈ blogFragments.all, ∀ s ∈ f.spreads, s.fragmentName ∈ blogFragments.names) ∧
      ∀ object ∈ blogTypes.fragmentTypes, ∀ e, blogTypes.HasEdition blogTiers object e →
        ∀ s, blogTypes.Spreads blogTiers object e s →
          blogTypes.Resolves blogTiers s ∨
            ∃ type, blogTypes.HasFragment blogTiers type s.fragmentName :=
  ⟨by decide, (spreads_closed_iff generate_blog ofText_blog).2.mp (by decide)⟩

/-- A tier that builds on a listing spreads it even if the listing allows no field
of the type and so has no fragment. -/
theorem spread_of_empty_listing :
    ∃ set, (generate "type User { name: String }"
        (some [("User", [("PublicListing", ["email"]), ("Public", ["name"])])])).result =
          .ok set ∧
      ∃ f ∈ set.all, ∃ s ∈ f.spreads, s.fragmentName ∉ set.names := by
  have hschema : TypeSystem.ofText "type User { name: String }" =
      .ok ⟨TypeSystem.builtinKinds ++ [("User", .object)],
        [("User", [⟨"name", .named "String"⟩])], .conventional⟩ :=
    eq_ok_of_toOption (by decide +kernel)
  refine ⟨_, generate_eq_ok_iff.mpr ⟨_, hschema, by decide, by decide, rfl⟩, ?_⟩
  decide

/-- The target of a spread is the innermost type of its field, or the type of the
fragment if it stands in front of the fields. The names of all spreads lead to
fragments of their targets exactly if no type has a fragment with the name of one
that some target does not have. -/
theorem spreads_sound_iff (h : (generate schema tiers).result = .ok set)
    (hts : TypeSystem.ofText schema = .ok ts) :
    (∀ f ∈ set.all, ∃ object ∈ ts.fragmentTypes, object.name = f.type ∧
      (∀ name s, .nested name s ∈ f.selections →
        ∃ d ∈ object.fields, d.name = name ∧ d.type.innermost = s.type) ∧
      ∀ s, .spread s ∈ f.selections → s.type = f.type) ∧
    ((∀ f ∈ set.all, ∀ s ∈ f.spreads, ∀ g, set.find? s.fragmentName = some g →
        g.type = s.type) ↔
      ∀ object ∈ ts.fragmentTypes, ∀ e, ts.HasEdition (tiers.getD .empty) object e →
        ∀ s, ts.Spreads (tiers.getD .empty) object e s →
          ¬ts.Resolves (tiers.getD .empty) s →
            ∀ type, ts.HasFragment (tiers.getD .empty) type s.fragmentName → type = s.type) := by
  obtain ⟨rfl, hnodup⟩ := eq_emitted_of_generate h hts
  constructor
  · intro f hf
    obtain ⟨object, hobject, e, -, rfl⟩ := TypeSystem.mem_emitted_iff.mp hf
    rw [TypeSystem.type_edition]
    exact ⟨object, hobject, rfl, TypeSystem.target_of_mem_edition⟩
  · rw [← TypeSystem.forall_spreads_iff]
    exact forall₂_congr fun f hf => forall₂_congr fun s hs =>
      TypeSystem.find?_sound_iff hnodup (TypeSystem.isSettled_of_mem_spreads f hf s hs)

theorem spreads_sound_iff_blog :
    (∀ f ∈ blogFragments.all, ∀ s ∈ f.spreads, ∀ g ∈ blogFragments.find? s.fragmentName,
        g.type = s.type) ∧
      ∀ object ∈ blogTypes.fragmentTypes, ∀ e, blogTypes.HasEdition blogTiers object e →
        ∀ s, blogTypes.Spreads blogTiers object e s → ¬blogTypes.Resolves blogTiers s →
          ∀ type, blogTypes.HasFragment blogTiers type s.fragmentName → type = s.type :=
  ⟨by decide, (spreads_sound_iff generate_blog ofText_blog).2.mp (by decide)⟩

/-- A type without plain fields has no fragment without relations, and a type with
the name of that fragment takes its place. -/
theorem spread_of_other_type :
    ∃ set, (generate "type User { friend: User } type UserNoNesting { id: ID }" none).result =
        .ok set ∧
      ∃ f ∈ set.all, ∃ s ∈ f.spreads, ∃ g ∈ set.all,
        set.find? s.fragmentName = some g ∧ g.type ≠ s.type := by
  have hschema : TypeSystem.ofText "type User { friend: User } type UserNoNesting { id: ID }" =
      .ok ⟨TypeSystem.builtinKinds ++ [("User", .object), ("UserNoNesting", .object)],
        [("User", [⟨"friend", .named "User"⟩]), ("UserNoNesting", [⟨"id", .named "ID"⟩])],
        .conventional⟩ := eq_ok_of_toOption (by decide +kernel)
  refine ⟨_, generate_eq_ok_iff.mpr ⟨_, hschema, by decide, by decide, rfl⟩, ?_⟩
  decide

end GraphqlFragments
