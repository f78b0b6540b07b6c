import GraphqlFragments.Proofs.Definitions
import GraphqlFragments.Proofs.Resolution
/-!
# What a tier setting can change

Two runs over one schema differ only where their tier configurations do. The main
statement is `fragments_eq_of_sameTypes`: a deep fragment depends on which object
types have tiers, on whether its own type declares its label, and on the fields of
the type that this label allows, and on nothing else of the configuration.
-/

namespace GraphqlFragments

/-! ## Deep fragments by type and suffix -/

namespace FragmentSet

/-- The deep fragment of a type with a suffix, which is a label or that of a full
fragment. -/
def deepOf? (set : FragmentSet) (type suffix : String) : Option Fragment :=
  set.deep.find? fun f => f.type = type && f.name = type ++ suffix

theorem deepOf?_eq_some_iff {set : FragmentSet} (hnodup : set.names.Nodup)
    {type suffix : String} {g : Fragment} :
    set.deepOf? type suffix = some g ↔
      g ∈ set.deep ∧ g.type = type ∧ g.name = type ++ suffix := by
  unfold deepOf?
  constructor
  · intro h
    have hfound := List.find?_some h
    simp only [Bool.and_eq_true, decide_eq_true_eq] at hfound
    exact ⟨List.mem_of_find?_eq_some h, hfound⟩
  · rintro ⟨hmem, htype, hname⟩
    cases h : set.deep.find? fun f => f.type = type && f.name = type ++ suffix with
    | none =>
        have hnone := List.find?_eq_none.mp h g hmem
        simp [htype, hname] at hnone
    | some g' =>
        have hfound := List.find?_some h
        simp only [Bool.and_eq_true, decide_eq_true_eq] at hfound
        have hmem' : g' ∈ set.all := List.mem_append_right _ (List.mem_of_find?_eq_some h)
        rw [List.inj_on_of_nodup_map hnodup hmem' (List.mem_append_right _ hmem)
          (hfound.2.trans hname.symm)]

end FragmentSet

namespace TypeSystem

variable {ts : TypeSystem} {config c₁ c₂ : TierConfig} {object : ObjectType}
  {fields : List Field} {g : Fragment} {suffix label : String}

theorem deepOf?_emitted_iff (hsound : ts.IsSound) (hnodup : (ts.emitted config).names.Nodup)
    (hobject : object ∈ ts.fragmentTypes) :
    (ts.emitted config).deepOf? object.name suffix = some g ↔
      (suffix = "Full" ∧ ts.HasEdition config object .full ∧
        g = ts.edition config object .full) ∨
      ∃ allowed, ts.HasEdition config object (.tier suffix allowed) ∧
        g = ts.edition config object (.tier suffix allowed) := by
  rw [FragmentSet.deepOf?_eq_some_iff hnodup, mem_deep_iff]
  constructor
  · rintro ⟨⟨other, hother, hg⟩, htype, hname⟩
    rcases hg with ⟨hhas, rfl⟩ | ⟨label, allowed, hhas, rfl⟩
    · obtain rfl : other = object := hsound.eq_of_name_eq hother hobject htype
      exact Or.inl ⟨((String.append_right_inj _).mp hname).symm, hhas, rfl⟩
    · obtain rfl : other = object := hsound.eq_of_name_eq hother hobject htype
      obtain rfl := (String.append_right_inj _).mp hname
      exact Or.inr ⟨allowed, hhas, rfl⟩
  · rintro (⟨rfl, hhas, rfl⟩ | ⟨allowed, hhas, rfl⟩)
    · exact ⟨⟨object, hobject, Or.inl ⟨hhas, rfl⟩⟩, rfl, rfl⟩
    · exact ⟨⟨object, hobject, Or.inr ⟨suffix, allowed, hhas, rfl⟩⟩, rfl, rfl⟩

/-! ## Configurations for the same types -/

/-- The same object types of a schema have tiers in both configurations. -/
def SameTypes (ts : TypeSystem) (c₁ c₂ : TierConfig) : Prop :=
  ∀ name, (ts.object name).isSome → (c₁.contains name ↔ c₂.contains name)

/-- Two lists allow the same printable fields of an object type. -/
def SameFields (ts : TypeSystem) (object : ObjectType) (a₁ a₂ : List String) : Prop :=
  ∀ d ∈ object.fields, ts.isPrintable d → (d.name ∈ a₁ ↔ d.name ∈ a₂)

theorem SameTypes.symm (h : ts.SameTypes c₁ c₂) : ts.SameTypes c₂ c₁ :=
  fun name hname => (h name hname).symm

theorem SameFields.symm {a₁ a₂ : List String} (h : ts.SameFields object a₁ a₂) :
    ts.SameFields object a₂ a₁ :=
  fun d hd hprintable => (h d hd hprintable).symm

/-- The target of a relation is an object type of the schema. -/
theorem isSome_object_of_isRelation (hsound : ts.IsSound) {d : Field} (h : ts.isRelation d) :
    (ts.object d.type.innermost).isSome := by
  have hkind : ts.kindOf d.type.innermost = some .object := by simpa [isRelation] using h
  unfold object
  rw [Option.isSome_map, Table.isSome_get?_iff]
  exact hsound.mem_objects_of_kind _ hkind

/-- Relations are settled alike, since their targets are object types. -/
theorem map_settle_picks (hsound : ts.IsSound) (hsame : ts.SameTypes c₁ c₂)
    (tier : Option String) (fields : List Field) :
    (ts.picks .deep fields).map (c₁.settle tier) =
      (ts.picks .deep fields).map (c₂.settle tier) := by
  refine List.map_congr_left fun selection hmem => ?_
  cases selection with
  | field name => rfl
  | spread s => rfl
  | nested name s =>
      obtain ⟨d, -, hrelation, -, htarget, -⟩ := nested_mem_picks_iff.mp hmem
      have hobject := isSome_object_of_isRelation hsound hrelation
      rw [htarget] at hobject
      have hcontains : c₁.contains s.type = c₂.contains s.type :=
        Bool.eq_iff_iff.mpr (hsame s.type hobject)
      have hspread : c₁.settleSpread tier s = c₂.settleSpread tier s := by
        unfold TierConfig.settleSpread
        rw [hcontains]
      exact congrArg (Selection.nested name) hspread

/-- What a list allows beyond the printable fields of the type is not selected. -/
theorem picks_filter_of_sameFields {a₁ a₂ : List String} (hsame : ts.SameFields object a₁ a₂) :
    ts.picks .deep (object.fields.filter fun d => a₁.contains d.name) =
      ts.picks .deep (object.fields.filter fun d => a₂.contains d.name) := by
  unfold picks
  rw [List.filterMap_filter, List.filterMap_filter]
  refine List.filterMap_congr fun d hd => ?_
  cases hpick : ts.pick? .deep d with
  | none => rw [ite_self, ite_self]
  | some selection =>
      have hprintable : ts.isPrintable d := by
        rw [← isSome_pick?_deep_iff, hpick]
        rfl
      have hallowed : a₁.contains d.name = a₂.contains d.name := by
        rw [Bool.eq_iff_iff, List.contains_iff_mem, List.contains_iff_mem]
        exact hsame d hd hprintable
      rw [hallowed]

/-- The full fragment of a type without tiers is the same in both runs. -/
theorem full_of_sameTypes (hsound : ts.IsSound) (hsame : ts.SameTypes c₁ c₂)
    (hobject : object ∈ ts.fragmentTypes) (h : ts.HasEdition c₁ object .full) :
    ts.HasEdition c₂ object .full ∧
      ts.edition c₁ object .full = ts.edition c₂ object .full := by
  obtain ⟨hprintable, hget⟩ := h
  have hentry := hsame object.name (isSome_object_of_mem hobject)
  have hget₂ : c₂.get? object.name = none := by
    simpa [Table.contains, hget] using hentry
  refine ⟨⟨hprintable, hget₂⟩, ?_⟩
  unfold edition TierConfig.fullFragment
  rw [map_settle_picks hsound hsame]

/-- So is the fragment of a tier that both declare, if they allow the same fields. -/
theorem tier_of_sameFields (hsound : ts.IsSound) (hsame : ts.SameTypes c₁ c₂)
    {a₁ a₂ : List String} (hfields : ts.SameFields object a₁ a₂)
    (h : ts.HasEdition c₁ object (.tier label a₁))
    {tiers : Tiers} (hget : c₂.get? object.name = some tiers) (hmem : (label, a₂) ∈ tiers) :
    ts.HasEdition c₂ object (.tier label a₂) ∧
      ts.edition c₁ object (.tier label a₁) = ts.edition c₂ object (.tier label a₂) := by
  obtain ⟨hprintable, -, hkept⟩ := h
  constructor
  · refine ⟨hprintable, ⟨tiers, hget, hmem⟩, ?_⟩
    rcases hkept with hbuilds | ⟨d, hd, hprints, hallowed⟩
    · exact Or.inl hbuilds
    · exact Or.inr ⟨d, hd, hprints, (hfields d hd hprints).mp hallowed⟩
  · have hselections : (ts.edition c₁ object (.tier label a₁)).selections =
        (ts.edition c₂ object (.tier label a₂)).selections := by
      rw [edition, edition, TierConfig.selections_tierFragment,
        TierConfig.selections_tierFragment, picks_filter_of_sameFields hfields,
        map_settle_picks hsound hsame]
    exact congrArg (Fragment.mk (object.name ++ label) object.name) hselections

theorem deepOf?_full_of_sameTypes (hsound : ts.IsSound) (hsame : ts.SameTypes c₁ c₂)
    (hobject : object ∈ ts.fragmentTypes) (hget : c₁.get? object.name = none)
    (hnodup₁ : (ts.emitted c₁).names.Nodup) (hnodup₂ : (ts.emitted c₂).names.Nodup)
    (h : (ts.emitted c₁).deepOf? object.name "Full" = some g) :
    (ts.emitted c₂).deepOf? object.name "Full" = some g := by
  rw [deepOf?_emitted_iff hsound hnodup₁ hobject] at h
  rw [deepOf?_emitted_iff hsound hnodup₂ hobject]
  rcases h with ⟨-, hhas, rfl⟩ | ⟨allowed, ⟨-, ⟨tiers, htiers, -⟩, -⟩, -⟩
  · obtain ⟨hhas₂, heq⟩ := full_of_sameTypes hsound hsame hobject hhas
    exact Or.inl ⟨rfl, hhas₂, heq⟩
  · rw [hget] at htiers
    cases htiers

theorem deepOf?_tier_of_sameFields (hsound : ts.IsSound) (hsame : ts.SameTypes c₁ c₂)
    (hobject : object ∈ ts.fragmentTypes) {t₁ t₂ : Tiers}
    (hget₁ : c₁.get? object.name = some t₁) (hget₂ : c₂.get? object.name = some t₂)
    (hlabel : label ∈ t₂.keys)
    (hfields : ∀ a₁ a₂, (label, a₁) ∈ t₁ → (label, a₂) ∈ t₂ → ts.SameFields object a₁ a₂)
    (hnodup₁ : (ts.emitted c₁).names.Nodup) (hnodup₂ : (ts.emitted c₂).names.Nodup)
    (h : (ts.emitted c₁).deepOf? object.name label = some g) :
    (ts.emitted c₂).deepOf? object.name label = some g := by
  rw [deepOf?_emitted_iff hsound hnodup₁ hobject] at h
  rw [deepOf?_emitted_iff hsound hnodup₂ hobject]
  rcases h with ⟨-, ⟨-, hnone⟩, -⟩ | ⟨a₁, hhas, rfl⟩
  · rw [hget₁] at hnone
    cases hnone
  · obtain ⟨⟨l, a₂⟩, hmem₂, rfl⟩ := List.mem_map.mp hlabel
    obtain ⟨-, ⟨tiers, htiers, hmem₁⟩, -⟩ := id hhas
    rw [hget₁] at htiers
    cases htiers
    obtain ⟨hhas₂, heq⟩ :=
      tier_of_sameFields hsound hsame (hfields a₁ a₂ hmem₁ hmem₂) hhas hget₂ hmem₂
    exact Or.inr ⟨a₂, hhas₂, heq⟩

end TypeSystem

/-! ## Two runs -/

variable {schema : String} {tiers₁ tiers₂ : Option TierConfig} {set₁ set₂ : FragmentSet}
  {ts : TypeSystem}

/-- Two runs over one schema have the same default fragments and the same ones without
relations. If the same object types have tiers in both, the full fragment of a type
without tiers is the same or missing in both, and so is the fragment of a tier that
both declare and for which they allow the same printable fields. -/
theorem fragments_eq_of_sameTypes (h₁ : (generate schema tiers₁).result = .ok set₁)
    (h₂ : (generate schema tiers₂).result = .ok set₂) (hts : TypeSystem.ofText schema = .ok ts) :
    set₁.default = set₂.default ∧ set₁.noRelations = set₂.noRelations ∧
    (ts.SameTypes (tiers₁.getD .empty) (tiers₂.getD .empty) →
      ∀ object ∈ ts.fragmentTypes,
        ((tiers₁.getD .empty).get? object.name = none →
          set₁.deepOf? object.name "Full" = set₂.deepOf? object.name "Full") ∧
        ∀ t₁ t₂, (tiers₁.getD .empty).get? object.name = some t₁ →
          (tiers₂.getD .empty).get? object.name = some t₂ →
          ∀ label ∈ t₁.keys, label ∈ t₂.keys →
            (∀ a₁ a₂, (label, a₁) ∈ t₁ → (label, a₂) ∈ t₂ → ts.SameFields object a₁ a₂) →
            set₁.deepOf? object.name label = set₂.deepOf? object.name label) := by
  have hsound := TypeSystem.isSound_ofText hts
  obtain ⟨rfl, hnodup₁⟩ := eq_emitted_of_generate h₁ hts
  obtain ⟨rfl, hnodup₂⟩ := eq_emitted_of_generate h₂ hts
  refine ⟨?_, ?_, fun hsame object hobject => ⟨fun hget₁ => ?_, ?_⟩⟩
  · rw [TypeSystem.default_emitted, TypeSystem.default_emitted]
  · rw [TypeSystem.noRelations_emitted, TypeSystem.noRelations_emitted]
  · have hget₂ : (tiers₂.getD .empty).get? object.name = none := by
      have hentry := hsame object.name (TypeSystem.isSome_object_of_mem hobject)
      simpa [Table.contains, hget₁] using hentry
    refine Option.ext fun g => ⟨?_, ?_⟩
    · exact TypeSystem.deepOf?_full_of_sameTypes hsound hsame hobject hget₁ hnodup₁ hnodup₂
    · exact TypeSystem.deepOf?_full_of_sameTypes hsound hsame.symm hobject hget₂ hnodup₂ hnodup₁
  · intro t₁ t₂ hget₁ hget₂ label hlabel₁ hlabel₂ hfields
    have hfields' : ∀ a₂ a₁, (label, a₂) ∈ t₂ → (label, a₁) ∈ t₁ →
        ts.SameFields object a₂ a₁ :=
      fun a₂ a₁ hmem₂ hmem₁ => (hfields a₁ a₂ hmem₁ hmem₂).symm
    refine Option.ext fun g => ⟨?_, ?_⟩
    · exact TypeSystem.deepOf?_tier_of_sameFields hsound hsame hobject hget₁ hget₂ hlabel₂ hfields
        hnodup₁ hnodup₂
    · exact TypeSystem.deepOf?_tier_of_sameFields hsound hsame.symm hobject hget₂ hget₁ hlabel₁
        hfields' hnodup₂ hnodup₁

/-- Differs from the configuration of the blog by a label, by a type that the schema
does not have, and in a list by what it says more than once or of unknown fields. -/
def wordyTiers : TierConfig :=
  [("Team", []), ("User", [("Public", []), ("PublicListing", ["email", "name", "name"])])]

theorem fragments_eq_of_sameTypes_blog :
    ∃ set₁ set₂, (generate blog (some blogTiers)).result = .ok set₁ ∧
      (generate blog (some wordyTiers)).result = .ok set₂ ∧ set₁.deep ≠ set₂.deep ∧
      set₁.deepOf? "Post" "Full" = set₂.deepOf? "Post" "Full" ∧
      set₁.deepOf? "User" "PublicListing" = set₂.deepOf? "User" "PublicListing" := by
  have hwordy : (generate blog (some wordyTiers)).result = .ok (blogTypes.emitted wordyTiers) :=
    generate_eq_ok_iff.mpr ⟨blogTypes, ofText_blog, by decide, by decide, rfl⟩
  have hsame : blogTypes.SameTypes blogTiers wordyTiers := by
    intro name hname
    unfold TypeSystem.object at hname
    rw [Option.isSome_map, Table.isSome_get?_iff] at hname
    have hnames : ∀ name ∈ blogTypes.objects.keys,
        (blogTiers.contains name ↔ wordyTiers.contains name) := by
      decide
    exact hnames name hname
  have h := (fragments_eq_of_sameTypes generate_blog hwordy ofText_blog).2.2 hsame
  refine ⟨_, _, generate_blog, hwordy, by decide, ?_, ?_⟩
  · exact (h ⟨"Post", [⟨"id", .named "ID"⟩, ⟨"author", .named "User"⟩]⟩ (by decide)).1 (by decide)
  · refine (h ⟨"User", [⟨"name", .named "String"⟩]⟩ (by decide)).2 _ _ rfl rfl "PublicListing"
      (by decide) (by decide) ?_
    intro a₁ a₂ h₁ h₂
    obtain rfl : a₁ = ["name"] := by simpa using h₁
    obtain rfl : a₂ = ["email", "name", "name"] := by simpa using h₂
    unfold TypeSystem.SameFields
    decide

end GraphqlFragments
