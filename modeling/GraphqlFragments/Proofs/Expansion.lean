import GraphqlFragments.Proofs.Fields
import GraphqlFragments.Tier.Expansion
/-!
# The deep fragments of a type

What the expansion of a type's tiers comes to when its deep selections are those
of a list of fields: which tiers get a fragment, and what these fragments select.
-/

namespace GraphqlFragments.TierConfig

/-- Labels whose fragments build on a listing of the same type. They get a
fragment whatever they allow. -/
def buildsOnListing (label : String) : Bool :=
  [adminTier, adminListing, publicTier].contains label

/-- A tier gets a fragment if it builds on a listing or allows a printable field. -/
def keeps (ts : TypeSystem) (fields : List Field) (tier : String × List String) : Bool :=
  buildsOnListing tier.1 || fields.any fun f => ts.isPrintable f && tier.2.contains f.name

/-- What follows the name of the type in the names of its deep fragments. -/
def deepLabels (ts : TypeSystem) (config : TierConfig) (object : ObjectType) :
    List String :=
  if object.fields.any ts.isPrintable then
    match config.get? object.name with
    | none => ["Full"]
    | some tiers => (tiers.filter (keeps ts object.fields)).map Prod.fst
  else []

/-- The suffix with which a deep fragment spreads a target, given the tier of the
fragment if it is one. -/
def deepSuffix (config : TierConfig) (tier : Option String) (target : String) :
    SpreadSuffix :=
  if config.contains target then .tier (relationLabel tier) else .full

/-- The fragment that a tier has if it selects something. -/
def tierFragment (config : TierConfig) (type : String) (deep : List Selection)
    (tier : String × List String) : Fragment :=
  ⟨type ++ tier.1, type,
    (tierSelections type tier.1 tier.2 deep).map (config.settle (some tier.1))⟩

variable {ts : TypeSystem} {config : TierConfig} {type : String} {fields : List Field}

/-! ## Tiers with a fragment -/

theorem isSome_baseLabel? (label : String) :
    (baseLabel? label).isSome = buildsOnListing label := by
  have h : buildsOnListing label =
      (decide (label = adminTier) ||
        (decide (label = adminListing) || decide (label = publicTier))) := by
    simp [buildsOnListing, List.contains_eq_mem]
  rw [h]
  unfold baseLabel?
  by_cases hadmin : label = adminTier
  · simp [hadmin]
  · by_cases hrest : (label = adminListing || label = publicTier) = true
    · simp only [hadmin, hrest]
      rfl
    · simp only [hadmin, hrest]
      simp

/-- What a tier selects comes from the fields that it allows. -/
theorem tierSelections_picks (label : String) (allowed : List String) :
    tierSelections type label allowed (ts.picks .deep fields) =
      ((baseLabel? label).map fun base => Selection.spread ⟨type, .tier base⟩).toList ++
        ts.picks .deep (fields.filter fun f => allowed.contains f.name) := by
  unfold tierSelections
  rw [TypeSystem.filter_picks]

theorem isEmpty_tierSelections (tier : String × List String) :
    (tierSelections type tier.1 tier.2 (ts.picks .deep fields)).isEmpty =
      !keeps ts fields tier := by
  have hallowed : (fields.filter fun f => tier.2.contains f.name).any ts.isPrintable =
      fields.any fun f => ts.isPrintable f && tier.2.contains f.name := by
    rw [List.any_filter]
    simp only [Bool.and_comm]
  have hpicks := ts.isEmpty_picks_of_isSome .deep
    (fields.filter fun f => tier.2.contains f.name) rfl
  rw [hallowed] at hpicks
  rw [tierSelections_picks, keeps, ← isSome_baseLabel?]
  cases baseLabel? tier.1 with
  | none => exact hpicks
  | some base => rfl

theorem tierFragment?_eq (deep : List Selection) (tier : String × List String) :
    config.tierFragment? type deep tier =
      if (tierSelections type tier.1 tier.2 deep).isEmpty then none
      else some (config.tierFragment type deep tier) := by
  unfold tierFragment? tierFragment
  cases h : tierSelections type tier.1 tier.2 deep with
  | nil => rfl
  | cons s rest => rfl

/-- The deep fragments of a type are its full fragment, or one for each tier that selects
something. -/
theorem deepFragments_eq (deep : List Selection) :
    config.deepFragments type deep =
      if deep.isEmpty then []
      else
        match config.get? type with
        | none => [config.fullFragment type deep]
        | some tiers =>
            (tiers.filter fun tier => !(tierSelections type tier.1 tier.2 deep).isEmpty).map
              (config.tierFragment type deep) := by
  have htier (tier : String × List String) : config.tierFragment? type deep tier =
      if !(tierSelections type tier.1 tier.2 deep).isEmpty then
        some (config.tierFragment type deep tier)
      else none := by
    rw [tierFragment?_eq]
    cases (tierSelections type tier.1 tier.2 deep).isEmpty <;> rfl
  unfold deepFragments
  cases config.get? type with
  | none => rfl
  | some tiers =>
      simp only [← List.filterMap_eq_map, List.filterMap_filter, funext htier]
      rfl

/-- If the selections are those of fields, tiers select something if they allow a printable field
or build on a listing. -/
theorem deepFragments_picks :
    config.deepFragments type (ts.picks .deep fields) =
      if fields.any ts.isPrintable then
        match config.get? type with
        | none => [config.fullFragment type (ts.picks .deep fields)]
        | some tiers => (tiers.filter (keeps ts fields)).map
            (config.tierFragment type (ts.picks .deep fields))
      else [] := by
  rw [deepFragments_eq, ts.isEmpty_picks_of_isSome .deep fields rfl]
  simp only [isEmpty_tierSelections, Bool.not_not]
  cases fields.any ts.isPrintable <;> rfl

/-- The names of the deep fragments of a type, in order. -/
theorem map_name_deepFragments (object : ObjectType) :
    (config.deepFragments object.name (ts.picks .deep object.fields)).map Fragment.name =
      (deepLabels ts config object).map (object.name ++ ·) := by
  rw [deepFragments_picks, deepLabels]
  cases object.fields.any ts.isPrintable with
  | false => rfl
  | true =>
      cases config.get? object.name with
      | none => rfl
      | some tiers =>
          simp only [if_true, List.map_map]
          rfl

/-! ## What the fragments of tiers select -/

theorem selections_tierFragment (label : String) (allowed : List String) :
    (config.tierFragment type (ts.picks .deep fields) (label, allowed)).selections =
      ((baseLabel? label).map fun base => Selection.spread ⟨type, .tier base⟩).toList ++
        (ts.picks .deep (fields.filter fun f => allowed.contains f.name)).map
          (config.settle (some label)) := by
  unfold tierFragment
  rw [tierSelections_picks, List.map_append]
  cases baseLabel? label <;> rfl

/-- The nested selections of a deep fragment are its relations, each with a spread
of the target that is settled for the tier. -/
theorem nested_mem_settled_iff {tier : Option String} {name : String} {s : Spread} :
    .nested name s ∈ (ts.picks .deep fields).map (config.settle tier) ↔
      ∃ f ∈ fields, ts.isRelation f ∧ f.name = name ∧ f.type.innermost = s.type ∧
        config.deepSuffix tier s.type = s.suffix := by
  constructor
  · intro h
    obtain ⟨selection, hmem, hsettle⟩ := List.mem_map.mp h
    cases selection with
    | field n => cases hsettle
    | spread u => cases hsettle
    | nested n u =>
        obtain ⟨f, hf, hrelation, hname, htarget, hsuffix⟩ :=
          TypeSystem.nested_mem_picks_iff.mp hmem
        obtain ⟨target, suffix⟩ := u
        cases hsuffix
        cases hsettle
        exact ⟨f, hf, hrelation, hname, htarget, rfl⟩
  · rintro ⟨f, hf, hrelation, hname, htarget, hsuffix⟩
    obtain ⟨target, suffix⟩ := s
    obtain rfl : config.deepSuffix tier target = suffix := hsuffix
    refine List.mem_map.mpr ⟨.nested name ⟨target, .deepNesting⟩, ?_, rfl⟩
    exact TypeSystem.nested_mem_picks_iff.mpr ⟨f, hf, hrelation, hname, htarget, rfl⟩

theorem spread_notMem_settled {tier : Option String} {s : Spread} :
    .spread s ∉ (ts.picks .deep fields).map (config.settle tier) := by
  intro h
  obtain ⟨selection, hmem, hsettle⟩ := List.mem_map.mp h
  cases selection with
  | field n => cases hsettle
  | nested n u => cases hsettle
  | spread u => exact TypeSystem.spread_notMem_picks hmem

/-! ## Settled spreads -/

/-- What the suffix of a spread says of its target's tiers once it is settled. -/
def IsSettled (config : TierConfig) (s : Spread) : Prop :=
  match s.suffix with
  | .noNesting => True
  | .deepNesting => False
  | .full => config.get? s.type = none
  | .tier label => label = publicListing ∨ label = adminListing

theorem relationLabel_eq_or (tier : Option String) :
    relationLabel tier = publicListing ∨
      relationLabel tier = adminListing := by
  cases tier with
  | none => exact Or.inl rfl
  | some label =>
      simp only [relationLabel]
      cases Text.contains adminTier.toList label.toList with
      | false => exact Or.inl rfl
      | true => exact Or.inr rfl

theorem baseLabel?_eq_or {label base : String} (h : baseLabel? label = some base) :
    base = publicListing ∨ base = adminListing := by
  unfold baseLabel? at h
  split at h
  · exact Or.inr (Option.some.inj h).symm
  · split at h
    · exact Or.inl (Option.some.inj h).symm
    · cases h

theorem buildsOnListing_listing_iff {label : String}
    (h : label = publicListing ∨ label = adminListing) :
    buildsOnListing label ↔ label = adminListing := by
  rcases h with rfl | rfl <;> decide

theorem isSettled_deepSuffix (tier : Option String) (target : String) :
    IsSettled config ⟨target, config.deepSuffix tier target⟩ := by
  unfold IsSettled deepSuffix
  by_cases hcontains : config.contains target
  · simp only [if_pos hcontains]
    exact relationLabel_eq_or tier
  · simp only [if_neg hcontains]
    simpa [Table.contains] using hcontains

theorem suffix_mem_of_isSettled {s : Spread} (h : IsSettled config s) :
    s.suffix ∈ [.noNesting, .full, .tier publicListing,
      .tier adminListing] := by
  obtain ⟨target, suffix⟩ := s
  cases suffix with
  | noNesting => simp
  | deepNesting => exact absurd h id
  | full => simp
  | tier label =>
      obtain rfl | rfl : label = publicListing ∨
        label = adminListing := h
      · simp
      · simp

end GraphqlFragments.TierConfig
