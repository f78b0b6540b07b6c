import GraphqlFragments.Proofs.Outcome
/-!
# Editions

Every fragment of a run is an edition of some object type: the default one, the
one without relations, the full one, or that of a tier. Which editions a type
has, and which spreads each of them has, can be read off its fields and its
tiers. The main statements are `mem_emitted_iff` and the two on the selections
of an edition, `nested_mem_edition_iff` and `spread_mem_edition_iff`.
-/

namespace GraphqlFragments

/-- The ways in which a type can have a fragment. -/
inductive Edition
  | default
  | noNesting
  | full
  | tier (label : String) (allowed : List String)
  deriving DecidableEq, Repr

namespace Edition

/-- What follows the name of the type in the name of the fragment. -/
def suffix : Edition → String
  | default => ""
  | noNesting => "NoNesting"
  | full => "Full"
  | tier label _ => label

/-- Whether the fields of a name are selected. -/
def Allows : Edition → String → Prop
  | tier _ allowed, name => name ∈ allowed
  | _, _ => True

/-- The suffix with which relations to a target are spread, if they are. -/
def relationSuffix? (config : TierConfig) (target : String) : Edition → Option SpreadSuffix
  | default => some .noNesting
  | noNesting => none
  | full => some (config.deepSuffix none target)
  | tier label _ => some (config.deepSuffix (some label) target)

/-- The label of the sibling that is spread in front of the fields. -/
def base? : Edition → Option String
  | tier label _ => TierConfig.baseLabel? label
  | _ => none

end Edition

/-- The spreads of a fragment, in order. -/
def Fragment.spreads (f : Fragment) : List Spread := f.selections.filterMap Selection.spread?

theorem Fragment.mem_spreads_iff {f : Fragment} {s : Spread} :
    s ∈ f.spreads ↔ .spread s ∈ f.selections ∨ ∃ name, .nested name s ∈ f.selections := by
  unfold spreads
  rw [List.mem_filterMap]
  constructor
  · rintro ⟨selection, hmem, hspread⟩
    cases selection with
    | field name => cases hspread
    | nested name u =>
        cases hspread
        exact Or.inr ⟨name, hmem⟩
    | spread u =>
        cases hspread
        exact Or.inl hmem
  · rintro (hmem | ⟨name, hmem⟩)
    · exact ⟨.spread s, hmem, rfl⟩
    · exact ⟨.nested name s, hmem, rfl⟩

/-- Of two texts that end the same text one ends the other. -/
theorem isSuffix_or_isSuffix_of_append_eq {x y a b : String} (h : x ++ a = y ++ b) :
    a.toList <:+ b.toList ∨ b.toList <:+ a.toList := by
  have htext : y.toList ++ b.toList = x.toList ++ a.toList := by
    rw [← String.toList_append, ← String.toList_append, h]
  have hb : b.toList <:+ x.toList ++ a.toList := ⟨y.toList, htext⟩
  exact List.suffix_or_suffix_of_suffix (List.suffix_append _ _) hb

namespace TypeSystem

/-- Whether an object type has an edition, its own place among the types that get
fragments aside. -/
def HasEdition (ts : TypeSystem) (config : TierConfig) (object : ObjectType) : Edition → Prop
  | .default => ∃ f ∈ object.fields, ts.isPrintable f
  | .noNesting => ∃ f ∈ object.fields, ts.isPlain f
  | .full => (∃ f ∈ object.fields, ts.isPrintable f) ∧ config.get? object.name = none
  | .tier label allowed =>
      (∃ f ∈ object.fields, ts.isPrintable f) ∧
        (∃ tiers, config.get? object.name = some tiers ∧ (label, allowed) ∈ tiers) ∧
        (TierConfig.buildsOnListing label ∨
          ∃ f ∈ object.fields, ts.isPrintable f ∧ f.name ∈ allowed)

/-- The fragment of an edition. -/
def edition (ts : TypeSystem) (config : TierConfig) (object : ObjectType) :
    Edition → Fragment
  | .default => ⟨object.name, object.name, ts.picks .default object.fields⟩
  | .noNesting => ⟨object.name ++ "NoNesting", object.name, ts.picks .noRelations object.fields⟩
  | .full => config.fullFragment object.name (ts.picks .deep object.fields)
  | .tier label allowed =>
      config.tierFragment object.name (ts.picks .deep object.fields) (label, allowed)

variable {ts : TypeSystem} {config : TierConfig} {object : ObjectType} {g : Fragment}

theorem name_edition (e : Edition) :
    (ts.edition config object e).name = object.name ++ e.suffix := by
  cases e with
  | default => exact String.append_empty.symm
  | noNesting => rfl
  | full => rfl
  | tier label allowed => rfl

theorem type_edition (e : Edition) : (ts.edition config object e).type = object.name := by
  cases e <;> rfl

/-! ## The fragments of a run -/

theorem mem_default_iff :
    g ∈ (ts.emitted config).default ↔
      ∃ object ∈ ts.fragmentTypes, ts.HasEdition config object .default ∧
        g = ts.edition config object .default := by
  rw [default_emitted, List.mem_map]
  refine exists_congr fun object => ?_
  rw [List.mem_filter, List.any_eq_true, and_assoc, eq_comm]
  rfl

theorem mem_noRelations_iff :
    g ∈ (ts.emitted config).noRelations ↔
      ∃ object ∈ ts.fragmentTypes, ts.HasEdition config object .noNesting ∧
        g = ts.edition config object .noNesting := by
  rw [noRelations_emitted, List.mem_map]
  refine exists_congr fun object => ?_
  rw [List.mem_filter, List.any_eq_true, and_assoc, eq_comm]
  rfl

/-- A tier with a fragment is one that builds on a listing or allows something. -/
theorem keeps_iff {label : String} {allowed : List String} :
    TierConfig.keeps ts object.fields (label, allowed) ↔
      TierConfig.buildsOnListing label ∨
        ∃ f ∈ object.fields, ts.isPrintable f ∧ f.name ∈ allowed := by
  simp [TierConfig.keeps]

theorem mem_deep_iff :
    g ∈ (ts.emitted config).deep ↔
      ∃ object ∈ ts.fragmentTypes,
        (ts.HasEdition config object .full ∧ g = ts.edition config object .full) ∨
        ∃ label allowed, ts.HasEdition config object (.tier label allowed) ∧
          g = ts.edition config object (.tier label allowed) := by
  rw [deep_emitted, List.mem_flatMap]
  refine exists_congr fun object => and_congr_right fun _ => ?_
  have hprintable : object.fields.any ts.isPrintable = true ↔
      ∃ f ∈ object.fields, ts.isPrintable f := List.any_eq_true
  rw [TierConfig.deepFragments_picks]
  constructor
  · intro h
    split at h
    · next hany =>
        cases hget : config.get? object.name with
        | none =>
            rw [hget] at h
            exact Or.inl ⟨⟨hprintable.mp hany, hget⟩, List.mem_singleton.mp h⟩
        | some tiers =>
            rw [hget] at h
            obtain ⟨⟨label, allowed⟩, htier, rfl⟩ := List.mem_map.mp h
            obtain ⟨hmem, hkeeps⟩ := List.mem_filter.mp htier
            exact Or.inr ⟨label, allowed,
              ⟨hprintable.mp hany, ⟨tiers, hget, hmem⟩, keeps_iff.mp hkeeps⟩, rfl⟩
    · cases h
  · rintro (⟨⟨hany, hget⟩, rfl⟩ | ⟨label, allowed, ⟨hany, ⟨tiers, hget, hmem⟩, hkept⟩, rfl⟩)
    · rw [if_pos (hprintable.mpr hany), hget]
      exact List.mem_singleton_self _
    · rw [if_pos (hprintable.mpr hany), hget]
      exact List.mem_map_of_mem (List.mem_filter.mpr ⟨hmem, keeps_iff.mpr hkept⟩)

/-- The fragments of a run are the editions of the types that get fragments. -/
theorem mem_emitted_iff :
    g ∈ (ts.emitted config).all ↔
      ∃ object ∈ ts.fragmentTypes, ∃ e, ts.HasEdition config object e ∧
        g = ts.edition config object e := by
  rw [FragmentSet.all, List.mem_append, List.mem_append, mem_default_iff,
    mem_noRelations_iff, mem_deep_iff]
  constructor
  · rintro ((⟨object, hobject, h⟩ | ⟨object, hobject, h⟩) |
      ⟨object, hobject, h | ⟨label, allowed, h⟩⟩)
    · exact ⟨object, hobject, .default, h⟩
    · exact ⟨object, hobject, .noNesting, h⟩
    · exact ⟨object, hobject, .full, h⟩
    · exact ⟨object, hobject, .tier label allowed, h⟩
  · rintro ⟨object, hobject, e, h⟩
    cases e with
    | default => exact Or.inl (Or.inl ⟨object, hobject, h⟩)
    | noNesting => exact Or.inl (Or.inr ⟨object, hobject, h⟩)
    | full => exact Or.inr ⟨object, hobject, Or.inl h⟩
    | tier label allowed => exact Or.inr ⟨object, hobject, Or.inr ⟨label, allowed, h⟩⟩

/-! ## What an edition selects -/

/-- The nested selections of an edition are the relations it allows, each with a
spread of the innermost type of its field. -/
theorem nested_mem_edition_iff {e : Edition} {name : String} {s : Spread} :
    .nested name s ∈ (ts.edition config object e).selections ↔
      ∃ f ∈ object.fields, ts.isRelation f ∧ e.Allows f.name ∧ f.name = name ∧
        f.type.innermost = s.type ∧ e.relationSuffix? config s.type = some s.suffix := by
  cases e with
  | default =>
      rw [edition, nested_mem_picks_iff]
      simp only [Edition.Allows, true_and]
      rfl
  | noNesting =>
      rw [edition, nested_mem_picks_iff]
      simp only [Edition.Allows, true_and]
      rfl
  | full =>
      rw [edition, TierConfig.fullFragment, TierConfig.nested_mem_settled_iff]
      simp only [Edition.Allows, Edition.relationSuffix?, true_and, Option.some.injEq]
  | tier label allowed =>
      have hbase : .nested name s ∉
          ((TierConfig.baseLabel? label).map fun base =>
            Selection.spread ⟨object.name, .tier base⟩).toList := by
        cases TierConfig.baseLabel? label <;> simp
      rw [edition, TierConfig.selections_tierFragment, List.mem_append,
        or_iff_right hbase, TierConfig.nested_mem_settled_iff]
      refine exists_congr fun f => ?_
      rw [List.mem_filter, List.contains_iff_mem, and_assoc]
      refine and_congr_right fun _ => ?_
      simp only [Edition.Allows, Edition.relationSuffix?, Option.some.injEq]
      exact and_left_comm

/-- The bare spreads of an edition are that of the sibling it builds on. -/
theorem spread_mem_edition_iff {e : Edition} {s : Spread} :
    .spread s ∈ (ts.edition config object e).selections ↔
      ∃ base, e.base? = some base ∧ s = ⟨object.name, .tier base⟩ := by
  cases e with
  | default => simp [edition, spread_notMem_picks, Edition.base?]
  | noNesting => simp [edition, spread_notMem_picks, Edition.base?]
  | full =>
      have h : .spread s ∉ (ts.edition config object .full).selections :=
        TierConfig.spread_notMem_settled
      simp [h, Edition.base?]
  | tier label allowed =>
      have hsettled : .spread s ∉
          (ts.picks .deep (object.fields.filter fun f => allowed.contains f.name)).map
            (config.settle (some label)) := TierConfig.spread_notMem_settled
      rw [edition, TierConfig.selections_tierFragment, List.mem_append,
        or_iff_left hsettled, Edition.base?]
      cases TierConfig.baseLabel? label <;> simp

/-! ## The spreads of a run -/

/-- The spreads of an edition: one for each relation that it allows and one of the
sibling that it builds on. -/
def Spreads (ts : TypeSystem) (config : TierConfig) (object : ObjectType) (e : Edition)
    (s : Spread) : Prop :=
  (∃ f ∈ object.fields, ts.isRelation f ∧ e.Allows f.name ∧ f.type.innermost = s.type ∧
      e.relationSuffix? config s.type = some s.suffix) ∨
    ∃ base, e.base? = some base ∧ s = ⟨object.name, .tier base⟩

variable {e : Edition} {s : Spread}

theorem mem_spreads_edition_iff :
    s ∈ (ts.edition config object e).spreads ↔ ts.Spreads config object e s := by
  rw [Fragment.mem_spreads_iff, spread_mem_edition_iff, or_comm]
  refine or_congr_left ?_
  simp only [nested_mem_edition_iff]
  constructor
  · rintro ⟨name, f, hf, hrelation, hallows, -, htarget, hsuffix⟩
    exact ⟨f, hf, hrelation, hallows, htarget, hsuffix⟩
  · rintro ⟨f, hf, hrelation, hallows, htarget, hsuffix⟩
    exact ⟨f.name, f, hf, hrelation, hallows, rfl, htarget, hsuffix⟩

/-- What holds of all spreads of a run holds of all that the fields and the tiers
call for, and the other way round. -/
theorem forall_spreads_iff {P : Spread → Prop} :
    (∀ f ∈ (ts.emitted config).all, ∀ s ∈ f.spreads, P s) ↔
      ∀ object ∈ ts.fragmentTypes, ∀ e, ts.HasEdition config object e →
        ∀ s, ts.Spreads config object e s → P s := by
  constructor
  · intro h object hobject e hhas s hs
    exact h _ (mem_emitted_iff.mpr ⟨object, hobject, e, hhas, rfl⟩) s
      (mem_spreads_edition_iff.mpr hs)
  · intro h f hf s hs
    obtain ⟨object, hobject, e, hhas, rfl⟩ := mem_emitted_iff.mp hf
    exact h object hobject e hhas s (mem_spreads_edition_iff.mp hs)

/-- The targets of the spreads are the innermost types of their fields, and the
type of the fragment itself for a sibling. -/
theorem target_of_mem_edition :
    (∀ name s, .nested name s ∈ (ts.edition config object e).selections →
      ∃ d ∈ object.fields, d.name = name ∧ d.type.innermost = s.type) ∧
    ∀ s, .spread s ∈ (ts.edition config object e).selections → s.type = object.name := by
  constructor
  · intro name s hs
    obtain ⟨d, hd, -, -, hname, htarget, -⟩ := nested_mem_edition_iff.mp hs
    exact ⟨d, hd, hname, htarget⟩
  · intro s hs
    obtain ⟨base, -, rfl⟩ := spread_mem_edition_iff.mp hs
    rfl

theorem isSettled_of_spreads (h : ts.Spreads config object e s) : config.IsSettled s := by
  obtain ⟨f, -, -, -, -, hsuffix⟩ | ⟨base, hbase, rfl⟩ := h
  · obtain ⟨target, suffix⟩ := s
    cases e with
    | default =>
        cases hsuffix
        exact trivial
    | noNesting => cases hsuffix
    | full =>
        obtain rfl : config.deepSuffix none target = suffix := Option.some.inj hsuffix
        exact TierConfig.isSettled_deepSuffix none target
    | tier label allowed =>
        obtain rfl : config.deepSuffix (some label) target = suffix := Option.some.inj hsuffix
        exact TierConfig.isSettled_deepSuffix (some label) target
  · cases e with
    | tier label allowed => exact TierConfig.baseLabel?_eq_or hbase
    | default => cases hbase
    | noNesting => cases hbase
    | full => cases hbase

theorem isSettled_of_mem_spreads :
    ∀ f ∈ (ts.emitted config).all, ∀ s ∈ f.spreads, config.IsSettled s :=
  forall_spreads_iff.mpr fun _ _ _ _ _ hs => isSettled_of_spreads hs

/-! ## The names of a run -/

/-- Some type called `type` has a fragment called `name`. -/
def HasFragment (ts : TypeSystem) (config : TierConfig) (type name : String) : Prop :=
  ∃ object ∈ ts.fragmentTypes, object.name = type ∧
    ∃ e, ts.HasEdition config object e ∧ type ++ e.suffix = name

/-- The fragments of a run that bear a name, by their types. -/
theorem exists_named_iff {type name : String} :
    (∃ g ∈ (ts.emitted config).all, g.type = type ∧ g.name = name) ↔
      ts.HasFragment config type name := by
  constructor
  · rintro ⟨g, hg, rfl, rfl⟩
    obtain ⟨object, hobject, e, hhas, rfl⟩ := mem_emitted_iff.mp hg
    refine ⟨object, hobject, (type_edition e).symm, e, hhas, ?_⟩
    rw [name_edition, type_edition]
  · rintro ⟨object, hobject, rfl, e, hhas, rfl⟩
    exact ⟨ts.edition config object e, mem_emitted_iff.mpr ⟨object, hobject, e, hhas, rfl⟩,
      type_edition e, name_edition e⟩

theorem mem_names_emitted_iff {name : String} :
    name ∈ (ts.emitted config).names ↔ ∃ type, ts.HasFragment config type name := by
  simp only [← exists_named_iff]
  unfold FragmentSet.names
  rw [List.mem_map]
  constructor
  · rintro ⟨g, hg, hname⟩
    exact ⟨g.type, g, hg, rfl, hname⟩
  · rintro ⟨type, g, hg, -, hname⟩
    exact ⟨g, hg, hname⟩

end TypeSystem

end GraphqlFragments
