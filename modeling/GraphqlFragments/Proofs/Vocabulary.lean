import GraphqlFragments.Proofs.Emission
import GraphqlFragments.Proofs.Exposure
/-!
# The words of a run

What the fragments of a run are made of. They select fields of object types, at least one each,
and their names and those that they spread are names of object types with a suffix. Of the
suffixes only the labels of tiers are free.
-/

namespace GraphqlFragments

/-- The words of a header, one by one. -/
theorem Fragment.header_eq (f : Fragment) :
    f.header =
      "fragment" ++ " " ++ (f.name ++ " " ++ ("on" ++ " " ++ (f.type ++ " " ++ "\x7b"))) := by
  have hon (t : String) : " on " ++ t = " " ++ ("on " ++ t) := by
    rw [← String.append_assoc]
    rfl
  simp [header, hon, String.append_assoc]

/-- What a selection is made of has some properties: the name of its field and its spread. -/
def Selection.MadeOf (P : String → Prop) (Q : Spread → Prop) : Selection → Prop
  | field name => P name
  | nested name s => P name ∧ Q s
  | spread s => Q s

namespace TypeSystem

/-- The names of the object types, and these with the labels of their tiers. -/
def labelledNames (ts : TypeSystem) (config : TierConfig) : List String :=
  ts.objectTypes.flatMap fun object =>
    object.name :: ((config.get? object.name).getD []).keys.map (object.name ++ ·)

variable {ts : TypeSystem} {config : TierConfig} {object : ObjectType} {e : Edition}

theorem name_mem_labelledNames (h : object ∈ ts.objectTypes) :
    object.name ∈ ts.labelledNames config :=
  List.mem_flatMap.mpr ⟨object, h, List.mem_cons_self⟩

/-- The editions that tiers have no part in bear suffixes of their own, and the default one bears
none. -/
theorem name_edition_mem_labelledNames_or (hobject : object ∈ ts.objectTypes)
    (hhas : ts.HasEdition config object e) :
    (ts.edition config object e).name ∈ ts.labelledNames config ∨ e = .noNesting ∨ e = .full := by
  cases e with
  | default => exact Or.inl (name_mem_labelledNames hobject)
  | noNesting => exact Or.inr (Or.inl rfl)
  | full => exact Or.inr (Or.inr rfl)
  | tier label allowed =>
      obtain ⟨-, ⟨tiers, hget, hmem⟩, -⟩ := hhas
      have hlabel : label ∈ tiers.keys := List.mem_map_of_mem hmem
      refine Or.inl (List.mem_flatMap.mpr ⟨object, hobject, List.mem_cons_of_mem _ ?_⟩)
      rw [hget]
      exact List.mem_map_of_mem hlabel

/-! ## Fields -/

/-- The fields of an edition are fields of its type. -/
theorem exists_field_of_mem_edition {selection : Selection} {name : String}
    (h : selection ∈ (ts.edition config object e).selections)
    (hname : selection.fieldName? = some name) : ∃ d ∈ object.fields, d.name = name := by
  have hpicks {mode : Mode} {selection : Selection} (h : selection ∈ ts.picks mode object.fields)
      (hname : selection.fieldName? = some name) : ∃ d ∈ object.fields, d.name = name := by
    obtain ⟨d, hd, hpick⟩ := List.mem_filterMap.mp h
    rw [fieldName?_of_pick? hpick] at hname
    exact ⟨d, hd, Option.some.inj hname⟩
  cases e with
  | default => exact hpicks h hname
  | noNesting => exact hpicks h hname
  | full =>
      obtain ⟨pick, hpick, rfl⟩ := List.mem_map.mp h
      rw [fieldName?_settle] at hname
      exact hpicks hpick hname
  | tier label allowed =>
      obtain ⟨d, hd, -, hfield, -⟩ := exists_field_tier_iff.mp ⟨selection, h, hname⟩
      exact ⟨d, hd, hfield⟩

theorem madeOf_of_mem_edition {P : String → Prop} {Q : Spread → Prop}
    (hfields : ∀ d ∈ object.fields, P d.name)
    (hspreads : ∀ s ∈ (ts.edition config object e).spreads, Q s) :
    ∀ selection ∈ (ts.edition config object e).selections, selection.MadeOf P Q := by
  intro selection hselection
  have hfield {name : String} (hname : selection.fieldName? = some name) : P name := by
    obtain ⟨d, hd, rfl⟩ := exists_field_of_mem_edition hselection hname
    exact hfields d hd
  cases selection with
  | field name => exact hfield rfl
  | nested name s =>
      have hs := Fragment.mem_spreads_iff.mpr (.inr ⟨name, hselection⟩)
      exact ⟨hfield rfl, hspreads s hs⟩
  | spread s => exact hspreads s (Fragment.mem_spreads_iff.mpr (.inl hselection))

/-- No edition is empty. -/
theorem selections_edition_ne_nil (hhas : ts.HasEdition config object e) :
    (ts.edition config object e).selections ≠ [] := by
  have hpicks {mode : Mode} (hmode : mode.relationSuffix?.isSome)
      (h : ∃ f ∈ object.fields, ts.isPrintable f) : ts.picks mode object.fields ≠ [] := by
    rw [Ne, ← List.isEmpty_iff, isEmpty_picks_of_isSome ts mode _ hmode, List.any_eq_true.mpr h]
    exact Bool.false_ne_true
  cases e with
  | default => exact hpicks rfl hhas
  | noNesting =>
      rw [edition, Ne, ← List.isEmpty_iff, isEmpty_picks_of_none ts .noRelations _ rfl,
        List.any_eq_true.mpr hhas]
      exact Bool.false_ne_true
  | full => exact mt List.map_eq_nil_iff.mp (hpicks rfl hhas.1)
  | tier label allowed =>
      have hkeeps : TierConfig.keeps ts object.fields (label, allowed) := keeps_iff.mpr hhas.2.2
      refine mt List.map_eq_nil_iff.mp ?_
      rw [← List.isEmpty_iff, TierConfig.isEmpty_tierSelections (label, allowed), hkeeps]
      exact Bool.false_ne_true

/-- The fields of all object types have names of the grammar, those of extensions too. -/
theorem isName_of_mem_fields {schema : String} (hts : ofText schema = .ok ts)
    (hobject : object ∈ ts.objectTypes) {field : Field} (hfield : field ∈ object.fields) :
    Sdl.IsName field.name := by
  obtain ⟨document, hparse, hdocument⟩ := ofText_eq_ok_iff.mp hts
  obtain ⟨fields, hdefinition, d, hd, rfl⟩ :=
    exists_definition_of_mem_fields hdocument hobject hfield
  obtain hdefinition | hdefinition := hdefinition
  · exact (Sdl.isNamed_of_parse hparse _ hdefinition).2 d hd
  · exact (Sdl.isNamed_of_parse hparse _ hdefinition).2 d hd

/-! ## Spreads -/

/-- The suffixes of the names that fragments spread. -/
def settledSuffixes : List String :=
  ["NoNesting", "Full", TierConfig.publicListing, TierConfig.adminListing]

theorem suffix_mem_settledSuffixes {s : Spread} (h : config.IsSettled s) :
    s.suffix.text ∈ settledSuffixes := by
  have hsuffixes : ∀ suffix ∈ [.noNesting, .full, .tier TierConfig.publicListing,
      SpreadSuffix.tier TierConfig.adminListing], suffix.text ∈ settledSuffixes := by
    decide
  exact hsuffixes _ (TierConfig.suffix_mem_of_isSettled h)

/-- What an edition spreads is a fragment of an object type. -/
theorem fragmentName_of_mem_spreads (hsound : ts.IsSound) (hobject : object ∈ ts.objectTypes)
    {s : Spread} (hs : s ∈ (ts.edition config object e).spreads) :
    ∃ target ∈ ts.objectTypes, ∃ suffix ∈ settledSuffixes,
      s.fragmentName = target.name ++ suffix := by
  have hspreads : ts.Spreads config object e s := mem_spreads_edition_iff.mp hs
  have hsuffix := suffix_mem_settledSuffixes (isSettled_of_spreads hspreads)
  obtain ⟨f, -, hrelation, -, htarget, -⟩ | ⟨base, -, rfl⟩ := hspreads
  · have hkind : ts.kindOf f.type.innermost = some .object := by
      simpa [isRelation] using hrelation
    have hkeys := hsound.mem_objects_of_kind _ hkind
    rw [htarget, ← map_name_objectTypes] at hkeys
    obtain ⟨target, hmem, htype⟩ := List.mem_map.mp hkeys
    exact ⟨target, hmem, _, hsuffix, by rw [htype]; rfl⟩
  · exact ⟨object, hobject, _, hsuffix, rfl⟩

end TypeSystem

end GraphqlFragments
