import GraphqlFragments.Proofs.Outcome
/-!
# The modes select alike

All modes go through the fields of a type in the same order and fail at the same field. They differ
in the relations only: the default mode spreads their targets without relations, the deep one
spreads them deeply, and the third one leaves them out. So if a type has no relations, its three
fragments differ in their names only, or there are none of them.
-/

namespace GraphqlFragments

namespace Selection

def isNested : Selection → Bool
  | nested _ _ => true
  | _ => false

/-- A selection of the default mode and the one that the deep mode has in its place. -/
inductive DeepensTo : Selection → Selection → Prop
  | field (name : String) : DeepensTo (field name) (field name)
  | nested (name target : String) :
      DeepensTo (nested name ⟨target, .noNesting⟩) (nested name ⟨target, .deepNesting⟩)

end Selection

namespace TypeSystem

variable {ts : TypeSystem}

/-! ## One field -/

/-- What each mode selects for a field. -/
theorem pick?_cases (ts : TypeSystem) (f : Field) :
    (∀ mode, ts.pick? mode f = some (.field f.name)) ∨
    (ts.pick? .default f = some (.nested f.name ⟨f.type.innermost, .noNesting⟩) ∧
      ts.pick? .noRelations f = none ∧
      ts.pick? .deep f = some (.nested f.name ⟨f.type.innermost, .deepNesting⟩)) ∨
    ∀ mode, ts.pick? mode f = none := by
  cases hplain : ts.isPlain f with
  | true => exact Or.inl fun mode => by simp [pick?, hplain]
  | false =>
      cases hrelation : ts.isRelation f with
      | true =>
          refine Or.inr (Or.inl ⟨?_, ?_, ?_⟩) <;>
            simp [pick?, hplain, hrelation, Mode.relationSuffix?]
      | false => exact Or.inr (Or.inr fun mode => by simp [pick?, hplain, hrelation])

/-! ## All fields -/

/-- Without relations are the selections of the default mode that are not nested. -/
theorem picks_noRelations (ts : TypeSystem) (fields : List Field) :
    ts.picks .noRelations fields =
      (ts.picks .default fields).filter fun s => !s.isNested := by
  induction fields with
  | nil => rfl
  | cons f fields ih =>
      unfold picks at ih ⊢
      obtain hplain | ⟨hdefault, hnoRelations, -⟩ | hnone := ts.pick?_cases f
      · simp [hplain, ih, Selection.isNested]
      · simp [hdefault, hnoRelations, ih, Selection.isNested]
      · simp [hnone, ih]

/-- The deep mode selects the same fields as the default one. -/
theorem picks_deep (ts : TypeSystem) (fields : List Field) :
    List.Forall₂ Selection.DeepensTo (ts.picks .default fields) (ts.picks .deep fields) := by
  induction fields with
  | nil => exact .nil
  | cons f fields ih =>
      unfold picks at ih ⊢
      obtain hplain | ⟨hdefault, -, hdeep⟩ | hnone := ts.pick?_cases f
      · simpa [hplain] using ⟨.field f.name, ih⟩
      · simpa [hdefault, hdeep] using ⟨.nested f.name f.type.innermost, ih⟩
      · simpa [hnone] using ih

/-! ## Types without relations -/

/-- Without relations it does not matter in which mode fields are selected. -/
theorem picks_of_no_relation {fields : List Field} (h : ∀ f ∈ fields, ts.isRelation f = false)
    (mode mode' : Mode) : ts.picks mode fields = ts.picks mode' fields := by
  refine List.filterMap_congr fun f hf => ?_
  simp [pick?, h f hf]

/-- There is nothing to settle then. -/
theorem map_settle_of_no_relation {fields : List Field}
    (h : ∀ f ∈ fields, ts.isRelation f = false) (config : TierConfig) (tier : Option String)
    (mode : Mode) : (ts.picks mode fields).map (config.settle tier) = ts.picks mode fields := by
  have hstays : ∀ s ∈ ts.picks mode fields, config.settle tier s = s := by
    intro s hs
    cases s with
    | field name => rfl
    | spread s => rfl
    | nested name s =>
        obtain ⟨f, hf, hrelation, -⟩ := nested_mem_picks_iff.mp hs
        rw [h f hf] at hrelation
        cases hrelation
  rw [List.map_congr_left hstays, List.map_id']

/-- The fragments of such a type if it has no tiers: three with the same selections, or none. -/
theorem emittedOf_of_no_relation {object : ObjectType} {config : TierConfig}
    (h : ∀ f ∈ object.fields, ts.isRelation f = false) (htiers : config.get? object.name = none) :
    ts.emittedOf config object =
      if (ts.picks .default object.fields).isEmpty then .empty
      else
        ⟨[⟨object.name, object.name, ts.picks .default object.fields⟩],
          [⟨object.name ++ "NoNesting", object.name, ts.picks .default object.fields⟩],
          [⟨object.name ++ "Full", object.name, ts.picks .default object.fields⟩]⟩ := by
  -- Two of the fragments wait for a printable field, the one without relations for a plain one.
  have hprintable : object.fields.any ts.isPrintable =
      !(ts.picks .default object.fields).isEmpty := by
    rw [ts.isEmpty_picks_of_isSome .default _ rfl, Bool.not_not]
  have hplain : object.fields.any ts.isPlain = !(ts.picks .default object.fields).isEmpty := by
    rw [picks_of_no_relation h .default .noRelations, ts.isEmpty_picks_of_none .noRelations _ rfl,
      Bool.not_not]
  rw [emittedOf, TierConfig.deepFragments_picks, htiers, hprintable, hplain]
  simp only [TierConfig.fullFragment, map_settle_of_no_relation h,
    picks_of_no_relation h .noRelations .default, picks_of_no_relation h .deep .default]
  cases (ts.picks .default object.fields).isEmpty <;> rfl

end TypeSystem

/-- What follows the name in the text of a fragment. -/
def Fragment.afterName (type : String) (selections : List Selection) : String :=
  " on " ++ type ++ " \x7b\n" ++
    String.intercalate "\n" (selections.flatMap Selection.lines ++ ["\x7d"])

theorem Fragment.body_eq (f : Fragment) :
    f.body = "fragment " ++ f.name ++ Fragment.afterName f.type f.selections := by
  have hbrace (t : String) : " \x7b\n" ++ t = " \x7b" ++ ("\n" ++ t) := by
    rw [← String.append_assoc]
    rfl
  rw [body, lines, List.cons_append, String.intercalate_cons_of_ne_nil (by simp), header,
    afterName]
  simp only [String.append_assoc, hbrace]

namespace TypeSystem

variable {ts : TypeSystem}

/-- All modes fail at the same field of a type, or each of them selects fields of it. In the second
case the selections without relations are those of the default mode that are not nested, and the
deep selections have the same form, field and target place by place. If no field leads to an object
type and the type has no tiers, it has no fragments or three of them, whose texts are the same but
for their names. -/
theorem selections_agree (ts : TypeSystem) (object : ObjectType) :
    (∃ fault, (∀ mode, ts.selections mode object = .error fault) ∧
      ∀ config, (ts.fragmentsOf config object).result = .error (.unknownFieldType fault)) ∨
    ∃ default noRelations deep, ts.selections .default object = .ok default ∧
      ts.selections .noRelations object = .ok noRelations ∧
      ts.selections .deep object = .ok deep ∧
      noRelations = default.filter (fun s => !s.isNested) ∧
      List.Forall₂ Selection.DeepensTo default deep ∧
      ((∀ f ∈ object.fields, ts.kindOf f.type.innermost ≠ some .object) →
        ∀ config : TierConfig, config.get? object.name = none →
          default = [] ∧ (ts.fragmentsOf config object).result = .ok .empty ∨
          default ≠ [] ∧ ∃ first second third rest,
            (ts.fragmentsOf config object).result = .ok ⟨[first], [second], [third]⟩ ∧
            first.name = object.name ∧ second.name = object.name ++ "NoNesting" ∧
            third.name = object.name ++ "Full" ∧
            ∀ f ∈ [first, second, third], f.body = "fragment " ++ f.name ++ rest) := by
  simp only [selections_eq, result_fragmentsOf]
  cases ts.unknownFieldOf? object with
  | some fault => exact Or.inl ⟨fault, fun _ => rfl, fun _ => rfl⟩
  | none =>
      refine Or.inr ⟨_, _, _, rfl, rfl, rfl, ts.picks_noRelations _, ts.picks_deep _,
        fun hkinds config htiers => ?_⟩
      have hrelation : ∀ f ∈ object.fields, ts.isRelation f = false := fun f hf => by
        simpa [isRelation] using hkinds f hf
      rw [emittedOf_of_no_relation hrelation htiers]
      by_cases hempty : ts.picks .default object.fields = []
      · rw [hempty]
        exact Or.inl ⟨rfl, rfl⟩
      · rw [if_neg (by simpa using hempty)]
        refine Or.inr ⟨hempty, _, _, _,
          Fragment.afterName object.name (ts.picks .default object.fields), rfl, rfl, rfl, rfl, ?_⟩
        simp [Fragment.body_eq]

/-- A type of plain fields and one that leads to an interface. -/
def gauge : ObjectType :=
  ⟨"Gauge", [⟨"unit", .nonNull (.named "Unit")⟩, ⟨"maker", .named "Maker"⟩,
    ⟨"marks", .list (.list (.named "Float"))⟩, ⟨"unit", .named "Unit"⟩]⟩

def gaugeTypes : TypeSystem where
  kinds := builtinKinds ++ [("Gauge", .object), ("Unit", .enum), ("Maker", .interface)]
  objects := [(gauge.name, gauge.fields)]
  roots := .conventional

theorem selections_agree_gauge :
    (∀ f ∈ gauge.fields, gaugeTypes.kindOf f.type.innermost ≠ some .object) ∧
      ∀ label, ∃ first second third rest,
        (gaugeTypes.fragmentsOf [("Maker", [(label, [])])] gauge).result =
          .ok ⟨[first], [second], [third]⟩ ∧
        first.name = "Gauge" ∧ second.name = "GaugeNoNesting" ∧ third.name = "GaugeFull" ∧
        ∀ f ∈ [first, second, third], f.body = "fragment " ++ f.name ++ rest := by
  have hkinds : ∀ f ∈ gauge.fields, gaugeTypes.kindOf f.type.innermost ≠ some .object := by decide
  refine ⟨hkinds, fun label => ?_⟩
  have hdefault : gaugeTypes.selections .default gauge =
      .ok [.field "unit", .field "marks", .field "unit"] := rfl
  obtain ⟨fault, hfault, -⟩ | ⟨default, _, _, hselections, -, -, -, -, hfragments⟩ :=
    gaugeTypes.selections_agree gauge
  · cases hdefault.symm.trans (hfault .default)
  · obtain ⟨hempty, -⟩ | ⟨-, hthree⟩ := hfragments hkinds [("Maker", [(label, [])])] rfl
    · rw [hdefault, hempty] at hselections
      cases hselections
    · exact hthree

end TypeSystem

end GraphqlFragments
