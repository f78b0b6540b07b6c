import GraphqlFragments.Generation
import GraphqlFragments.Proofs.Expansion
import Mathlib.Data.List.Nodup
/-!
# The outcome of a run

A run fails with the fault of its schema text, else with the first field of an
unknown type, else with the first repeated fragment name, and otherwise succeeds.
`result_generate` says so over the names that a schema and its tiers call for;
`generate_eq_ok_iff` is the form in which later modules use a success.
-/

namespace GraphqlFragments

/-! ## Repeated names -/

/-- The first name of a list that has come before. The names seen so far are the
ones in front of the list, last one first. -/
theorem firstRepeated?_spec (seen names : List String) (h : seen.Nodup) :
    match firstRepeated? seen names with
    | none => (seen.reverse ++ names).Nodup
    | some name => ∃ before after, seen.reverse ++ names = before ++ name :: after ∧
        before.Nodup ∧ name ∈ before := by
  induction names generalizing seen with
  | nil =>
      rw [firstRepeated?, List.append_nil]
      exact List.nodup_reverse.mpr h
  | cons name rest ih =>
      rw [firstRepeated?]
      by_cases hseen : name ∈ seen
      · rw [if_pos (List.contains_iff_mem.mpr hseen)]
        exact ⟨seen.reverse, rest, rfl, List.nodup_reverse.mpr h,
          List.mem_reverse.mpr hseen⟩
      · rw [if_neg fun hc => hseen (List.contains_iff_mem.mp hc)]
        have hnext := ih (name :: seen) (List.nodup_cons.mpr ⟨hseen, h⟩)
        rwa [List.reverse_cons, List.append_assoc, List.singleton_append] at hnext

theorem firstRepeated?_eq_none_iff {names : List String} :
    firstRepeated? [] names = none ↔ names.Nodup := by
  have hspec := firstRepeated?_spec [] names List.nodup_nil
  constructor
  · intro h
    rw [h] at hspec
    exact hspec
  · intro hnodup
    cases h : firstRepeated? [] names with
    | none => rfl
    | some name =>
        rw [h] at hspec
        obtain ⟨before, after, heq, -, hmem⟩ := hspec
        rw [List.reverse_nil, List.nil_append] at heq
        rw [heq, List.nodup_append] at hnodup
        exact absurd rfl (hnodup.2.2 name hmem name List.mem_cons_self)

namespace TypeSystem

/-! ## The fragments that a schema calls for -/

/-- The fragments of one object type whose fields all lead somewhere. -/
def emittedOf (ts : TypeSystem) (config : TierConfig) (object : ObjectType) :
    FragmentSet where
  default :=
    if object.fields.any ts.isPrintable then
      [⟨object.name, object.name, ts.picks .default object.fields⟩]
    else []
  noRelations :=
    if object.fields.any ts.isPlain then
      [⟨object.name ++ "NoNesting", object.name, ts.picks .noRelations object.fields⟩]
    else []
  deep := config.deepFragments object.name (ts.picks .deep object.fields)

/-- The fragments of all object types, whether or not their names differ. -/
def emitted (ts : TypeSystem) (config : TierConfig) : FragmentSet :=
  .join (ts.fragmentTypes.map (ts.emittedOf config))

/-- The names of the fragments that a schema calls for: those of the default
fragments, then those without relations, then the deep ones. -/
def fragmentNames (ts : TypeSystem) (config : TierConfig) : List String :=
  (ts.fragmentTypes.filter fun object => object.fields.any ts.isPrintable).map (·.name) ++
    (ts.fragmentTypes.filter fun object => object.fields.any ts.isPlain).map
      (·.name ++ "NoNesting") ++
    ts.fragmentTypes.flatMap fun object =>
      (config.deepLabels ts object).map (object.name ++ ·)

variable (ts : TypeSystem) (config : TierConfig) (object : ObjectType)

theorem fragment?_eq (mode : Mode) (suffix : String) (h : mode.fragmentSuffix? = some suffix) :
    ts.fragment? mode object = unlessFault (ts.unknownFieldOf? object)
      (if (ts.picks mode object.fields).isEmpty then none
        else some ⟨object.name ++ suffix, object.name, ts.picks mode object.fields⟩) := by
  unfold fragment?
  rw [h, selections_eq]
  exact map_unlessFault _ _ _

/-- The fragments of a type, unless one of its fields leads nowhere. -/
theorem result_fragmentsOf :
    (ts.fragmentsOf config object).result =
      unlessFault ((ts.unknownFieldOf? object).map .unknownFieldType)
        (ts.emittedOf config object) := by
  unfold fragmentsOf
  rw [Logged.result_bind, Logged.result_ofExcept, ts.fragment?_eq object .default "" rfl]
  cases h : ts.unknownFieldOf? object with
  | some fault => rfl
  | none =>
      rw [ts.fragment?_eq object .noRelations "NoNesting" rfl, selections_eq, h,
        isEmpty_picks_of_isSome ts .default _ rfl, isEmpty_picks_of_none ts .noRelations _ rfl,
        String.append_empty]
      change Except.ok (FragmentSet.mk _ _ _) = Except.ok (ts.emittedOf config object)
      unfold emittedOf
      cases object.fields.any ts.isPrintable <;> cases object.fields.any ts.isPlain <;> rfl

/-- A run over a type system without regard to what it reports. -/
theorem result_fragments :
    (ts.fragments config).result =
      match ts.firstUnknownField? with
      | some field => .error (.unknownFieldType field)
      | none =>
          match firstRepeated? [] (ts.emitted config).names with
          | some name => .error (.duplicateFragment name)
          | none => .ok (ts.emitted config) := by
  have hmap : (ts.fragmentTypes.mapM (ts.fragmentsOf config)).result =
      unlessFault (ts.firstUnknownField?.map .unknownFieldType)
        (ts.fragmentTypes.map (ts.emittedOf config)) := by
    rw [Logged.result_mapM, funext (ts.result_fragmentsOf config), mapM_unlessFault]
    rw [firstUnknownField?, List.map_findSome?]
    rfl
  unfold fragments
  rw [Logged.result_bind]
  change ((ts.fragmentTypes.mapM (ts.fragmentsOf config)) >>= _).result = _
  rw [Logged.result_bind, hmap]
  cases ts.firstUnknownField? with
  | some field => rfl
  | none =>
      change (match firstRepeated? [] (ts.emitted config).names with
        | some name => Logged.fail (.duplicateFragment name)
        | none => pure (ts.emitted config) : Logged FragmentSet).result = _
      cases firstRepeated? [] (ts.emitted config).names <;> rfl

private theorem flatMap_ite_singleton {α β : Type} (p : α → Bool) (g : α → β)
    (items : List α) :
    (items.flatMap fun a => if p a then [g a] else []) = (items.filter p).map g := by
  induction items with
  | nil => rfl
  | cons a rest ih =>
      rw [List.flatMap_cons, List.filter_cons, ih]
      cases p a <;> rfl

theorem default_emitted :
    (ts.emitted config).default =
      (ts.fragmentTypes.filter fun object => object.fields.any ts.isPrintable).map
        fun object => ⟨object.name, object.name, ts.picks .default object.fields⟩ := by
  rw [← flatMap_ite_singleton]
  exact List.flatMap_map _ _ _

theorem noRelations_emitted :
    (ts.emitted config).noRelations =
      (ts.fragmentTypes.filter fun object => object.fields.any ts.isPlain).map fun object =>
        ⟨object.name ++ "NoNesting", object.name, ts.picks .noRelations object.fields⟩ := by
  rw [← flatMap_ite_singleton]
  exact List.flatMap_map _ _ _

theorem deep_emitted :
    (ts.emitted config).deep = ts.fragmentTypes.flatMap fun object =>
      config.deepFragments object.name (ts.picks .deep object.fields) :=
  List.flatMap_map _ _ _

theorem names_emitted : (ts.emitted config).names = ts.fragmentNames config := by
  have hdeep : (ts.emitted config).deep.map Fragment.name =
      ts.fragmentTypes.flatMap fun object =>
        (config.deepLabels ts object).map (object.name ++ ·) := by
    rw [deep_emitted, List.map_flatMap]
    exact congrArg (List.flatMap · ts.fragmentTypes)
      (funext TierConfig.map_name_deepFragments)
  rw [FragmentSet.names, FragmentSet.all, List.map_append, List.map_append,
    default_emitted, noRelations_emitted, hdeep, List.map_map, List.map_map]
  rfl

/-- A run over a type system succeeds exactly if every field of a type with
fragments leads somewhere and all names differ. -/
theorem fragments_eq_ok_iff {ts : TypeSystem} {config : TierConfig} {set : FragmentSet} :
    (ts.fragments config).result = .ok set ↔
      ts.firstUnknownField? = none ∧ set.names.Nodup ∧ set = ts.emitted config := by
  rw [ts.result_fragments]
  cases hunknown : ts.firstUnknownField? with
  | some field => exact ⟨nofun, nofun⟩
  | none =>
      cases hrepeated : firstRepeated? [] (ts.emitted config).names with
      | some name =>
          refine ⟨nofun, ?_⟩
          rintro ⟨-, hnodup, rfl⟩
          rw [firstRepeated?_eq_none_iff.mpr hnodup] at hrepeated
          cases hrepeated
      | none =>
          have hnodup := firstRepeated?_eq_none_iff.mp hrepeated
          constructor
          · intro h
            cases h
            exact ⟨rfl, hnodup, rfl⟩
          · rintro ⟨-, -, rfl⟩
            rfl

end TypeSystem

/-! ## Outcomes -/

variable {schema : String} {tiers : Option TierConfig} {set : FragmentSet}

theorem result_generate_of_error {failure : Failure}
    (h : TypeSystem.ofText schema = .error failure) :
    (generate schema tiers).result = .error failure := by
  unfold generate
  rw [Logged.result_bind, Logged.result_ofExcept, h]
  rfl

theorem result_generate_of_ok {ts : TypeSystem} (h : TypeSystem.ofText schema = .ok ts) :
    (generate schema tiers).result = (ts.fragments (tiers.getD .empty)).result := by
  unfold generate
  rw [Logged.result_bind, Logged.result_ofExcept, h]
  rfl

/-- A run succeeds exactly if its schema is sound, every field of a type with
fragments leads somewhere and all names differ. -/
theorem generate_eq_ok_iff :
    (generate schema tiers).result = .ok set ↔
      ∃ ts, TypeSystem.ofText schema = .ok ts ∧ ts.firstUnknownField? = none ∧
        set.names.Nodup ∧ set = ts.emitted (tiers.getD .empty) := by
  constructor
  · intro h
    cases hts : TypeSystem.ofText schema with
    | error failure =>
        rw [result_generate_of_error hts] at h
        cases h
    | ok ts =>
        rw [result_generate_of_ok hts] at h
        exact ⟨ts, rfl, TypeSystem.fragments_eq_ok_iff.mp h⟩
  · rintro ⟨ts, hts, hset⟩
    rw [result_generate_of_ok hts]
    exact TypeSystem.fragments_eq_ok_iff.mpr hset

theorem eq_emitted_of_generate {ts : TypeSystem}
    (h : (generate schema tiers).result = .ok set) (hts : TypeSystem.ofText schema = .ok ts) :
    set = ts.emitted (tiers.getD .empty) ∧ set.names.Nodup := by
  obtain ⟨ts', hts', -, hnodup, heq⟩ := generate_eq_ok_iff.mp h
  rw [hts] at hts'
  cases hts'
  exact ⟨heq, hnodup⟩

/-- The outcome of a run, for every schema text and all tiers. The first fault
wins, in this order: the text, the fields that lead nowhere, the fragment names. -/
theorem result_generate (schema : String) (tiers : Option TierConfig) :
    match TypeSystem.ofText schema with
    | .error failure => (generate schema tiers).result = .error failure
    | .ok ts =>
        match ts.firstUnknownField? with
        | some field => (generate schema tiers).result = .error (.unknownFieldType field)
        | none =>
            ((ts.fragmentNames (tiers.getD .empty)).Nodup →
              ∃ set, (generate schema tiers).result = .ok set ∧ set.names.Nodup ∧
                set.names = ts.fragmentNames (tiers.getD .empty)) ∧
            (¬(ts.fragmentNames (tiers.getD .empty)).Nodup →
              ∃ before name after,
                ts.fragmentNames (tiers.getD .empty) = before ++ name :: after ∧
                before.Nodup ∧ name ∈ before ∧
                (generate schema tiers).result = .error (.duplicateFragment name)) := by
  cases hts : TypeSystem.ofText schema with
  | error failure => exact result_generate_of_error hts
  | ok ts =>
      have hrun : (generate schema tiers).result =
          (ts.fragments (tiers.getD .empty)).result := result_generate_of_ok hts
      have hspec := firstRepeated?_spec [] (ts.fragmentNames (tiers.getD .empty))
        List.nodup_nil
      rw [ts.result_fragments, ts.names_emitted] at hrun
      dsimp only
      cases hunknown : ts.firstUnknownField? with
      | some field =>
          rw [hunknown] at hrun
          exact hrun
      | none =>
          rw [hunknown] at hrun
          cases hrepeated : firstRepeated? [] (ts.fragmentNames (tiers.getD .empty)) with
          | none =>
              rw [hrepeated] at hrun hspec
              have hnames := ts.names_emitted (tiers.getD .empty)
              exact ⟨fun hnodup => ⟨_, hrun, hnames ▸ hnodup, hnames⟩,
                fun hrepeats => absurd hspec hrepeats⟩
          | some name =>
              rw [hrepeated] at hrun hspec
              obtain ⟨before, after, heq, hbefore, hmem⟩ := hspec
              refine ⟨fun hnodup => ?_,
                fun _ => ⟨before, name, after, heq, hbefore, hmem, hrun⟩⟩
              rw [firstRepeated?_eq_none_iff.mpr hnodup] at hrepeated
              cases hrepeated

end GraphqlFragments
