import GraphqlFragments.Proofs.Faults
import GraphqlFragments.Selection
/-!
# Fields by what they lead to

A field is plain if it leads to a scalar or an enum, and a relation if it leads
to an object type. These two are what a fragment can select. The main statement
is `selections_eq`: a mode selects the fields of its kinds in the order of their
declarations, unless some field of the type leads nowhere.
-/

namespace GraphqlFragments.TypeSystem

/-- The field leads to a scalar or an enum. -/
def isPlain (ts : TypeSystem) (f : Field) : Bool :=
  ts.kindOf f.type.innermost = some .scalar || ts.kindOf f.type.innermost = some .enum

/-- The field leads to an object type. -/
def isRelation (ts : TypeSystem) (f : Field) : Bool :=
  ts.kindOf f.type.innermost = some .object

def isPrintable (ts : TypeSystem) (f : Field) : Bool := ts.isPlain f || ts.isRelation f

/-- The fault of a field whose innermost type nothing defines. -/
def unknownField? (ts : TypeSystem) (owner : String) (f : Field) :
    Option UnknownFieldType :=
  if ts.kindOf f.type.innermost = none then some ⟨owner, f.name, f.type.innermost⟩
  else none

/-- The first fault of an object type in the order of its fields. -/
def unknownFieldOf? (ts : TypeSystem) (object : ObjectType) : Option UnknownFieldType :=
  object.fields.findSome? (ts.unknownField? object.name)

/-- The first fault of the types that get fragments. -/
def firstUnknownField? (ts : TypeSystem) : Option UnknownFieldType :=
  ts.fragmentTypes.findSome? ts.unknownFieldOf?

/-- What a mode selects for a field that leads somewhere. -/
def pick? (ts : TypeSystem) (mode : Mode) (f : Field) : Option Selection :=
  if ts.isPlain f then some (.field f.name)
  else if ts.isRelation f then
    mode.relationSuffix?.map fun suffix => .nested f.name ⟨f.type.innermost, suffix⟩
  else none

def picks (ts : TypeSystem) (mode : Mode) (fields : List Field) : List Selection :=
  fields.filterMap (ts.pick? mode)

theorem selection?_eq (ts : TypeSystem) (mode : Mode) (owner : String) (f : Field) :
    ts.selection? mode owner f =
      unlessFault (ts.unknownField? owner f) (ts.pick? mode f) := by
  unfold selection? classify unknownField? pick? isPlain isRelation
  cases h : ts.kindOf f.type.innermost with
  | none =>
      simp only [h]
      rfl
  | some kind => cases kind <;> simp only [h] <;> rfl

/-- A mode selects the fields of an object type unless one of them is of an
unknown type. -/
theorem selections_eq (ts : TypeSystem) (mode : Mode) (object : ObjectType) :
    ts.selections mode object =
      unlessFault (ts.unknownFieldOf? object) (ts.picks mode object.fields) := by
  have hsteps : ts.selection? mode object.name = fun f =>
      unlessFault (ts.unknownField? object.name f) (ts.pick? mode f) := by
    funext f
    exact ts.selection?_eq mode object.name f
  unfold selections
  rw [bind_pure_comp, hsteps, mapM_unlessFault, map_unlessFault, List.filterMap_map]
  rfl

/-! ## What is selected -/

variable {ts : TypeSystem} {mode : Mode} {f : Field}

theorem isPlain_eq_false_of_isRelation (h : ts.isRelation f) : ts.isPlain f = false := by
  have hkind : ts.kindOf f.type.innermost = some .object := by simpa [isRelation] using h
  simp [isPlain, hkind]

/-- Every selection of a mode bears the name of its field. -/
theorem fieldName?_of_pick? {s : Selection} (h : ts.pick? mode f = some s) :
    s.fieldName? = some f.name := by
  unfold pick? at h
  split at h
  · cases h
    rfl
  · split at h
    · obtain ⟨suffix, -, rfl⟩ := Option.map_eq_some_iff.mp h
      rfl
    · cases h

/-- A mode that spreads relations selects whatever is printable. -/
theorem pick?_eq_none_iff_of_isSome (h : mode.relationSuffix?.isSome) :
    ts.pick? mode f = none ↔ ts.isPrintable f = false := by
  obtain ⟨suffix, hsuffix⟩ := Option.isSome_iff_exists.mp h
  unfold pick? isPrintable
  rw [hsuffix]
  cases ts.isPlain f <;> cases ts.isRelation f <;> simp

/-- A mode that leaves relations out selects the plain fields. -/
theorem pick?_eq_none_iff_of_none (h : mode.relationSuffix? = none) :
    ts.pick? mode f = none ↔ ts.isPlain f = false := by
  unfold pick?
  rw [h]
  cases ts.isPlain f <;> cases ts.isRelation f <;> simp

theorem isSome_pick?_deep_iff : (ts.pick? .deep f).isSome ↔ ts.isPrintable f := by
  have hnone : ts.pick? .deep f = none ↔ ts.isPrintable f = false :=
    pick?_eq_none_iff_of_isSome rfl
  rw [Option.isSome_iff_ne_none, Ne, hnone, Bool.not_eq_false]

private theorem isEmpty_filterMap {α β : Type} {g : α → Option β} {p : α → Bool}
    (h : ∀ a, g a = none ↔ p a = false) (items : List α) :
    (items.filterMap g).isEmpty = !items.any p := by
  induction items with
  | nil => rfl
  | cons a rest ih =>
      rw [List.filterMap_cons, List.any_cons]
      cases ha : g a with
      | none => rw [(h a).mp ha, Bool.false_or, ih]
      | some b =>
          have hp : p a = true := by
            rw [← Bool.not_eq_false, ← h a, ha]
            exact Option.some_ne_none b
          rw [hp, Bool.true_or]
          rfl

variable (ts mode) in
theorem isEmpty_picks_of_isSome (fields : List Field) (h : mode.relationSuffix?.isSome) :
    (ts.picks mode fields).isEmpty = !fields.any ts.isPrintable :=
  isEmpty_filterMap (fun _ => pick?_eq_none_iff_of_isSome h) fields

variable (ts mode) in
theorem isEmpty_picks_of_none (fields : List Field) (h : mode.relationSuffix? = none) :
    (ts.picks mode fields).isEmpty = !fields.any ts.isPlain :=
  isEmpty_filterMap (fun _ => pick?_eq_none_iff_of_none h) fields

/-- The nested selections of a mode are the relations, each with the name of its
field and the innermost type of its field as the target. -/
theorem nested_mem_picks_iff {fields : List Field} {name : String} {s : Spread} :
    .nested name s ∈ ts.picks mode fields ↔
      ∃ f ∈ fields, ts.isRelation f ∧ f.name = name ∧ f.type.innermost = s.type ∧
        mode.relationSuffix? = some s.suffix := by
  unfold picks
  rw [List.mem_filterMap]
  refine exists_congr fun f => and_congr_right fun _ => ?_
  obtain ⟨target, suffix⟩ := s
  constructor
  · intro h
    unfold pick? at h
    split at h
    · cases h
    · split at h
      · next hrelation =>
          obtain ⟨suffix', hsuffix, heq⟩ := Option.map_eq_some_iff.mp h
          cases heq
          exact ⟨hrelation, rfl, rfl, hsuffix⟩
      · cases h
  · rintro ⟨hrelation, rfl, rfl, hsuffix⟩
    unfold pick?
    rw [isPlain_eq_false_of_isRelation hrelation, hrelation, hsuffix]
    rfl

/-- No mode selects a bare spread. -/
theorem spread_notMem_picks {fields : List Field} {s : Spread} :
    .spread s ∉ ts.picks mode fields := by
  intro h
  obtain ⟨f, -, hpick⟩ := List.mem_filterMap.mp h
  have := fieldName?_of_pick? hpick
  cases this

/-- Keeping the selections of some field names is selecting from the fields of
these names. -/
theorem filter_picks (fields : List Field) (allowed : List String) :
    (ts.picks mode fields).filter (fun s => s.fieldName?.any allowed.contains) =
      ts.picks mode (fields.filter fun f => allowed.contains f.name) := by
  induction fields with
  | nil => rfl
  | cons f rest ih =>
      unfold picks at ih ⊢
      rw [List.filterMap_cons]
      cases hpick : ts.pick? mode f with
      | none =>
          rw [ih, List.filter_cons]
          split
          · rw [List.filterMap_cons, hpick]
          · rfl
      | some s =>
          have hname : s.fieldName?.any allowed.contains = allowed.contains f.name := by
            rw [fieldName?_of_pick? hpick, Option.any_some]
          rw [List.filter_cons, List.filter_cons, hname, ih]
          split
          · rw [List.filterMap_cons, hpick]
          · rfl

end GraphqlFragments.TypeSystem
