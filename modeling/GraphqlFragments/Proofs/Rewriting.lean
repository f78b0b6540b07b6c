import GraphqlFragments.Proofs.Contents
import GraphqlFragments.Proofs.Placeholders
import GraphqlFragments.Proofs.Replacement
/-!
# Settling spreads in the text

Deep spreads can also be settled after the fragments are written: the spreads of types with tiers
are replaced in the text by those of a listing, one type after another, and then every suffix that
is left is replaced by that of full fragments. `expand_eq_textual` says that the fragments are the
same as those whose selections are settled before they are written.

Spaces and line breaks are in no pattern, so a text is settled word by word. A word without the
placeholder stays, and in a deep spread the placeholder stands at the end and nowhere else.
-/

namespace GraphqlFragments

namespace TierConfig

/-- How a deep spread of a type is written before it is settled. -/
def pendingText (type : String) : String := "..." ++ type ++ "DeepNesting"

/-- How it is written if the type has tiers, in a fragment of a tier or another one. -/
def listedText (tier : Option String) (type : String) : String :=
  "..." ++ type ++ listingFor tier

/-- Replaces the deep spreads of some types in a text, one type after another. -/
def replaceListed (tier : Option String) : List String → List Char → List Char
  | [] => id
  | type :: types => replaceListed tier types ∘
      Text.replace (pendingText type).toList (listedText tier type).toList

/-- Settles the deep spreads in a text: first those of some types, which have tiers, and then all
that are left. -/
def settleChars (tier : Option String) (types : List String) : List Char → List Char :=
  Text.replace "DeepNesting".toList "Full".toList ∘ replaceListed tier types

def settleText (tier : Option String) (types : List String) (text : String) : String :=
  String.ofList (settleChars tier types text.toList)

/-- The name of a fragment and its text, the deep spreads of which are settled in the text. -/
def settledInText (tier : Option String) (types : List String) (f : Fragment) : String × String :=
  (f.name, settleText tier types f.body)

/-- The deep fragments of a type with their texts, written with deep spreads and settled in the
texts. -/
def textualFragments (config : TierConfig) (types : List String) (type : String)
    (deep : List Selection) : List (String × String) :=
  if deep.isEmpty then []
  else
    match config.get? type with
    | none => [settledInText none types ⟨type ++ "Full", type, deep⟩]
    | some tiers =>
        (tiers.filter fun tier => !(tierSelections type tier.1 tier.2 deep).isEmpty).map
          fun tier => settledInText (some tier.1) types
            ⟨type ++ tier.1, type, tierSelections type tier.1 tier.2 deep⟩

end TierConfig

/-- A selection as the deep mode makes them: a plain field, or a relation with a deep spread of a
type that has a name of the grammar. None of the names contains the placeholder. -/
def Selection.IsPending : Selection → Prop
  | field name => ¬HasPlaceholder name
  | nested name s => ¬HasPlaceholder name ∧ s.suffix = .deepNesting ∧ Sdl.IsName s.type ∧
      ¬HasPlaceholder s.type
  | spread _ => False

instance : DecidablePred Selection.IsPending := fun s =>
  match s with
  | .field name => inferInstanceAs (Decidable (¬HasPlaceholder name))
  | .nested name s => inferInstanceAs (Decidable (¬HasPlaceholder name ∧ s.suffix = .deepNesting ∧
      Sdl.IsName s.type ∧ ¬HasPlaceholder s.type))
  | .spread _ => inferInstanceAs (Decidable False)

/-- The deep mode makes such selections of fields with such names. -/
theorem TypeSystem.isPending_of_selections {ts : TypeSystem} {object : ObjectType}
    {deep : List Selection} (h : ts.selections .deep object = .ok deep)
    (hfields : ∀ d ∈ object.fields, ¬HasPlaceholder d.name ∧ Sdl.IsName d.type.innermost ∧
      ¬HasPlaceholder d.type.innermost) : ∀ s ∈ deep, s.IsPending := by
  obtain ⟨-, rfl⟩ := unlessFault_eq_ok_iff.mp ((ts.selections_eq .deep object).symm.trans h)
  intro s hs
  cases s with
  | field name =>
      obtain ⟨d, hd, hpick⟩ := List.mem_filterMap.mp hs
      have hname : some name = some d.name := fieldName?_of_pick? hpick
      rw [Option.some.inj hname]
      exact (hfields d hd).1
  | nested name s =>
      obtain ⟨d, hd, -, rfl, htarget, hsuffix⟩ := nested_mem_picks_iff.mp hs
      obtain ⟨hname, htype⟩ := hfields d hd
      rw [htarget] at htype
      exact ⟨hname, (Option.some.inj hsuffix).symm, htype⟩
  | spread s => exact absurd hs spread_notMem_picks

namespace TierConfig

variable {config : TierConfig} {tier : Option String} {types : List String} {type target : String}

/-! ## Deep spreads as words -/

theorem placeholder_eq : placeholder = "DeepNesting".toList := rfl

theorem toList_pendingText (type : String) :
    (pendingText type).toList = ("...".toList ++ type.toList) ++ placeholder := by
  rw [pendingText, String.toList_append, String.toList_append, placeholder_eq]

theorem pendingText_ne_nil (type : String) : (pendingText type).toList ≠ [] := by
  simp [toList_pendingText]

/-- The placeholder stands at the end of a deep spread and nowhere before. -/
theorem not_placeholder_isInfix_dropLast (h : ¬HasPlaceholder type) :
    ¬placeholder <:+: ("...".toList ++ type.toList) ++ placeholder.dropLast := by
  have hfront : ¬HasPlaceholder ("..." ++ type) := not_hasPlaceholder_mark_append (by decide) h
  have hseam : ¬HasPlaceholder ("..." ++ type ++ "DeepNestin") :=
    not_hasPlaceholder_append hfront (by decide) (by decide)
  simpa [HasPlaceholder, placeholder, SpreadSuffix.text] using hseam

/-- A deep spread can only be found at the end of another one. -/
theorem pendingText_isSuffix (hfree : ¬HasPlaceholder target)
    (h : (pendingText type).toList <:+: (pendingText target).toList) :
    (pendingText type).toList <:+ (pendingText target).toList := by
  obtain ⟨before, after, htext⟩ := h
  have hafter : after = [] := by
    by_contra hne
    apply not_placeholder_isInfix_dropLast hfree
    refine ⟨before ++ ("...".toList ++ type.toList), after.dropLast, ?_⟩
    have hshort := congrArg List.dropLast htext
    rw [toList_pendingText, toList_pendingText, List.dropLast_append_of_ne_nil hne,
      List.dropLast_append_of_ne_nil (by decide)] at hshort
    rw [← hshort]
    simp only [List.append_assoc]
  rw [hafter, List.append_nil] at htext
  exact ⟨before, htext⟩

/-- A deep spread is found in another one only if both are of one type: names have no dots, so the
dots of both are the same. -/
theorem eq_of_pendingText_isInfix (htype : Sdl.IsName type) (htarget : Sdl.IsName target)
    (hfree : ¬HasPlaceholder target)
    (h : (pendingText type).toList <:+: (pendingText target).toList) : type = target := by
  obtain ⟨before, htext⟩ := pendingText_isSuffix hfree h
  have hwords : before ++ ("...".toList ++ type.toList) = "...".toList ++ target.toList := by
    rw [toList_pendingText, toList_pendingText, ← List.append_assoc] at htext
    exact List.append_cancel_right htext
  have hdots (name : String) (hname : Sdl.IsName name) : name.toList.count '.' = 0 :=
    List.count_eq_zero.mpr (hname.notMem (by decide))
  have hcount := congrArg (List.count '.') hwords
  simp only [List.count_append, hdots type htype, hdots target htarget] at hcount
  have hbefore : before = [] := by
    cases before with
    | nil => rfl
    | cons c rest =>
        have hc : c = '.' := by simpa using congrArg List.head? hwords
        subst hc
        simp at hcount
  subst hbefore
  exact String.toList_injective (List.append_cancel_left hwords)

/-! ## Settling words -/

/-- A text without the placeholder stays as it is. -/
theorem replaceListed_of_not_hasPlaceholder {text : List Char} (h : ¬placeholder <:+: text) :
    replaceListed tier types text = text := by
  induction types with
  | nil => rfl
  | cons type types ih =>
      have habsent : ¬(pendingText type).toList <:+: text := by
        intro hpending
        rw [toList_pendingText] at hpending
        exact h ((List.suffix_append _ _).isInfix.trans hpending)
      rw [replaceListed, Function.comp_apply, Text.replace_of_not_isInfix habsent, ih]

theorem settleText_of_not_hasPlaceholder {text : String} (h : ¬HasPlaceholder text) :
    settleText tier types text = text := by
  rw [settleText, settleChars, Function.comp_apply, replaceListed_of_not_hasPlaceholder h,
    ← placeholder_eq, Text.replace_of_not_isInfix h, String.ofList_toList]

theorem not_hasPlaceholder_listedText (h : ¬HasPlaceholder type) :
    ¬HasPlaceholder (listedText tier type) := by
  have hlisting : listingFor tier ∈ TypeSystem.settledSuffixes := by
    unfold listingFor
    split <;> decide
  exact not_hasPlaceholder_append_suffix (not_hasPlaceholder_mark_append (by decide) h) hlisting

/-- The first pass finds a deep spread if it comes to its type. -/
theorem replaceListed_pendingText (htypes : ∀ type ∈ types, Sdl.IsName type)
    (htarget : Sdl.IsName target) (hfree : ¬HasPlaceholder target) :
    replaceListed tier types (pendingText target).toList =
      if target ∈ types then (listedText tier target).toList
      else (pendingText target).toList := by
  induction types with
  | nil => rfl
  | cons type types ih =>
      rw [List.forall_mem_cons] at htypes
      rw [replaceListed, Function.comp_apply]
      by_cases htype : type = target
      · subst htype
        rw [Text.replace_self (pendingText_ne_nil type),
          replaceListed_of_not_hasPlaceholder (not_hasPlaceholder_listedText hfree)]
        simp
      · have hother : target ≠ type := fun h => htype h.symm
        have habsent : ¬(pendingText type).toList <:+: (pendingText target).toList :=
          fun h => htype (eq_of_pendingText_isInfix htypes.1 htarget hfree h)
        rw [Text.replace_of_not_isInfix habsent, ih htypes.2]
        simp [hother]

/-- A deep spread becomes that of a listing or of a full fragment. -/
theorem settleText_pendingText (htypes : ∀ type ∈ types, Sdl.IsName type)
    (htarget : Sdl.IsName target) (hfree : ¬HasPlaceholder target) :
    settleText tier types (pendingText target) =
      "..." ++ target ++ (if target ∈ types then listingFor tier else "Full") := by
  rw [settleText, settleChars, Function.comp_apply,
    replaceListed_pendingText htypes htarget hfree]
  by_cases hmem : target ∈ types
  · have hlisted : ¬HasPlaceholder (listedText tier target) := not_hasPlaceholder_listedText hfree
    rw [if_pos hmem, if_pos hmem, ← placeholder_eq, Text.replace_of_not_isInfix hlisted,
      String.ofList_toList, listedText]
  · have hlast : Text.replace placeholder "Full".toList
        (("...".toList ++ target.toList) ++ placeholder) =
          ("...".toList ++ target.toList) ++ "Full".toList :=
      Text.replace_append_pattern (by decide) (not_placeholder_isInfix_dropLast hfree)
    rw [if_neg hmem, if_neg hmem, toList_pendingText, ← placeholder_eq, hlast]
    apply String.toList_injective
    simp only [String.toList_ofList, String.toList_append]

/-! ## Settling lines -/

theorem divides_replaceListed {c : Char} (hc : ∀ type ∈ types, c ∉ (pendingText type).toList) :
    Text.Divides c (replaceListed tier types) := by
  induction types with
  | nil => exact Text.divides_id c
  | cons type types ih =>
      rw [List.forall_mem_cons] at hc
      exact (ih hc.2).comp (Text.divides_replace (pendingText_ne_nil type) hc.1 _)

/-- A character that is in no deep spread divides a text into parts that are settled one by
one. -/
theorem divides_settleChars {c : Char} (hc : c ∉ "...DeepNesting".toList)
    (hname : Sdl.isNameChar c = false) (htypes : ∀ type ∈ types, Sdl.IsName type) :
    Text.Divides c (settleChars tier types) := by
  have hlisted : Text.Divides c (replaceListed tier types) := by
    refine divides_replaceListed fun type htype => ?_
    have hnot := (htypes type htype).notMem hname
    rw [toList_pendingText]
    simp_all [placeholder, SpreadSuffix.text]
  refine Text.Divides.comp (Text.divides_replace (by decide) ?_ _) hlisted
  simp_all

/-- The indentation of a line stays. -/
theorem settleText_indented (htypes : ∀ type ∈ types, Sdl.IsName type) (text : String) :
    settleText tier types ("    " ++ text) = "    " ++ settleText tier types text := by
  have hdivides : Text.Divides ' ' (settleChars tier types) :=
    divides_settleChars (by decide) (by decide) htypes
  apply String.toList_injective
  simp only [settleText, String.toList_append, String.toList_ofList]
  exact hdivides.replicate_append 4 text.toList

/-- Lines are settled one by one. -/
theorem settleText_intercalate (htypes : ∀ type ∈ types, Sdl.IsName type) (lines : List String) :
    settleText tier types (String.intercalate "\n" lines) =
      String.intercalate "\n" (lines.map (settleText tier types)) := by
  have hdivides : Text.Divides '\n' (settleChars tier types) :=
    divides_settleChars (by decide) (by decide) htypes
  have hparts : (lines.map (settleText tier types)).map String.toList =
      (lines.map String.toList).map (settleChars tier types) := by
    simp [settleText]
  apply String.toList_injective
  rw [String.toList_intercalate, hparts, settleText, String.toList_ofList,
    String.toList_intercalate]
  exact hdivides.intercalate (lines.map String.toList)

/-! ## Settling selections -/

theorem map_settleText_of_isFree {s : Selection} (h : s.IsFree) :
    s.lines.map (settleText tier types) = s.lines := by
  have hstays : ∀ line ∈ s.lines, settleText tier types line = line := fun line hline =>
    settleText_of_not_hasPlaceholder (not_hasPlaceholder_of_mem_lines h line hline)
  rw [List.map_congr_left hstays, List.map_id']

theorem toText_deepNesting (type : String) :
    (Spread.mk type .deepNesting).toText = pendingText type := by
  rw [Spread.toText, Spread.fragmentName, pendingText, String.append_assoc]
  rfl

/-- The lines of a selection are settled in the text as the selection is. -/
theorem lines_settle {s : Selection} (hkeys : ∀ name, name ∈ types ↔ name ∈ config.keys)
    (htypes : ∀ type ∈ types, Sdl.IsName type) (h : s.IsPending) :
    s.lines.map (settleText tier types) = (config.settle tier s).lines := by
  cases s with
  | field name => exact map_settleText_of_isFree (s := .field name) h
  | nested name s =>
      obtain ⟨type, suffix⟩ := s
      obtain ⟨hfield, rfl, htype, hfree⟩ := h
      have hname : ¬HasPlaceholder (type ++ "Full") :=
        not_hasPlaceholder_append_suffix hfree (by decide)
      have hfull : (Selection.nested name ⟨type, .full⟩).IsFree := ⟨hfield, hname⟩
      have hopening : ¬HasPlaceholder ("  " ++ name ++ " \x7b") :=
        not_hasPlaceholder_of_mem_lines hfull _ List.mem_cons_self
      have hspread : settleText tier types ("    " ++ pendingText type) =
          "    " ++ ("..." ++ type ++ if type ∈ types then listingFor tier else "Full") := by
        rw [settleText_indented htypes, settleText_pendingText htypes htype hfree]
      have hclosing : settleText tier types "  \x7d" = "  \x7d" :=
        settleText_of_not_hasPlaceholder (by decide)
      have hcontains : config.contains type = true ↔ type ∈ types := by
        rw [Table.contains, Table.isSome_get?_iff, hkeys]
      rw [settle_nested, Selection.lines, toText_deepNesting, List.map_cons, List.map_cons,
        List.map_singleton, settleText_of_not_hasPlaceholder hopening, hspread, hclosing]
      by_cases hmem : type ∈ types <;>
        simp [hmem, hcontains, Selection.lines, Spread.toText, Spread.fragmentName,
          SpreadSuffix.text, String.append_assoc]
  | spread s => exact absurd h id

/-- What a tier selects can be settled in the text if the deep selections can. -/
theorem lines_settle_of_mem_tierSelections {deep : List Selection} {label : String}
    {allowed : List String} (hkeys : ∀ name, name ∈ types ↔ name ∈ config.keys)
    (htypes : ∀ type ∈ types, Sdl.IsName type) (htype : ¬HasPlaceholder type)
    (hdeep : ∀ s ∈ deep, s.IsPending) :
    ∀ s ∈ tierSelections type label allowed deep,
      s.lines.map (settleText tier types) = (config.settle tier s).lines := by
  intro s hs
  rcases List.mem_append.mp hs with hbase | hfield
  · rw [Option.mem_toList] at hbase
    obtain ⟨base, hlabel, rfl⟩ := Option.map_eq_some_iff.mp hbase
    have hlisting : base ∈ TypeSystem.settledSuffixes := by
      rcases baseLabel?_eq_or hlabel with rfl | rfl <;> decide
    apply map_settleText_of_isFree
    exact not_hasPlaceholder_append_suffix htype hlisting
  · exact lines_settle hkeys htypes (hdeep s (List.mem_filter.mp hfield).1)

/-! ## Settling fragments -/

/-- If the selections of a fragment can be settled in the text, so can the fragment. -/
theorem settledInText_eq {f : Fragment} (htypes : ∀ type ∈ types, Sdl.IsName type)
    (hname : ¬HasPlaceholder f.name) (htype : ¬HasPlaceholder f.type)
    (hlines : ∀ s ∈ f.selections,
      s.lines.map (settleText tier types) = (config.settle tier s).lines) :
    settledInText tier types f =
      (f.name, Fragment.body ⟨f.name, f.type, f.selections.map (config.settle tier)⟩) := by
  have hheader : settleText tier types f.header = f.header :=
    settleText_of_not_hasPlaceholder (not_hasPlaceholder_header hname htype)
  have hclosing : settleText tier types "\x7d" = "\x7d" :=
    settleText_of_not_hasPlaceholder (by decide)
  have hselections : (f.selections.flatMap Selection.lines).map (settleText tier types) =
      (f.selections.map (config.settle tier)).flatMap Selection.lines := by
    rw [List.map_flatMap, List.flatMap_map]
    exact List.flatMap_congr hlines
  rw [settledInText, Fragment.body, settleText_intercalate htypes, Fragment.lines,
    List.map_append, List.map_cons, hheader, hselections, List.map_singleton, hclosing]
  rfl

/-- The deep fragments of a type are those that are written with deep spreads and then settled in
their texts, whatever the order of the types with tiers. -/
theorem expand_eq_textual {deep : List Selection}
    (hkeys : ∀ name, name ∈ types ↔ name ∈ config.keys)
    (htypes : ∀ type ∈ types, Sdl.IsName type) (htype : ¬HasPlaceholder type)
    (hlabels : ∀ tiers ∈ config.get? type, ∀ tier ∈ tiers, ¬HasPlaceholder (type ++ tier.1))
    (hdeep : ∀ s ∈ deep, s.IsPending) :
    ∃ fragments, (config.expand type deep).result = .ok fragments ∧
      fragments.map (fun f => (f.name, f.body)) = config.textualFragments types type deep := by
  refine ⟨config.deepFragments type deep, rfl, ?_⟩
  rw [deepFragments_eq, textualFragments]
  cases deep.isEmpty with
  | true => rfl
  | false =>
      cases htiers : config.get? type with
      | none =>
          have hname : ¬HasPlaceholder (type ++ "Full") :=
            not_hasPlaceholder_append_suffix htype (by decide)
          have hfull : settledInText none types ⟨type ++ "Full", type, deep⟩ =
              (type ++ "Full", (config.fullFragment type deep).body) :=
            settledInText_eq htypes hname htype fun s hs => lines_settle hkeys htypes (hdeep s hs)
          simp [hfull, fullFragment]
      | some tiers =>
          simp only [Bool.false_eq_true, if_false, List.map_map]
          refine List.map_congr_left fun tier htier => ?_
          have hmem : tier ∈ tiers := (List.mem_filter.mp htier).1
          have hsettled : settledInText (some tier.1) types
              ⟨type ++ tier.1, type, tierSelections type tier.1 tier.2 deep⟩ =
                (type ++ tier.1, (config.tierFragment type deep tier).body) :=
            settledInText_eq htypes (hlabels tiers htiers tier hmem) htype
              (lines_settle_of_mem_tierSelections hkeys htypes htype hdeep)
          exact hsettled.symm

/-- Relations to types whose names begin those of others or end like the placeholder begins. -/
def ladder : ObjectType :=
  ⟨"User", [⟨"name", .named "String"⟩, ⟨"next", .named "UserDeep"⟩, ⟨"self", .named "User"⟩,
    ⟨"end", .named "DeepNest"⟩, ⟨"other", .named "UserDeepN"⟩]⟩

def ladderTypes : TypeSystem where
  kinds := TypeSystem.builtinKinds ++ [("User", .object), ("UserDeep", .object),
    ("DeepNest", .object), ("UserDeepN", .object)]
  objects := [(ladder.name, ladder.fields)]
  roots := .conventional

def ladderTiers : TierConfig :=
  [("User", [("Admin", ["end", "next"]), ("Full", ["self", "other", "name"])]),
    ("UserDeep", []), ("DeepNest", [("Public", ["name"])])]

theorem expand_eq_textual_ladder :
    ∃ deep fragments, ladderTypes.selections .deep ladder = .ok deep ∧
      (ladderTiers.expand "User" deep).result = .ok fragments ∧
      fragments.map (fun f => (f.name, f.body)) =
        ladderTiers.textualFragments ["DeepNest", "UserDeep", "User"] "User" deep ∧
      fragments.map Fragment.body =
        ["fragment UserAdmin on User \x7b\n  ...UserAdminListing\n  next \x7b\n" ++
          "    ...UserDeepAdminListing\n  \x7d\n  end \x7b\n    ...DeepNestAdminListing\n" ++
          "  \x7d\n\x7d",
        "fragment UserFull on User \x7b\n  name\n  self \x7b\n    ...UserPublicListing\n" ++
          "  \x7d\n  other \x7b\n    ...UserDeepNFull\n  \x7d\n\x7d"] := by
  have hkeys (name : String) : name ∈ ["DeepNest", "UserDeep", "User"] ↔
      name ∈ ladderTiers.keys := by
    have hperm : ["DeepNest", "UserDeep", "User"].Perm ladderTiers.keys := by decide
    exact hperm.mem_iff
  have hdeep : ladderTypes.selections .deep ladder = .ok (ladderTypes.picks .deep ladder.fields) :=
    rfl
  have hpending := TypeSystem.isPending_of_selections hdeep (by decide)
  obtain ⟨fragments, hexpand, htextual⟩ : ∃ fragments,
      (ladderTiers.expand "User" (ladderTypes.picks .deep ladder.fields)).result = .ok fragments ∧
      fragments.map (fun f => (f.name, f.body)) = ladderTiers.textualFragments
        ["DeepNest", "UserDeep", "User"] "User" (ladderTypes.picks .deep ladder.fields) :=
    expand_eq_textual hkeys (by decide) (by decide) (by decide) hpending
  refine ⟨_, fragments, hdeep, hexpand, htextual, ?_⟩
  cases hexpand
  decide

end TierConfig

end GraphqlFragments
