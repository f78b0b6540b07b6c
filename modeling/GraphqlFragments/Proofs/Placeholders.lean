import GraphqlFragments.Proofs.Vocabulary
/-!
# No placeholder is left

A deep spread stands for a fragment that is settled later, under a suffix of its own. The suffix
does not turn up in what is written, neither by itself nor across the seams of the text: settled
spreads have other suffixes, no end of it begins one of these, and all else that is put between
names has characters that it does not have.
-/

namespace GraphqlFragments

/-- The suffix of spreads that are not settled. -/
def placeholder : List Char := SpreadSuffix.deepNesting.text.toList

/-- The text contains the suffix of spreads that are not settled. -/
def HasPlaceholder (s : String) : Prop := placeholder <:+: s.toList

instance (s : String) : Decidable (HasPlaceholder s) :=
  decidable_of_iff (Text.contains placeholder s.toList = true) Text.contains_eq_true_iff

/-! ## Seams -/

/-- No character of the text is one of the placeholder. -/
def isForeign (s : String) : Bool := s.toList.all fun c => !placeholder.contains c

variable {a b mark : String}

/-- A text without a pattern stays without it where a character divides that the pattern does not
have. -/
theorem infix_append_cons_iff {p front back : List Char} {c : Char} (hne : p ≠ []) (hc : c ∉ p) :
    p <:+: front ++ c :: back ↔ p <:+: front ∨ p <:+: back := by
  constructor
  · intro h
    rcases List.infix_append_iff_ne_nil.mp h with hfront | hback | ⟨l₁, l₂, -, hl₂, rfl, -, hprefix⟩
    · exact Or.inl hfront
    · rcases List.infix_cons_iff.mp hback with hprefix | hinfix
      · obtain ⟨d, p, rfl⟩ := List.exists_cons_of_ne_nil hne
        obtain ⟨rfl, -⟩ := List.cons_prefix_cons.mp hprefix
        exact absurd List.mem_cons_self hc
      · exact Or.inr hinfix
    · -- The part of the pattern behind the seam begins with the character.
      obtain ⟨d, l₂, rfl⟩ := List.exists_cons_of_ne_nil hl₂
      obtain ⟨rfl, -⟩ := List.cons_prefix_cons.mp hprefix
      exact absurd (List.mem_append_right l₁ List.mem_cons_self) hc
  · rintro (h | h)
    · exact h.trans (List.prefix_append _ _).isInfix
    · exact h.trans ((List.suffix_cons c back).trans (List.suffix_append front _)).isInfix

theorem not_hasPlaceholder_mark_append (hmark : isForeign mark) (hb : ¬HasPlaceholder b) :
    ¬HasPlaceholder (mark ++ b) := by
  have hchars (cs : List Char) (hcs : cs.all (fun c => !placeholder.contains c) = true) :
      ¬placeholder <:+: cs ++ b.toList := by
    induction cs with
    | nil => exact hb
    | cons c cs ih =>
        rw [List.all_cons, Bool.and_eq_true] at hcs
        have hc : c ∉ placeholder := by simpa using hcs.1
        rw [show c :: cs ++ b.toList = [] ++ c :: (cs ++ b.toList) from rfl,
          infix_append_cons_iff (by decide) hc]
        rintro (hnil | hinfix)
        · exact absurd (List.eq_nil_of_infix_nil hnil) (by decide)
        · exact ih hcs.2 hinfix
  rw [HasPlaceholder, String.toList_append]
  exact hchars mark.toList hmark

theorem not_hasPlaceholder_glue (hmark : isForeign mark) (hne : mark ≠ "")
    (ha : ¬HasPlaceholder a) (hb : ¬HasPlaceholder b) : ¬HasPlaceholder (a ++ mark ++ b) := by
  obtain ⟨c, cs, htext⟩ := List.exists_cons_of_ne_nil (mt String.toList_eq_nil_iff.mp hne)
  rw [isForeign, htext, List.all_cons, Bool.and_eq_true] at hmark
  have hc : c ∉ placeholder := by simpa using hmark.1
  have hrest : isForeign (String.ofList cs) := by
    rw [isForeign, String.toList_ofList]
    exact hmark.2
  have hback := not_hasPlaceholder_mark_append hrest hb
  rw [HasPlaceholder, String.toList_append, String.toList_ofList] at hback
  rw [HasPlaceholder, String.toList_append, String.toList_append, htext, List.append_assoc,
    List.cons_append, infix_append_cons_iff (by decide) hc]
  exact not_or.mpr ⟨ha, hback⟩

/-- Two texts without the placeholder have none at their seam if the second one begins with no end
of it. -/
theorem not_hasPlaceholder_append (ha : ¬HasPlaceholder a) (hb : ¬HasPlaceholder b)
    (hends : ∀ l ∈ placeholder.tails, l ≠ [] → ¬l <+: b.toList) : ¬HasPlaceholder (a ++ b) := by
  rw [HasPlaceholder, String.toList_append]
  intro h
  rcases List.infix_append_iff_ne_nil.mp h with hname | htext | ⟨l₁, l₂, -, hl₂, hsplit, -, hprefix⟩
  · exact ha hname
  · exact hb htext
  · exact hends l₂ ((List.mem_tails l₂ _).mpr ⟨l₁, hsplit.symm⟩) hl₂ hprefix

/-- The suffixes that are written begin with no end of the placeholder. -/
theorem not_hasPlaceholder_append_suffix {suffix : String} (ha : ¬HasPlaceholder a)
    (hsuffix : suffix ∈ TypeSystem.settledSuffixes) : ¬HasPlaceholder (a ++ suffix) := by
  have hends : ∀ suffix ∈ TypeSystem.settledSuffixes,
      ¬HasPlaceholder suffix ∧ ∀ l ∈ placeholder.tails, l ≠ [] → ¬l <+: suffix.toList := by
    decide
  exact not_hasPlaceholder_append ha (hends suffix hsuffix).1 (hends suffix hsuffix).2

/-! ## Texts -/

/-- No name in the selection contains the placeholder. -/
def Selection.IsFree : Selection → Prop :=
  MadeOf (fun name => ¬HasPlaceholder name) fun s => ¬HasPlaceholder s.fragmentName

theorem not_hasPlaceholder_toText {s : Spread} (h : ¬HasPlaceholder s.fragmentName) :
    ¬HasPlaceholder s.toText :=
  not_hasPlaceholder_mark_append (by decide) h

theorem not_hasPlaceholder_of_mem_lines {s : Selection} (h : s.IsFree) :
    ∀ line ∈ s.lines, ¬HasPlaceholder line := by
  cases s with
  | field name =>
      rw [Selection.lines, List.forall_mem_singleton]
      exact not_hasPlaceholder_mark_append (by decide) h
  | spread s =>
      rw [Selection.lines, List.forall_mem_singleton]
      exact not_hasPlaceholder_mark_append (by decide) (not_hasPlaceholder_toText h)
  | nested name s =>
      rw [Selection.lines, List.forall_mem_cons, List.forall_mem_cons, List.forall_mem_singleton]
      refine ⟨?_, not_hasPlaceholder_mark_append (by decide) (not_hasPlaceholder_toText h.2),
        by decide⟩
      rw [← String.append_empty (s := "  " ++ name ++ " \x7b")]
      exact not_hasPlaceholder_glue (by decide) (by decide)
        (not_hasPlaceholder_mark_append (by decide) h.1) (by decide)

theorem not_hasPlaceholder_header {f : Fragment} (hname : ¬HasPlaceholder f.name)
    (htype : ¬HasPlaceholder f.type) : ¬HasPlaceholder f.header := by
  have hspace {a b : String} (ha : ¬HasPlaceholder a) (hb : ¬HasPlaceholder b) :
      ¬HasPlaceholder (a ++ " " ++ b) :=
    not_hasPlaceholder_glue (by decide) (by decide) ha hb
  rw [f.header_eq]
  exact hspace (by decide) (hspace hname (hspace (by decide) (hspace htype (by decide))))

theorem not_hasPlaceholder_intercalate {lines : List String}
    (h : ∀ line ∈ lines, ¬HasPlaceholder line) :
    ¬HasPlaceholder (String.intercalate "\n" lines) := by
  induction lines with
  | nil => decide
  | cons line lines ih =>
      rw [List.forall_mem_cons] at h
      cases lines with
      | nil =>
          rw [String.intercalate_singleton]
          exact h.1
      | cons next lines =>
          rw [String.intercalate_cons_cons]
          exact not_hasPlaceholder_glue (by decide) (by decide) h.1 (ih h.2)

theorem not_hasPlaceholder_body {f : Fragment} (hname : ¬HasPlaceholder f.name)
    (htype : ¬HasPlaceholder f.type) (hselections : ∀ s ∈ f.selections, s.IsFree) :
    ¬HasPlaceholder f.body := by
  refine not_hasPlaceholder_intercalate ?_
  rw [Fragment.lines, List.forall_mem_append, List.forall_mem_cons, List.forall_mem_singleton]
  refine ⟨⟨not_hasPlaceholder_header hname htype, fun line hline => ?_⟩, by decide⟩
  obtain ⟨s, hs, hline⟩ := List.mem_flatMap.mp hline
  exact not_hasPlaceholder_of_mem_lines (hselections s hs) line hline

/-! ## The fragments of a run -/

namespace TypeSystem

variable {ts : TypeSystem} {config : TierConfig} {object : ObjectType} {e : Edition}

section Edition

variable (hsound : ts.IsSound) (hobject : object ∈ ts.objectTypes)
  (hhas : ts.HasEdition config object e)
  (hnames : ∀ name ∈ ts.labelledNames config, ¬HasPlaceholder name)

include hobject hhas hnames in
theorem not_hasPlaceholder_name_edition : ¬HasPlaceholder (ts.edition config object e).name := by
  have htype : ¬HasPlaceholder object.name := hnames _ (name_mem_labelledNames hobject)
  rcases name_edition_mem_labelledNames_or hobject hhas with hlabelled | rfl | rfl
  · exact hnames _ hlabelled
  · exact not_hasPlaceholder_append_suffix htype (by decide)
  · exact not_hasPlaceholder_append_suffix htype (by decide)

include hsound hobject hnames in
theorem not_hasPlaceholder_of_mem_spreads {s : Spread}
    (hs : s ∈ (ts.edition config object e).spreads) : ¬HasPlaceholder s.fragmentName := by
  obtain ⟨target, htarget, suffix, hsuffix, heq⟩ := fragmentName_of_mem_spreads hsound hobject hs
  rw [heq]
  exact not_hasPlaceholder_append_suffix (hnames _ (name_mem_labelledNames htarget)) hsuffix

include hsound hobject hhas hnames in
theorem not_hasPlaceholder_body_edition (hfields : ∀ d ∈ object.fields, ¬HasPlaceholder d.name) :
    ¬HasPlaceholder (ts.edition config object e).body := by
  refine not_hasPlaceholder_body (not_hasPlaceholder_name_edition hobject hhas hnames) ?_
    (madeOf_of_mem_edition hfields fun s => not_hasPlaceholder_of_mem_spreads hsound hobject hnames)
  rw [type_edition]
  exact hnames _ (name_mem_labelledNames hobject)

end Edition

end TypeSystem

/-- If the placeholder is in no name of a field, in none of an object type and in none of an object
type with a label of its tiers, it is in no fragment. -/
theorem not_hasPlaceholder_of_generate {schema : String} {tiers : Option TierConfig}
    {set : FragmentSet} {ts : TypeSystem} (h : (generate schema tiers).result = .ok set)
    (hts : TypeSystem.ofText schema = .ok ts)
    (hfields : ∀ object ∈ ts.objectTypes, ∀ d ∈ object.fields, ¬HasPlaceholder d.name)
    (hnames : ∀ name ∈ ts.labelledNames (tiers.getD .empty), ¬HasPlaceholder name) :
    ∀ f ∈ set.all, ¬HasPlaceholder f.body := by
  obtain ⟨rfl, -⟩ := eq_emitted_of_generate h hts
  intro f hf
  obtain ⟨object, hobject, e, hhas, rfl⟩ := TypeSystem.mem_emitted_iff.mp hf
  have hmem : object ∈ ts.objectTypes := (List.mem_filter.mp hobject).1
  exact TypeSystem.not_hasPlaceholder_body_edition (TypeSystem.isSound_ofText hts) hmem hhas hnames
    (hfields object hmem)

/-- Names that come close to the placeholder when they are put together. -/
def abyss : String :=
  "type Deep { Nesting: Nesting DeepN: Int } type Nesting { Deep: [Deep] DeepNestin: Deep }"

def abyssTypes : TypeSystem where
  kinds := TypeSystem.builtinKinds ++ [("Deep", .object), ("Nesting", .object)]
  objects :=
    [("Deep", [⟨"Nesting", .named "Nesting"⟩, ⟨"DeepN", .named "Int"⟩]),
      ("Nesting", [⟨"Deep", .list (.named "Deep")⟩, ⟨"DeepNestin", .named "Deep"⟩])]
  roots := .conventional

def abyssTiers : TierConfig :=
  [("Deep", [("PublicListing", ["Nesting"]), ("Admin", ["DeepN"]), ("estinDeep", ["DeepN"])])]

theorem not_hasPlaceholder_of_generate_abyss :
    ∃ set, (generate abyss (some abyssTiers)).result = .ok set ∧
      set.names = ["Deep", "Nesting", "DeepNoNesting", "DeepPublicListing", "DeepAdmin",
        "DeepestinDeep", "NestingFull"] ∧
      ∀ f ∈ set.all, ¬HasPlaceholder f.body := by
  have htypes : TypeSystem.ofText abyss = .ok abyssTypes :=
    eq_ok_of_toOption (by decide +kernel)
  have hrun : (generate abyss (some abyssTiers)).result = .ok (abyssTypes.emitted abyssTiers) :=
    generate_eq_ok_iff.mpr ⟨abyssTypes, htypes, by decide, by decide, rfl⟩
  exact ⟨_, hrun, by decide, not_hasPlaceholder_of_generate hrun htypes (by decide) (by decide)⟩

end GraphqlFragments
