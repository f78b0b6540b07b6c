import GraphqlFragments.Output
import GraphqlFragments.Proofs.Sdl.Acceptance
import GraphqlFragments.Proofs.Vocabulary
/-!
# Generated documents are documents

What a run writes can be read again. A fragment whose names are those of the grammar spells its
words, and so do many of them in a row, under their titles or with blank lines between them. The
main statement is `parses_of_generate`.
-/

namespace GraphqlFragments

open Sdl (Word IsName IsGap Spells)

/-! ## The words of a fragment -/

/-- The name that is spread is one of the grammar. -/
structure Spread.IsWellNamed (s : Spread) : Prop where
  name : IsName s.fragmentName
  ne_on : s.fragmentName ≠ "on"

namespace Selection

def words : Selection → List Word
  | field name => [.name name]
  | nested name s => [.name name, .opening, .dots, .name s.fragmentName, .closing]
  | spread s => [.dots, .name s.fragmentName]

/-- All names in the selection are those of the grammar. -/
def IsWellNamed : Selection → Prop := MadeOf IsName Spread.IsWellNamed

end Selection

namespace Fragment

def words (f : Fragment) : List Word :=
  .name "fragment" :: .name f.name :: .name "on" :: .name f.type :: .opening ::
    (f.selections.flatMap Selection.words ++ [.closing])

/-- The fragment selects something, and all its names are those of the grammar. -/
structure IsWellNamed (f : Fragment) : Prop where
  name : IsName f.name
  ne_on : f.name ≠ "on"
  type : IsName f.type
  ne_nil : f.selections ≠ []
  selections : ∀ s ∈ f.selections, s.IsWellNamed

end Fragment

theorem isSelection_words {s : Selection} (h : s.IsWellNamed) : Sdl.Parser.IsSelection s.words := by
  cases s with
  | field name => exact .field name
  | nested name s => exact .nested name h.2.ne_on
  | spread s => exact .spread h.ne_on

theorem isFragment_words {f : Fragment} (h : f.IsWellNamed) : Sdl.Parser.IsFragment f.words := by
  have hselections : ∀ s ∈ f.selections.map Selection.words, Sdl.Parser.IsSelection s :=
    List.forall_mem_map.mpr fun s hs => isSelection_words (h.selections s hs)
  have hne : f.selections.map Selection.words ≠ [] := mt List.map_eq_nil_iff.mp h.ne_nil
  have hwords := Sdl.Parser.IsFragment.intro f.type h.ne_on hne hselections
  rwa [List.flatMap_map] at hwords

/-! ## The text of a fragment -/

theorem isGap_newline : IsGap "\n" := Sdl.isGap_of_spaces (by simp)

theorem spells_indented {s : String} {words : List Word} (h : Spells s words) :
    Spells ("  " ++ s) words :=
  (Sdl.spells_gap (Sdl.isGap_of_spaces (by simp))).append h

theorem spells_ended {s : String} {words : List Word} (h : Spells s words) :
    Spells (s ++ "\n") words := by
  simpa using h.append (Sdl.spells_gap isGap_newline)

theorem spells_spaced_name {s : String} (h : IsName s) : Spells (s ++ " ") [.name s] :=
  Sdl.spells_name h (Sdl.isGap_of_spaces (by simp)) (by simp)

theorem spells_ended_name {s : String} (h : IsName s) : Spells (s ++ "\n") [.name s] :=
  Sdl.spells_name h isGap_newline (by simp)

theorem spells_toText {s : Spread} (h : s.IsWellNamed) :
    Spells (s.toText ++ "\n") [.dots, .name s.fragmentName] := by
  rw [Spread.toText, String.append_assoc]
  exact Sdl.spells_dots.append (spells_ended_name h.name)

/-- The lines of a selection, each with its end. -/
theorem spells_selection {s : Selection} (h : s.IsWellNamed) :
    Spells (String.join (s.lines.map (· ++ "\n"))) s.words := by
  cases s with
  | field name =>
      have htext : String.join ((Selection.field name).lines.map (· ++ "\n")) =
          "  " ++ (name ++ "\n") := by
        simp [Selection.lines, String.append_assoc]
      rw [htext]
      exact spells_indented (spells_ended_name h)
  | spread s =>
      have htext : String.join ((Selection.spread s).lines.map (· ++ "\n")) =
          "  " ++ (s.toText ++ "\n") := by
        simp [Selection.lines, String.append_assoc]
      rw [htext]
      exact spells_indented (spells_toText h)
  | nested name s =>
      have hindent (t : String) : "  " ++ ("  " ++ t) = "    " ++ t := String.append_assoc.symm
      have htext : String.join ((Selection.nested name s).lines.map (· ++ "\n")) =
          "  " ++ (name ++ " " ++ ("\x7b" ++ "\n")) ++
            ("  " ++ ("  " ++ (s.toText ++ "\n")) ++ ("  " ++ ("\x7d" ++ "\n"))) := by
        simp [Selection.lines, hindent, String.append_assoc]
      rw [htext]
      have hopening := spells_indented
        ((spells_spaced_name h.1).append (spells_ended Sdl.spells_opening))
      have hspread := spells_indented (spells_indented (spells_toText h.2))
      exact hopening.append (hspread.append (spells_indented (spells_ended Sdl.spells_closing)))

theorem spells_selections {selections : List Selection} (h : ∀ s ∈ selections, s.IsWellNamed) :
    Spells (String.join ((selections.flatMap Selection.lines).map (· ++ "\n")))
      (selections.flatMap Selection.words) := by
  have htext : String.join ((selections.flatMap Selection.lines).map (· ++ "\n")) =
      String.join (selections.map fun s => String.join (s.lines.map (· ++ "\n"))) := by
    rw [← String.toList_inj, String.toList_join, String.toList_join, List.map_flatMap,
      List.flatMap_assoc, List.flatMap_map]
    simp only [String.toList_join]
  rw [htext]
  exact Sdl.spells_join fun s hs => spells_selection (h s hs)

theorem spells_header {f : Fragment} (h : f.IsWellNamed) :
    Spells (f.header ++ "\n")
      [.name "fragment", .name f.name, .name "on", .name f.type, .opening] := by
  have htext : f.header ++ "\n" = "fragment" ++ " " ++ (f.name ++ " " ++
      ("on" ++ " " ++ (f.type ++ " " ++ ("\x7b" ++ "\n")))) := by
    simp only [Fragment.header_eq, String.append_assoc]
  rw [htext]
  exact (spells_spaced_name (by decide)).append ((spells_spaced_name h.name).append
    ((spells_spaced_name (by decide)).append
      ((spells_spaced_name h.type).append (spells_ended Sdl.spells_opening))))

/-- All lines but the last one end. -/
theorem intercalate_concat (gap last : String) (lines : List String) :
    String.intercalate gap (lines ++ [last]) = String.join (lines.map (· ++ gap)) ++ last := by
  induction lines with
  | nil =>
      rw [List.nil_append, String.intercalate_singleton, List.map_nil, String.join_nil,
        String.empty_append]
  | cons line lines ih =>
      rw [List.cons_append, String.intercalate_cons_of_ne_nil (by simp), ih]
      simp only [List.map_cons, String.join_cons, String.append_assoc]

theorem spells_body {f : Fragment} (h : f.IsWellNamed) : Spells f.body f.words := by
  rw [Fragment.body, Fragment.lines, intercalate_concat, List.map_cons, String.join_cons]
  exact ((spells_header h).append (spells_selections h.selections)).append Sdl.spells_closing

/-! ## The text of a document -/

theorem spells_title (title : String) (h : ∀ c ∈ title.toList, Sdl.isLineEnd c = false) :
    Spells ("# " ++ title ++ "\n") [] := by
  have hspace (t : String) : "# " ++ t = "#" ++ (" " ++ t) := by
    rw [← String.append_assoc]
    rfl
  rw [hspace]
  refine Sdl.spells_comment fun c hc => ?_
  rw [String.toList_append] at hc
  rcases List.mem_append.mp hc with hspace | htitle
  · rw [List.mem_singleton.mp hspace]
    rfl
  · exact h c htitle

variable {group : List Fragment}

theorem spells_paragraphs (h : ∀ f ∈ group, f.IsWellNamed) :
    Spells (String.join (group.map Fragment.paragraph)) (group.flatMap Fragment.words) := by
  refine Sdl.spells_join fun f hf => ?_
  exact spells_ended ((Sdl.spells_gap isGap_newline).append (spells_body (h f hf)))

theorem spells_chapter {title : String} (htitle : ∀ c ∈ title.toList, Sdl.isLineEnd c = false)
    (h : ∀ f ∈ group, f.IsWellNamed) :
    Spells (FragmentSet.chapter title group) (group.flatMap Fragment.words) := by
  unfold FragmentSet.chapter
  cases group with
  | nil => exact Sdl.spells_empty
  | cons f group =>
      have hspace (t : String) : "\n# " ++ t = "\n" ++ ("# " ++ t) := by
        rw [← String.append_assoc]
        rfl
      rw [hspace]
      exact ((Sdl.spells_gap isGap_newline).append (spells_title title htitle)).append
        (spells_paragraphs h)

theorem spells_documentText {set : FragmentSet} (h : ∀ f ∈ set.all, f.IsWellNamed) :
    Spells set.documentText (set.all.flatMap Fragment.words) := by
  simp only [FragmentSet.all, List.forall_mem_append] at h
  obtain ⟨⟨hdefault, hnoRelations⟩, hdeep⟩ := h
  rw [FragmentSet.all, List.flatMap_append, List.flatMap_append]
  have hbanner := spells_title banner (by simp [banner, Sdl.isLineEnd])
  exact ((hbanner.append (spells_chapter (by simp [Sdl.isLineEnd]) hdefault)).append
    (spells_chapter (by simp [Sdl.isLineEnd]) hnoRelations)).append
      (spells_chapter (by simp [Sdl.isLineEnd]) hdeep)

/-- A text that spells fragments can be read, and defines no types. -/
theorem parse_of_spells_fragments {text : String} (h : ∀ f ∈ group, f.IsWellNamed)
    (htext : Spells text (group.flatMap Fragment.words)) : Sdl.Document.parse text = .ok [] := by
  have hwords : group.flatMap Fragment.words = (group.map Fragment.words).flatMap id := by
    rw [List.flatMap_map]
    rfl
  rw [hwords] at htext
  exact Sdl.parse_of_spells htext (List.forall_mem_map.mpr fun f hf => isFragment_words (h f hf))

/-! ## The fragments of a run -/

namespace TypeSystem

variable {ts : TypeSystem} {config : TierConfig} {object : ObjectType} {e : Edition}

/-- Settled suffixes go on as names do, and are longer than the word that no fragment may have for
a name. -/
theorem isName_append_suffix {type suffix : String} (htype : IsName type)
    (hsuffix : suffix ∈ settledSuffixes) : IsName (type ++ suffix) ∧ type ++ suffix ≠ "on" := by
  have hsuffixes : ∀ suffix ∈ settledSuffixes,
      suffix.toList.all Sdl.isNameChar = true ∧ 2 < suffix.length := by
    decide
  obtain ⟨hchars, hlength⟩ := hsuffixes suffix hsuffix
  refine ⟨htype.append (List.all_eq_true.mp hchars), fun hon => ?_⟩
  have htotal : (type ++ suffix).length = 2 := congrArg String.length hon
  rw [String.length_append] at htotal
  omega

theorem isWellNamed_edition {schema : String} (hts : ofText schema = .ok ts)
    (hobject : object ∈ ts.objectTypes) (hhas : ts.HasEdition config object e)
    (hname : IsName (ts.edition config object e).name)
    (hon : (ts.edition config object e).name ≠ "on") :
    (ts.edition config object e).IsWellNamed := by
  have hspread : ∀ s ∈ (ts.edition config object e).spreads, s.IsWellNamed := by
    intro s hs
    obtain ⟨target, htarget, suffix, hsuffix, heq⟩ :=
      fragmentName_of_mem_spreads (isSound_ofText hts) hobject hs
    obtain ⟨hspread, hne⟩ :=
      isName_append_suffix (isName_of_mem_objectTypes hts htarget) hsuffix
    exact ⟨heq ▸ hspread, heq ▸ hne⟩
  refine ⟨hname, hon, ?_, selections_edition_ne_nil hhas,
    madeOf_of_mem_edition (fun _ => isName_of_mem_fields hts hobject) hspread⟩
  rw [type_edition]
  exact isName_of_mem_objectTypes hts hobject

end TypeSystem

/-- If all fragments of a run have names of the grammar other than that of the type condition,
the document that the run writes can be read without a fault, and so can the fragments with blank
lines between them. -/
theorem parses_of_generate {schema : String} {tiers : Option TierConfig} {set : FragmentSet}
    (h : (generate schema tiers).result = .ok set)
    (hnames : ∀ f ∈ set.all, IsName f.name ∧ f.name ≠ "on") :
    (∃ text, set.output .singleDocument = .bundle text ∧ Sdl.Document.parse text = .ok []) ∧
      Sdl.Document.parse (String.intercalate "\n\n" (set.all.map Fragment.body)) = .ok [] := by
  obtain ⟨ts, hts, -, -, rfl⟩ := generate_eq_ok_iff.mp h
  have hwell : ∀ f ∈ (ts.emitted (tiers.getD .empty)).all, f.IsWellNamed := by
    intro f hf
    obtain ⟨hname, hon⟩ := hnames f hf
    obtain ⟨object, hobject, e, hhas, rfl⟩ := TypeSystem.mem_emitted_iff.mp hf
    exact TypeSystem.isWellNamed_edition hts (List.mem_filter.mp hobject).1 hhas hname hon
  refine ⟨⟨_, rfl, parse_of_spells_fragments hwell (spells_documentText hwell)⟩, ?_⟩
  exact parse_of_spells_fragments hwell (Sdl.spells_intercalate (Sdl.isGap_of_spaces (by simp))
    fun f hf => spells_body (hwell f hf))

/-- Types, fields and a tier whose names are keywords. -/
def wordySchema : String :=
  "type type { on: fragment! query: [type] } type fragment { fragment: ID type: type }"

def wordyTypes : TypeSystem where
  kinds := TypeSystem.builtinKinds ++ [("type", .object), ("fragment", .object)]
  objects :=
    [("type", [⟨"on", .nonNull (.named "fragment")⟩, ⟨"query", .list (.named "type")⟩]),
      ("fragment", [⟨"fragment", .named "ID"⟩, ⟨"type", .named "type"⟩])]
  roots := .conventional

def onTiers : TierConfig := [("type", [("Public", ["on"]), ("on", ["query"])])]

theorem parses_of_generate_keywords :
    ∃ set, (generate wordySchema (some onTiers)).result = .ok set ∧
      set.names =
        ["type", "fragment", "fragmentNoNesting", "typePublic", "typeon", "fragmentFull"] ∧
      (∃ text, set.output .singleDocument = .bundle text ∧ Sdl.Document.parse text = .ok []) ∧
        Sdl.Document.parse (String.intercalate "\n\n" (set.all.map Fragment.body)) = .ok [] := by
  have htypes : TypeSystem.ofText wordySchema = .ok wordyTypes :=
    eq_ok_of_toOption (by decide +kernel)
  have hrun : (generate wordySchema (some onTiers)).result = .ok (wordyTypes.emitted onTiers) :=
    generate_eq_ok_iff.mpr ⟨wordyTypes, htypes, by decide, by decide, rfl⟩
  exact ⟨_, hrun, by decide, parses_of_generate hrun (by decide)⟩

end GraphqlFragments
