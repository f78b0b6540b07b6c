import GraphqlFragments.Proofs.FilePaths
import GraphqlFragments.Proofs.Rendering
import GraphqlFragments.Proofs.Validity
/-!
# Cutting bundles apart

A module and a document hold the fragments of a set one after another, and the texts of these can
be cut out again. In a module each of them is all of a template literal, since no fragment has a
backtick in it. In a document they are the paragraphs under the titles of their groups: no line of a
fragment is blank, and none begins like a title. So two sets with the same bundle are the same, as
far as the bundle shows them: `output_eq_iff`.
-/

namespace GraphqlFragments

/-! ## Template literals -/

/-- Every second entry of a list. -/
def everySecond {α : Type} : List α → List α
  | _ :: a :: rest => a :: everySecond rest
  | _ => []

/-- The template literals of a module: what stands between a backtick and the next one. -/
def templateLiterals (text : String) : List String :=
  (everySecond (Text.split '\x60' text.toList)).map String.ofList

theorem templateLiterals_of_notMem {gap : String} (h : '\x60' ∉ gap.toList) :
    templateLiterals gap = [] := by
  rw [templateLiterals, Text.split_of_notMem h]
  rfl

theorem templateLiterals_append {gap literal : String} (hgap : '\x60' ∉ gap.toList)
    (hliteral : '\x60' ∉ literal.toList) (rest : String) :
    templateLiterals (gap ++ "\x60" ++ literal ++ "\x60" ++ rest) =
      literal :: templateLiterals rest := by
  have hchars : (gap ++ "\x60" ++ literal ++ "\x60" ++ rest).toList =
      gap.toList ++ '\x60' :: (literal.toList ++ '\x60' :: rest.toList) := by
    simp
  rw [templateLiterals, hchars, Text.split_append_mark, Text.split_append_mark,
    Text.split_of_notMem hgap, Text.split_of_notMem hliteral, List.singleton_append,
    List.singleton_append, everySecond, List.map_cons, String.ofList_toList]
  rfl

/-! ## Lines and paragraphs -/

/-- Lines, each with its end. -/
def ended (lines : List String) : String := String.join (lines.map (· ++ "\n"))

theorem ended_append (a b : List String) : ended (a ++ b) = ended a ++ ended b := by
  simp [ended, String.join_append]

theorem ended_cons (line : String) (lines : List String) :
    ended (line :: lines) = line ++ "\n" ++ ended lines := by
  simp [ended]

theorem notMem_ended {lines : List String} {c : Char} (hbreak : c ≠ '\n')
    (h : ∀ line ∈ lines, c ∉ line.toList) : c ∉ (ended lines).toList := by
  induction lines with
  | nil => exact List.not_mem_nil
  | cons line lines ih =>
      rw [List.forall_mem_cons] at h
      simp [ended_cons, h.1, ih h.2, hbreak]

theorem split_ended {lines : List String} (h : ∀ line ∈ lines, '\n' ∉ line.toList) :
    Text.split '\n' (ended lines).toList = lines.map String.toList ++ [[]] := by
  induction lines with
  | nil => rfl
  | cons line lines ih =>
      rw [List.forall_mem_cons] at h
      have hchars : (ended (line :: lines)).toList =
          line.toList ++ '\n' :: (ended lines).toList := by
        simp [ended_cons]
      rw [hchars, Text.split_append_mark, Text.split_of_notMem h.1, ih h.2]
      rfl

/-- The paragraphs of a text: its lines between blank ones. -/
def paragraphs (text : String) : List (List String) :=
  (((Text.split '\n' text.toList).map String.ofList).splitOn "").filter (· ≠ [])

/-- The lines of paragraphs with a blank one in front of each. -/
def spaced (ps : List (List String)) : List String := ps.flatMap ("" :: ·)

theorem intercalate_cons_eq {α : Type} (gap : α) (first : List α) (rest : List (List α)) :
    [gap].intercalate (first :: rest) = first ++ rest.flatMap (gap :: ·) := by
  induction rest generalizing first with
  | nil => simp
  | cons next rest ih => simp [List.intercalate_cons_cons, ih]

/-- Lines without a break, none of them blank. -/
structure IsParagraph (p : List String) : Prop where
  ne_nil : p ≠ []
  blank_notMem : "" ∉ p
  unbroken : ∀ line ∈ p, '\n' ∉ line.toList

theorem isParagraph_singleton {line : String} (hne : line ≠ "") (h : '\n' ∉ line.toList) :
    IsParagraph [line] :=
  ⟨List.cons_ne_nil _ _, by simpa using hne.symm, by simpa using h⟩

/-- Paragraphs are read back from a text that puts blank lines between them. -/
theorem paragraphs_ended {first : List String} {rest : List (List String)}
    (h : ∀ p ∈ first :: rest, IsParagraph p) :
    paragraphs (ended (first ++ spaced rest)) = first :: rest := by
  obtain ⟨hfirst, hrest⟩ := List.forall_mem_cons.mp h
  have hlines : ∀ line ∈ first ++ spaced rest, '\n' ∉ line.toList := by
    refine List.forall_mem_append.mpr ⟨hfirst.unbroken, fun line hline => ?_⟩
    obtain ⟨p, hp, hline⟩ := List.mem_flatMap.mp hline
    rcases List.mem_cons.mp hline with rfl | hline
    · exact List.not_mem_nil
    · exact (hrest p hp).unbroken line hline
  -- The last line has an end too, so the text splits into one paragraph more, without lines.
  have hsplit : (Text.split '\n' (ended (first ++ spaced rest)).toList).map String.ofList =
      [""].intercalate (first :: rest ++ [[]]) := by
    rw [split_ended hlines, List.cons_append, intercalate_cons_eq, List.flatMap_append]
    simp [spaced, Function.comp_def]
  have hblank : ∀ p ∈ first :: rest ++ [[]], "" ∉ p :=
    List.forall_mem_append.mpr ⟨fun p hp => (h p hp).blank_notMem, by simp⟩
  have hkept : (first :: rest).filter (· ≠ []) = first :: rest :=
    List.filter_eq_self.mpr fun p hp => by simpa using (h p hp).ne_nil
  rw [paragraphs, hsplit, List.splitOn_intercalate "" hblank (List.cons_ne_nil _ _),
    List.filter_append, hkept]
  exact List.append_nil _

/-! ## Chapters -/

/-- The line begins like a title. -/
def isComment (line : String) : Bool := line.toList.head? = some '#'

/-- The paragraphs after a title, up to the next title. -/
def paragraphsUnder (title : String) (ps : List (List String)) : List (List String) :=
  (ps.dropWhile (· ≠ ["# " ++ title])).tail.takeWhile fun p => !p.any isComment

/-- The texts under a title of a document. -/
def bodiesUnder (title text : String) : List String :=
  (paragraphsUnder title (paragraphs text)).map (String.intercalate "\n")

/-- The paragraphs of a group under its title. -/
def chapterParagraphs (title : String) (group : List Fragment) : List (List String) :=
  if group.isEmpty then [] else ["# " ++ title] :: group.map Fragment.lines

theorem isComment_title (title : String) : isComment ("# " ++ title) = true := by
  simp [isComment]

theorem paragraphsUnder_append {title : String} {before : List (List String)}
    (h : ∀ p ∈ before, p ≠ ["# " ++ title]) (rest : List (List String)) :
    paragraphsUnder title (before ++ rest) = paragraphsUnder title rest := by
  rw [paragraphsUnder, List.dropWhile_append_of_pos (by simpa using h), paragraphsUnder]

namespace Fragment

theorem not_isComment_of_mem_lines {f : Fragment} (h : f.IsNamed) :
    ∀ line ∈ f.lines, isComment line = false := by
  intro line hline
  have hmark : '#' ∉ line.toList := (isLine_of_mem h line hline).notMem (by decide)
  simpa [isComment] using fun hhead => hmark (List.mem_of_head? hhead)

theorem blank_notMem_lines (f : Fragment) : "" ∉ f.lines := by
  have hselection (s : Selection) : "" ∉ s.lines := by
    cases s <;> simp [Selection.lines, ← String.toList_inj]
  simp [lines, header, hselection, ← String.toList_inj]

theorem lines_ne_title {f : Fragment} (h : f.IsNamed) (title : String) :
    f.lines ≠ ["# " ++ title] := by
  intro heq
  have hline := not_isComment_of_mem_lines h ("# " ++ title) (by simp [heq])
  rw [isComment_title] at hline
  cases hline

theorem isParagraph_lines {f : Fragment} (h : f.IsNamed) : IsParagraph f.lines where
  ne_nil := by simp [lines]
  blank_notMem := f.blank_notMem_lines
  unbroken line hline := (isLine_of_mem h line hline).notMem (by decide)

/-- The text of a fragment and a line break are its lines with their ends. -/
theorem body_append_newline (f : Fragment) : f.body ++ "\n" = ended f.lines := by
  rw [body, lines, intercalate_concat, ended_append, String.append_assoc]
  rfl

theorem paragraph_eq (f : Fragment) : f.paragraph = ended ("" :: f.lines) := by
  rw [paragraph, ended_cons, ← body_append_newline]
  simp [String.append_assoc]

end Fragment

namespace FragmentSet

/-- The groups of a set with the titles that they have in a document. -/
def chapters (s : FragmentSet) : List (String × List Fragment) :=
  [("Default fragments", s.default), ("NoNesting fragments (relations omitted)", s.noRelations),
    ("Full fragments (nested relations spread recursively)", s.deep)]

theorem ended_spaced_lines (group : List Fragment) :
    ended (spaced (group.map Fragment.lines)) = String.join (group.map Fragment.paragraph) := by
  induction group with
  | nil => rfl
  | cons f group ih =>
      rw [List.map_cons, spaced, List.flatMap_cons, ended_append, ← f.paragraph_eq, ← spaced, ih,
        List.map_cons, String.join_cons]

theorem chapter_eq (title : String) (group : List Fragment) :
    chapter title group = ended (spaced (chapterParagraphs title group)) := by
  unfold chapter chapterParagraphs
  split
  · rfl
  · rw [spaced, List.flatMap_cons, ended_append, ← spaced, ended_spaced_lines]
    have hblank (t : String) : "\n# " ++ t = "" ++ "\n" ++ ("# " ++ t) := by
      rw [← String.append_assoc]
      rfl
    rw [hblank]
    simp [ended, String.append_assoc]

theorem documentText_eq (s : FragmentSet) :
    s.documentText = ended (["# " ++ banner] ++
      spaced (s.chapters.flatMap fun c => chapterParagraphs c.1 c.2)) := by
  have hbanner : "# " ++ banner ++ "\n" = ended ["# " ++ banner] := by
    simp [ended]
  simp only [documentText, hbanner, chapter_eq, chapters, spaced, List.flatMap_cons,
    List.flatMap_nil, List.flatMap_append, ended_append, List.append_nil, String.append_assoc]

end FragmentSet

section Chapters

variable {title : String} {group : List Fragment}
  {chapters before after : List (String × List Fragment)}

theorem forall_mem_chapterParagraphs {P : List String → Prop} (htitle : P ["# " ++ title])
    (hgroup : ∀ f ∈ group, P f.lines) : ∀ p ∈ chapterParagraphs title group, P p := by
  unfold chapterParagraphs
  split
  · exact fun p hp => nomatch hp
  · exact List.forall_mem_cons.mpr ⟨htitle, List.forall_mem_map.mpr hgroup⟩

/-- The fragments of all chapters have names of the grammar. -/
def AllNamed (chapters : List (String × List Fragment)) : Prop :=
  ∀ c ∈ chapters, ∀ f ∈ c.2, f.IsNamed

/-- A chapter ends where the next one begins. -/
theorem takeWhile_chapters (chapters : List (String × List Fragment)) :
    (chapters.flatMap fun c => chapterParagraphs c.1 c.2).takeWhile
      (fun p => !p.any isComment) = [] := by
  induction chapters with
  | nil => rfl
  | cons c chapters ih =>
      obtain ⟨title, group⟩ := c
      cases group with
      | nil => exact ih
      | cons f group =>
          refine List.takeWhile_cons_of_neg ?_
          simp [isComment_title]

/-- Other chapters do not have the title. -/
theorem paragraph_ne_title (hnamed : AllNamed chapters) (h : ∀ c ∈ chapters, c.1 ≠ title) :
    ∀ p ∈ chapters.flatMap fun c => chapterParagraphs c.1 c.2, p ≠ ["# " ++ title] := by
  intro p hp
  obtain ⟨c, hc, hp⟩ := List.mem_flatMap.mp hp
  refine forall_mem_chapterParagraphs (P := (· ≠ ["# " ++ title])) ?_ (fun f hf => ?_) p hp
  · simpa using h c hc
  · exact Fragment.lines_ne_title (hnamed c hc f hf) title

/-- A title finds its group, whatever other groups stand before it and behind it. -/
theorem paragraphsUnder_chapters (hnamed : AllNamed (before ++ (title, group) :: after))
    (hbefore : ∀ c ∈ before, c.1 ≠ title) (hafter : ∀ c ∈ after, c.1 ≠ title) :
    paragraphsUnder title ((before ++ (title, group) :: after).flatMap
      fun c => chapterParagraphs c.1 c.2) = group.map Fragment.lines := by
  obtain ⟨hfront, hrest⟩ := List.forall_mem_append.mp hnamed
  obtain ⟨hgroup, hback⟩ := List.forall_mem_cons.mp hrest
  rw [List.flatMap_append, paragraphsUnder_append (paragraph_ne_title hfront hbefore),
    List.flatMap_cons]
  cases group with
  | nil =>
      have hnone := paragraphsUnder_append (paragraph_ne_title hback hafter) []
      rw [List.append_nil] at hnone
      exact hnone
  | cons f group =>
      have hfragments : ∀ p ∈ (f :: group).map Fragment.lines, (!p.any isComment) = true := by
        refine List.forall_mem_map.mpr fun g hg => ?_
        simpa using Fragment.not_isComment_of_mem_lines (hgroup g hg)
      rw [chapterParagraphs, if_neg (by simp), paragraphsUnder, List.cons_append,
        List.dropWhile_cons_of_neg (by simp), List.tail_cons,
        List.takeWhile_append_of_pos hfragments, takeWhile_chapters, List.append_nil]

/-- If titles are unique, each of them finds its group. -/
theorem paragraphsUnder_of_mem (hnamed : AllNamed chapters)
    (htitles : (chapters.map Prod.fst).Nodup) (hc : (title, group) ∈ chapters) :
    paragraphsUnder title (chapters.flatMap fun c => chapterParagraphs c.1 c.2) =
      group.map Fragment.lines := by
  obtain ⟨before, after, rfl⟩ := List.append_of_mem hc
  rw [List.map_append, List.map_cons, List.nodup_middle, List.nodup_cons, List.mem_append,
    not_or] at htitles
  obtain ⟨⟨hbefore, hafter⟩, -⟩ := htitles
  refine paragraphsUnder_chapters hnamed ?_ ?_
  · rintro c hmem rfl
    exact hbefore (List.mem_map.mpr ⟨c, hmem, rfl⟩)
  · rintro c hmem rfl
    exact hafter (List.mem_map.mpr ⟨c, hmem, rfl⟩)

end Chapters

/-! ## The bundles of a set -/

/-- What fragments show of themselves: their names and their texts, in order. -/
def printed (fragments : List Fragment) : List (String × String) :=
  fragments.map fun f => (f.name, f.body)

namespace Fragment

/-- The text of a fragment has no characters but those of its lines. -/
theorem notMem_body {f : Fragment} (h : f.IsNamed) {c : Char} (hc : isLineChar c = false)
    (hbreak : c ≠ '\n') : c ∉ f.body.toList := by
  have hbody := notMem_ended hbreak fun line hline => (isLine_of_mem h line hline).notMem hc
  rw [← body_append_newline, String.toList_append, List.mem_append, not_or] at hbody
  exact hbody.1

theorem exportText_eq (f : Fragment) :
    f.exportText = "\nexport const " ++ f.name ++ "Fragment = " ++ "\x60" ++ f.body ++ "\x60" ++
      "\n" := by
  calc f.exportText
      = "\nexport const " ++ f.name ++ ("Fragment = " ++ "\x60") ++ f.body ++
          ("\x60" ++ "\n") := rfl
    _ = _ := by simp only [String.append_assoc]

/-- The text of a fragment tells its name. -/
theorem name_eq_of_body {f g : Fragment} (hf : f.IsNamed) (hg : g.IsNamed)
    (h : f.body = g.body) : f.name = g.name :=
  ((lines_eq_iff hf hg).mp ((body_eq_iff_lines_eq hf hg).mp h)).1

end Fragment

theorem printed_eq_iff {a b : List Fragment} (ha : ∀ f ∈ a, f.IsNamed)
    (hb : ∀ f ∈ b, f.IsNamed) :
    printed a = printed b ↔ a.map Fragment.body = b.map Fragment.body := by
  induction a generalizing b with
  | nil => cases b <;> simp [printed]
  | cons f a ih =>
      cases b with
      | nil => simp [printed]
      | cons g b =>
          rw [List.forall_mem_cons] at ha hb
          have hrest := ih ha.2 hb.2
          rw [printed, printed] at hrest
          rw [printed, printed, List.map_cons, List.map_cons, List.cons.injEq, hrest,
            List.map_cons, List.map_cons, List.cons.injEq, Prod.mk.injEq]
          have hname := Fragment.name_eq_of_body ha.1 hb.1
          tauto

/-- The template literals of exported fragments are their texts. -/
theorem templateLiterals_exports {fragments : List Fragment} (h : ∀ f ∈ fragments, f.IsNamed)
    {gap : String} (hgap : '\x60' ∉ gap.toList) :
    templateLiterals (gap ++ String.join (fragments.map Fragment.exportText)) =
      fragments.map Fragment.body := by
  -- The gap takes up the line break behind the literal before.
  induction fragments generalizing gap with
  | nil => simpa using templateLiterals_of_notMem hgap
  | cons f fragments ih =>
      rw [List.forall_mem_cons] at h
      have hname : '\x60' ∉ f.name.toList := h.1.name.notMem (by decide)
      have hfront : '\x60' ∉ (gap ++ "\nexport const " ++ f.name ++ "Fragment = ").toList := by
        simp [hgap, hname]
      have htext : gap ++ String.join ((f :: fragments).map Fragment.exportText) =
          gap ++ "\nexport const " ++ f.name ++ "Fragment = " ++ "\x60" ++ f.body ++ "\x60" ++
            ("\n" ++ String.join (fragments.map Fragment.exportText)) := by
        rw [List.map_cons, String.join_cons, f.exportText_eq]
        simp only [String.append_assoc]
      rw [htext, templateLiterals_append hfront (Fragment.notMem_body h.1 (by decide) (by decide)),
        ih h.2 (by decide), List.map_cons]

namespace FragmentSet

theorem templateLiterals_moduleText {s : FragmentSet} (h : ∀ f ∈ s.all, f.IsNamed) :
    templateLiterals s.moduleText = s.all.map Fragment.body :=
  templateLiterals_exports h (by decide)

theorem paragraphs_documentText {s : FragmentSet} (h : AllNamed s.chapters) :
    paragraphs s.documentText =
      ["# " ++ banner] :: s.chapters.flatMap fun c => chapterParagraphs c.1 c.2 := by
  have htitles : ∀ title ∈ banner :: s.chapters.map Prod.fst, IsParagraph ["# " ++ title] := by
    have hunbroken : ∀ title ∈ banner :: s.chapters.map Prod.fst,
        '\n' ∉ ("# " ++ title).toList := by
      simp only [chapters, List.map_cons, List.map_nil]
      decide
    exact fun title htitle => isParagraph_singleton (by simp) (hunbroken title htitle)
  rw [List.forall_mem_cons, List.forall_mem_map] at htitles
  rw [documentText_eq]
  refine paragraphs_ended (List.forall_mem_cons.mpr ⟨htitles.1, fun p hp => ?_⟩)
  obtain ⟨c, hc, hp⟩ := List.mem_flatMap.mp hp
  exact forall_mem_chapterParagraphs (htitles.2 c hc)
    (fun f hf => Fragment.isParagraph_lines (h c hc f hf)) p hp

/-- The titles of a document differ from each other and from its first line. -/
theorem nodup_titles (s : FragmentSet) : (banner :: s.chapters.map Prod.fst).Nodup := by
  simp only [chapters, List.map_cons, List.map_nil]
  decide

/-- Under each title of a document stand the texts of its group. -/
theorem bodiesUnder_documentText {s : FragmentSet} (h : AllNamed s.chapters) :
    ∀ c ∈ s.chapters, bodiesUnder c.1 s.documentText = c.2.map Fragment.body := by
  rintro ⟨title, group⟩ hc
  obtain ⟨hbanner, htitles⟩ := List.nodup_cons.mp s.nodup_titles
  have hfirst : ∀ p ∈ [["# " ++ banner]], p ≠ ["# " ++ title] := by
    have hne : banner ≠ title := fun heq => hbanner (heq ▸ List.mem_map_of_mem hc)
    simpa using hne
  rw [bodiesUnder, paragraphs_documentText h, ← List.singleton_append,
    paragraphsUnder_append hfirst, paragraphsUnder_of_mem h htitles hc, List.map_map]
  rfl

theorem chapter_congr (title : String) {a b : List Fragment}
    (h : a.map Fragment.body = b.map Fragment.body) : chapter title a = chapter title b := by
  have hparagraphs (group : List Fragment) : group.map Fragment.paragraph =
      (group.map Fragment.body).map fun body => "\n" ++ body ++ "\n" := by
    rw [List.map_map]
    rfl
  have hempty : a.isEmpty = b.isEmpty := by
    rw [← List.isEmpty_map (f := Fragment.body), h, List.isEmpty_map]
  rw [chapter, chapter, hempty, hparagraphs, h, ← hparagraphs]

theorem moduleText_congr {s t : FragmentSet} (h : printed s.all = printed t.all) :
    s.moduleText = t.moduleText := by
  have hexports (s : FragmentSet) : s.all.map Fragment.exportText = (printed s.all).map
      fun f => "\nexport const " ++ f.1 ++ "Fragment = \x60" ++ f.2 ++ "\x60\n" := by
    rw [printed, List.map_map]
    rfl
  rw [moduleText, moduleText, hexports, h, ← hexports]

theorem allNamed_chapters {s : FragmentSet} (h : ∀ f ∈ s.all, f.IsNamed) :
    AllNamed s.chapters := by
  simp only [all, List.forall_mem_append] at h
  obtain ⟨⟨hdefault, hnoRelations⟩, hdeep⟩ := h
  simp only [AllNamed, chapters, List.forall_mem_cons]
  exact ⟨hdefault, hnoRelations, hdeep, List.forall_mem_nil _⟩

/-- Documents are the same exactly if their groups have the same texts. -/
theorem documentText_eq_iff {s t : FragmentSet} (hs : AllNamed s.chapters)
    (ht : AllNamed t.chapters) :
    s.documentText = t.documentText ↔
      s.default.map Fragment.body = t.default.map Fragment.body ∧
      s.noRelations.map Fragment.body = t.noRelations.map Fragment.body ∧
      s.deep.map Fragment.body = t.deep.map Fragment.body := by
  constructor
  · intro h
    have hbodies := bodiesUnder_documentText hs
    have hbodies' := bodiesUnder_documentText ht
    rw [h] at hbodies
    simp only [chapters, List.forall_mem_cons] at hbodies hbodies'
    obtain ⟨hdefault, hnoRelations, hdeep, -⟩ := hbodies
    obtain ⟨hdefault', hnoRelations', hdeep', -⟩ := hbodies'
    exact ⟨hdefault.symm.trans hdefault', hnoRelations.symm.trans hnoRelations',
      hdeep.symm.trans hdeep'⟩
  · rintro ⟨hdefault, hnoRelations, hdeep⟩
    rw [documentText, documentText, chapter_congr _ hdefault, chapter_congr _ hnoRelations,
      chapter_congr _ hdeep]

/-- Two sets whose fragments have names of the grammar are written as the same document exactly if
their groups show the same names and texts in the same order, and as the same module exactly if
all their fragments in a row do. The texts can be cut out of both: under the title of a group of the
document stand those of the group, and the template literals of the module are those of all
fragments. These stand for themselves, since nothing is escaped or substituted in them. -/
theorem output_eq_iff {s t : FragmentSet} (hs : ∀ f ∈ s.all, f.IsNamed)
    (ht : ∀ f ∈ t.all, f.IsNamed) :
    (s.output .singleDocument = t.output .singleDocument ↔
      printed s.default = printed t.default ∧ printed s.noRelations = printed t.noRelations ∧
        printed s.deep = printed t.deep) ∧
    (s.output .sourceModule = t.output .sourceModule ↔ printed s.all = printed t.all) ∧
    (∃ text, s.output .singleDocument = .bundle text ∧
      ∀ c ∈ s.chapters, bodiesUnder c.1 text = c.2.map Fragment.body) ∧
    ∃ text, s.output .sourceModule = .bundle text ∧
      templateLiterals text = s.all.map Fragment.body ∧
      ∀ f ∈ s.all, '\\' ∉ f.body.toList ∧ '$' ∉ f.body.toList := by
  have hchapters := allNamed_chapters hs
  have hchapters' := allNamed_chapters ht
  have hliterals := templateLiterals_moduleText hs
  refine ⟨?_, ⟨fun h => ?_, fun h => ?_⟩, ⟨_, rfl, bodiesUnder_documentText hchapters⟩,
    ⟨_, rfl, hliterals, fun f hf => ?_⟩⟩
  · have hdocument : s.output .singleDocument = t.output .singleDocument ↔
        s.documentText = t.documentText := by
      rw [output, output, Output.bundle.injEq]
    simp only [AllNamed, chapters, List.forall_mem_cons] at hchapters hchapters'
    rw [hdocument, documentText_eq_iff (allNamed_chapters hs) (allNamed_chapters ht),
      printed_eq_iff hchapters.1 hchapters'.1, printed_eq_iff hchapters.2.1 hchapters'.2.1,
      printed_eq_iff hchapters.2.2.1 hchapters'.2.2.1]
  · have htext : s.moduleText = t.moduleText := Output.bundle.inj h
    rw [printed_eq_iff hs ht, ← hliterals, htext, templateLiterals_moduleText ht]
  · exact congrArg Output.bundle (moduleText_congr h)
  · exact ⟨Fragment.notMem_body (hs f hf) (by decide) (by decide),
      Fragment.notMem_body (hs f hf) (by decide) (by decide)⟩

def catSet : FragmentSet := ⟨[.catCard], [], [⟨"CatEmpty", "Cat", []⟩]⟩

/-- The same fragments as far as they are shown, the first one in another group. -/
def catSetAgain : FragmentSet := ⟨[], [.catCardAgain], [⟨"CatEmpty", "Cat", []⟩]⟩

theorem output_eq_iff_cats :
    (∀ f ∈ catSet.all, f.IsNamed) ∧ (∀ f ∈ catSetAgain.all, f.IsNamed) ∧
      catSet.output .sourceModule = catSetAgain.output .sourceModule ∧
      catSet.output .singleDocument ≠ catSetAgain.output .singleDocument := by
  have hnamed : ∀ f ∈ catSet.all, f.IsNamed := by decide
  have hagain : ∀ f ∈ catSetAgain.all, f.IsNamed := by decide
  obtain ⟨hdocument, hmodule, -⟩ := output_eq_iff hnamed hagain
  refine ⟨hnamed, hagain, hmodule.mpr (by decide), fun h => ?_⟩
  obtain ⟨hdefault, -⟩ := hdocument.mp h
  exact List.cons_ne_nil _ _ hdefault

end FragmentSet

end GraphqlFragments
