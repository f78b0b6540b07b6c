import GraphqlFragments.Proofs.Vocabulary
/-!
# Reading fragments back

The text of a fragment says under which name and on which type it stands and what it selects, and
it says this in one way only. No line has a line break in it, so the text has the lines of the
fragment. The first line of a selection tells its form and with it how many lines follow, so the
lines of many selections in a row come apart again. The main statement is `body_eq_iff_agrees`.
-/

namespace GraphqlFragments

open Sdl (IsName)

/-! ## Fragments with names of the grammar -/

/-- The target has a name of the grammar, and the suffix goes on as names do. -/
structure Spread.IsNamed (s : Spread) : Prop where
  type : IsName s.type
  suffix : ∀ c ∈ s.suffix.text.toList, Sdl.isNameChar c = true

theorem Spread.IsNamed.isName_fragmentName {s : Spread} (h : s.IsNamed) :
    IsName s.fragmentName :=
  h.type.append h.suffix

instance : DecidablePred Spread.IsNamed := fun s =>
  decidable_of_iff (IsName s.type ∧ s.suffix.text.toList.all Sdl.isNameChar = true)
    ⟨fun h => ⟨h.1, List.all_eq_true.mp h.2⟩, fun h => ⟨h.type, List.all_eq_true.mpr h.suffix⟩⟩

namespace Selection

/-- All names in the selection are those of the grammar. -/
def IsNamed : Selection → Prop := MadeOf IsName Spread.IsNamed

instance : DecidablePred IsNamed := fun s =>
  match s with
  | field name => inferInstanceAs (Decidable (IsName name))
  | nested name s => inferInstanceAs (Decidable (IsName name ∧ s.IsNamed))
  | spread s => inferInstanceAs (Decidable s.IsNamed)

/-- Two selections of one form, with the same field and the same name in their spreads. -/
def Agrees : Selection → Selection → Prop
  | field a, field b => a = b
  | nested a s, nested b t => a = b ∧ s.fragmentName = t.fragmentName
  | spread s, spread t => s.fragmentName = t.fragmentName
  | _, _ => False

end Selection

/-- All names in the fragment are those of the grammar. It need not select anything. -/
structure Fragment.IsNamed (f : Fragment) : Prop where
  name : IsName f.name
  type : IsName f.type
  selections : ∀ s ∈ f.selections, s.IsNamed

instance : DecidablePred Fragment.IsNamed := fun f =>
  decidable_of_iff (IsName f.name ∧ IsName f.type ∧ ∀ s ∈ f.selections, s.IsNamed)
    ⟨fun h => ⟨h.1, h.2.1, h.2.2⟩, fun h => ⟨h.name, h.type, h.selections⟩⟩

/-! ## The characters of a line -/

def isLineChar (c : Char) : Bool := Sdl.isNameChar c || [' ', '.', '{', '}'].contains c

/-- The text is made of characters of names, spaces, points and braces. -/
def IsLine (text : String) : Prop := ∀ c ∈ text.toList, isLineChar c = true

instance : DecidablePred IsLine := fun text =>
  decidable_of_iff (text.toList.all isLineChar = true) List.all_eq_true

theorem IsLine.append {a b : String} (ha : IsLine a) (hb : IsLine b) : IsLine (a ++ b) := by
  intro c hc
  rw [String.toList_append, List.mem_append] at hc
  exact hc.elim (ha c) (hb c)

theorem isLine_of_isName {s : String} (h : IsName s) : IsLine s := by
  intro c hc
  rw [isLineChar, h.isNameChar hc, Bool.true_or]

theorem IsLine.notMem {text : String} (h : IsLine text) {c : Char} (hc : isLineChar c = false) :
    c ∉ text.toList := by
  intro hmem
  rw [h c hmem] at hc
  cases hc

theorem isLine_toText {s : Spread} (h : s.IsNamed) : IsLine s.toText :=
  IsLine.append (by decide) (isLine_of_isName h.isName_fragmentName)

theorem isLine_of_mem_lines {s : Selection} (h : s.IsNamed) : ∀ line ∈ s.lines, IsLine line := by
  cases s with
  | field name =>
      rw [Selection.lines, List.forall_mem_singleton]
      exact IsLine.append (by decide) (isLine_of_isName h)
  | spread s =>
      rw [Selection.lines, List.forall_mem_singleton]
      exact IsLine.append (by decide) (isLine_toText h)
  | nested name s =>
      rw [Selection.lines, List.forall_mem_cons, List.forall_mem_cons, List.forall_mem_singleton]
      refine ⟨IsLine.append (IsLine.append (by decide) (isLine_of_isName h.1)) (by decide), ?_,
        by decide⟩
      exact IsLine.append (by decide) (isLine_toText h.2)

namespace Fragment

theorem isLine_header {f : Fragment} (h : f.IsNamed) : IsLine f.header :=
  IsLine.append (IsLine.append (IsLine.append (IsLine.append (by decide)
    (isLine_of_isName h.name)) (by decide)) (isLine_of_isName h.type)) (by decide)

theorem isLine_of_mem {f : Fragment} (h : f.IsNamed) : ∀ line ∈ f.lines, IsLine line := by
  rw [lines, List.forall_mem_append, List.forall_mem_cons, List.forall_mem_singleton]
  refine ⟨⟨isLine_header h, fun line hline => ?_⟩, by decide⟩
  obtain ⟨s, hs, hline⟩ := List.mem_flatMap.mp hline
  exact isLine_of_mem_lines (h.selections s hs) line hline

/-- The lines of a fragment can be read off its text. -/
theorem splitOn_body {f : Fragment} (h : f.IsNamed) :
    f.body.toList.splitOn '\n' = f.lines.map String.toList := by
  rw [body, String.toList_intercalate]
  refine List.splitOn_intercalate '\n' (List.forall_mem_map.mpr fun line hline => ?_)
    (by simp [lines])
  exact (isLine_of_mem h line hline).notMem (by decide)

theorem body_eq_iff_lines_eq {f g : Fragment} (hf : f.IsNamed) (hg : g.IsNamed) :
    f.body = g.body ↔ f.lines = g.lines := by
  refine ⟨fun h => ?_, fun h => congrArg (String.intercalate "\n") h⟩
  have hlines : f.lines.map String.toList = g.lines.map String.toList := by
    rw [← splitOn_body hf, ← splitOn_body hg, h]
  exact List.map_injective_iff.mpr (fun _ _ => String.toList_injective) hlines

end Fragment

/-! ## Selections by their lines -/

namespace Selection

/-- Only the first line of a relation ends with a brace. -/
theorem ne_opening {text : String} (h : '{' ∉ text.toList) (name : String) :
    "  " ++ text ≠ "  " ++ name ++ " \x7b" := by
  intro heq
  rw [String.append_assoc, String.append_right_inj] at heq
  rw [heq] at h
  simp at h

/-- Only a spread begins with points. -/
theorem ne_toText {name : String} (h : IsName name) (s : Spread) : name ≠ s.toText := by
  intro heq
  have hpoint : '.' ∉ name.toList := h.notMem (by decide)
  rw [heq, Spread.toText] at hpoint
  simp at hpoint

theorem brace_notMem_toText {s : Spread} (h : s.IsNamed) : '{' ∉ s.toText.toList := by
  have hname : '{' ∉ s.fragmentName.toList := h.isName_fragmentName.notMem (by decide)
  simp [Spread.toText, hname]

/-- The lines of a selection come apart from what follows, and say what the selection is. -/
theorem lines_append_eq_iff {s t : Selection} (hs : s.IsNamed) (ht : t.IsNamed)
    {rest rest' : List String} :
    s.lines ++ rest = t.lines ++ rest' ↔ s.Agrees t ∧ rest = rest' := by
  have hbrace {name : String} (h : IsName name) : '{' ∉ name.toList := h.notMem (by decide)
  cases s with
  | field a =>
      cases t with
      | field b => simp [lines, Agrees]
      | nested b t => simp [lines, Agrees, ne_opening (hbrace hs) b]
      | spread t => simp [lines, Agrees, ne_toText hs t]
  | nested a s =>
      cases t with
      | field b => simp [lines, Agrees, (ne_opening (hbrace ht) a).symm]
      | nested b t => simp [lines, Agrees, Spread.toText, and_assoc]
      | spread t => simp [lines, Agrees, (ne_opening (brace_notMem_toText ht) a).symm]
  | spread s =>
      cases t with
      | field b => simp [lines, Agrees, (ne_toText ht s).symm]
      | nested b t => simp [lines, Agrees, ne_opening (brace_notMem_toText hs) b]
      | spread t => simp [lines, Agrees, Spread.toText]

theorem lines_ne_nil (s : Selection) : s.lines ≠ [] := by
  cases s <;> exact List.cons_ne_nil _ _

/-- Two lists of selections have the same lines exactly if they agree place by place. -/
theorem flatMap_lines_eq_iff {a b : List Selection} (ha : ∀ s ∈ a, s.IsNamed)
    (hb : ∀ s ∈ b, s.IsNamed) :
    a.flatMap lines = b.flatMap lines ↔ List.Forall₂ Agrees a b := by
  induction a generalizing b with
  | nil =>
      cases b with
      | nil => simp
      | cons t b => simp [lines_ne_nil t]
  | cons s a ih =>
      cases b with
      | nil => simp [lines_ne_nil s]
      | cons t b =>
          rw [List.forall_mem_cons] at ha hb
          rw [List.flatMap_cons, List.flatMap_cons, lines_append_eq_iff ha.1 hb.1,
            ih ha.2 hb.2, List.forall₂_cons]

end Selection

/-! ## Fragments by their texts -/

namespace Fragment

/-- The words of a header can be read off its text. -/
theorem splitOn_header {f : Fragment} (h : f.IsNamed) :
    f.header.toList.splitOn ' ' =
      ["fragment", f.name, "on", f.type, "\x7b"].map String.toList := by
  have hspace {name : String} (h : IsName name) : ' ' ∉ name.toList := h.notMem (by decide)
  have hheader : f.header = String.intercalate " " ["fragment", f.name, "on", f.type, "\x7b"] := by
    simp [header_eq, String.intercalate_cons_cons, String.append_assoc]
  rw [hheader, String.toList_intercalate]
  refine List.splitOn_intercalate ' ' (List.forall_mem_map.mpr ?_) (by simp)
  simp [hspace h.name, hspace h.type]

theorem header_eq_iff {f g : Fragment} (hf : f.IsNamed) (hg : g.IsNamed) :
    f.header = g.header ↔ f.name = g.name ∧ f.type = g.type := by
  constructor
  · intro h
    have hwords := splitOn_header hf
    rw [h, splitOn_header hg] at hwords
    simpa [String.toList_inj, eq_comm] using hwords
  · rintro ⟨hname, htype⟩
    rw [header, header, hname, htype]

theorem lines_eq_iff {f g : Fragment} (hf : f.IsNamed) (hg : g.IsNamed) :
    f.lines = g.lines ↔ f.name = g.name ∧ f.type = g.type ∧
      List.Forall₂ Selection.Agrees f.selections g.selections := by
  rw [lines, lines, List.append_cancel_right_eq, List.cons.injEq, header_eq_iff hf hg,
    Selection.flatMap_lines_eq_iff hf.selections hg.selections, and_assoc]

/-- The texts of two fragments are the same exactly if the fragments have the same name, are on the
same type, and select the same, place by place: in the same form, of the same field, and with the
same name in the spread. -/
theorem body_eq_iff_agrees {f g : Fragment} (hf : f.IsNamed) (hg : g.IsNamed) :
    f.body = g.body ↔ f.name = g.name ∧ f.type = g.type ∧
      List.Forall₂ Selection.Agrees f.selections g.selections :=
  (body_eq_iff_lines_eq hf hg).trans (lines_eq_iff hf hg)

/-- Selections of every form. -/
def catCard : Fragment :=
  ⟨"CatCard", "Cat",
    [.spread ⟨"Cat", .tier "PublicListing"⟩, .nested "name" ⟨"Cat", .noNesting⟩, .field "name",
      .nested "mother" ⟨"Cat", .full⟩, .field "mother"]⟩

/-- Spreads the same names, put together from other types and suffixes. -/
def catCardAgain : Fragment :=
  ⟨"CatCard", "Cat",
    [.spread ⟨"CatPublic", .tier "Listing"⟩, .nested "name" ⟨"CatNo", .tier "Nesting"⟩,
      .field "name", .nested "mother" ⟨"CatFull", .tier ""⟩, .field "mother"]⟩

/-- Selects the same fields, some of them in another form. -/
def catCardBare : Fragment :=
  ⟨"CatCard", "Cat",
    [.spread ⟨"Cat", .tier "PublicListing"⟩, .field "name", .nested "name" ⟨"Cat", .noNesting⟩,
      .nested "mother" ⟨"Cat", .full⟩, .field "mother"]⟩

theorem body_eq_iff_agrees_cats :
    catCard.IsNamed ∧ catCardAgain.IsNamed ∧ catCardBare.IsNamed ∧ catCard ≠ catCardAgain ∧
      catCard.body = catCardAgain.body ∧ catCard.body ≠ catCardBare.body := by
  have hcard : catCard.IsNamed := by decide
  have hagain : catCardAgain.IsNamed := by decide
  have hbare : catCardBare.IsNamed := by decide
  refine ⟨hcard, hagain, hbare, by decide, ?_, fun h => ?_⟩
  · refine (body_eq_iff_agrees hcard hagain).mpr ⟨rfl, rfl, ?_⟩
    exact .cons rfl (.cons ⟨rfl, rfl⟩ (.cons rfl (.cons ⟨rfl, rfl⟩ (.cons rfl .nil))))
  · obtain ⟨-, -, hselections⟩ := (body_eq_iff_agrees hcard hbare).mp h
    exact (List.forall₂_cons.mp (List.forall₂_cons.mp hselections).2).1

end Fragment

end GraphqlFragments
