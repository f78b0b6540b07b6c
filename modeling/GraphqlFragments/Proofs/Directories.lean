import GraphqlFragments.Proofs.FilePaths
import Mathlib.Data.List.DropRight
/-!
# Names in directories

The directory of a path has the components before the last one, so it is the one that the last name
has been joined to, up to parts that do not count. A name with slashes leads to the folder that
stands before the last of them, so what is joined to a directory is a child of it exactly if that
folder leads back there.
-/

namespace GraphqlFragments

namespace FilePath

open Letter (slash point)

variable {p q dir base wd : FilePath} {leaf : String}

/-! ## The directory of a path -/

theorem pieces_of_parts {first : List Letter} {more : List (List Letter)}
    (h : p.parts = first :: more) : p.pieces = ⟨first, firstComponent? p.isAbsolute first⟩ ::
      more.map fun part => ⟨part, component? part⟩ := by
  rw [pieces, h]

theorem component?_of_firstComponent? {isAbsolute : Bool} {part : List Letter}
    (h : firstComponent? isAbsolute part = none) : component? part = none := by
  unfold firstComponent? at h
  split at h
  · cases h
  · split at h
    · cases h
    · exact h

/-- A piece without a component does not count elsewhere in a path either. -/
theorem component?_part_of_mem_pieces {piece : Piece} (hpiece : piece ∈ p.pieces)
    (h : piece.component = none) : component? piece.part = none := by
  obtain ⟨first, more, hparts⟩ := p.exists_parts_eq_cons
  rw [pieces_of_parts hparts] at hpiece
  rcases List.mem_cons.mp hpiece with rfl | hpiece
  · exact component?_of_firstComponent? h
  · obtain ⟨part, -, rfl⟩ := List.mem_map.mp hpiece
    exact h

theorem map_part_pieces (p : FilePath) : p.pieces.map Piece.part = p.parts := by
  obtain ⟨first, more, hparts⟩ := p.exists_parts_eq_cons
  rw [pieces_of_parts hparts, hparts, List.map_cons, List.map_map]
  exact congrArg (first :: ·) (List.map_id more)

theorem slash_notMem_of_mem_pieces {piece : Piece} (hpiece : piece ∈ p.pieces) :
    slash ∉ piece.part := by
  apply Text.notMem_of_mem_split
  show piece.part ∈ p.parts
  rw [← map_part_pieces]
  exact List.mem_map_of_mem hpiece

/-- Pieces without components at the end make no difference to the components of the texts. -/
theorem filterMap_part_dropBlankEnd {pieces : List Piece}
    (hblank : ∀ piece ∈ pieces, piece.component = none → component? piece.part = none) :
    ((dropBlankEnd pieces).map Piece.part).filterMap component? =
      (pieces.map Piece.part).filterMap component? := by
  obtain ⟨ending, hending⟩ := dropBlankEnd_prefix pieces
  have hkept := filterMap_dropBlankEnd pieces
  have hnone : ending.filterMap Piece.component = [] := by
    have hall := congrArg (List.filterMap Piece.component) hending
    rw [List.filterMap_append, hkept] at hall
    exact List.append_right_eq_self.mp hall
  have hendingParts : (ending.map Piece.part).filterMap component? = [] := by
    rw [List.filterMap_map, List.filterMap_eq_nil_iff]
    intro piece hpiece
    have hmem : piece ∈ pieces := hending ▸ List.mem_append_right _ hpiece
    exact hblank piece hmem (List.filterMap_eq_nil_iff.mp hnone piece hpiece)
  calc ((dropBlankEnd pieces).map Piece.part).filterMap component?
      = ((dropBlankEnd pieces ++ ending).map Piece.part).filterMap component? := by
        rw [List.map_append, List.filterMap_append, hendingParts, List.append_nil]
    _ = (pieces.map Piece.part).filterMap component? := by rw [hending]

theorem isSome_of_dropBlank {pieces before : List Piece} {last : Piece}
    (h : dropBlank pieces = last :: before) : last.component.isSome := by
  apply isSome_of_head?_dropBlank
  rw [h]
  rfl

/-- Behind the last piece that counts there are only blank ones. -/
theorem exists_last_piece {pieces : List Piece} (h : pieces.filterMap Piece.component ≠ []) :
    ∃ front last blanks, pieces = front ++ last :: blanks ∧ last.component.isSome ∧
      (∀ piece ∈ blanks, piece.component = none) ∧
      dropBlank pieces.reverse = last :: front.reverse := by
  obtain ⟨last, before, hkept⟩ : ∃ last before, dropBlank pieces.reverse = last :: before := by
    refine List.exists_cons_of_ne_nil fun hnil => h ?_
    have hcomponents := filterMap_dropBlank pieces.reverse
    rw [hnil, List.filterMap_reverse] at hcomponents
    simpa using hcomponents.symm
  let blank := fun piece : Piece => piece.component.isNone
  have hsplit : pieces.reverse.takeWhile blank ++ last :: before = pieces.reverse := by
    rw [← hkept]
    exact List.takeWhile_append_dropWhile
  refine ⟨before.reverse, last, (pieces.reverse.takeWhile blank).reverse, ?_, ?_, ?_, ?_⟩
  · have hpieces := congrArg List.reverse hsplit
    simpa using hpieces.symm
  · exact isSome_of_dropBlank hkept
  · intro piece hpiece
    have hblank := List.mem_takeWhile_imp (List.mem_reverse.mp hpiece)
    simpa [blank] using hblank
  · rw [hkept, List.reverse_reverse]

/-- The directory of a path ends before the last piece that counts. -/
theorem dir_eq {last : Piece} {before : List Piece}
    (h : dropBlank p.pieces.reverse = last :: before) (hroot : last.component ≠ some .root) :
    p.dir = ofPieces (dropBlankEnd before.reverse) := by
  rw [dir, parent?, h, dropBlankEnd, List.reverse_reverse]
  simp only [if_neg hroot, Option.getD_some]

theorem firstComponent?_eq_root_iff {isAbsolute : Bool} {part : List Letter} :
    firstComponent? isAbsolute part = some .root ↔ isAbsolute = true := by
  unfold firstComponent?
  cases isAbsolute with
  | true => simp
  | false =>
      rw [if_neg Bool.false_ne_true]
      split
      · simp
      · simpa using component?_ne_root part

theorem isAbsolute_iff_of_parts {first : List Letter} {more : List (List Letter)}
    (h : p.parts = first :: more) : p.isAbsolute = true ↔ first = [] ∧ more ≠ [] := by
  rw [isAbsolute_iff_parts, h]
  cases more <;> simp

/-- The text of pieces that begin as those of a path do is a path of the same kind. -/
theorem ofPieces_cons_spec {isAbsolute : Bool} {first : List Letter} {rest : List Piece}
    (hfirst : isAbsolute = true ↔ first = []) (hslash : slash ∉ first)
    (hslashes : ∀ piece ∈ rest, slash ∉ piece.part) :
    (ofPieces (⟨first, firstComponent? isAbsolute first⟩ :: rest)).isAbsolute = isAbsolute ∧
      (ofPieces (⟨first, firstComponent? isAbsolute first⟩ :: rest)).inner =
        (first :: rest.map Piece.part).filterMap component? := by
  by_cases hroot : isAbsolute = true ∧ rest = []
  · obtain ⟨rfl, rfl⟩ := hroot
    rw [hfirst.mp rfl]
    show (⟨"/"⟩ : FilePath).isAbsolute = true ∧ (⟨"/"⟩ : FilePath).inner = []
    decide
  · have hparts : (ofPieces (⟨first, firstComponent? isAbsolute first⟩ :: rest)).parts =
        first :: rest.map Piece.part := by
      refine parts_ofPieces (List.cons_ne_nil _ rest) (fun text hsame => hroot ?_)
        (List.forall_mem_cons.mpr ⟨hslash, hslashes⟩)
      obtain ⟨hpiece, hnil⟩ := List.cons.inj hsame
      exact ⟨firstComponent?_eq_root_iff.mp (congrArg Piece.component hpiece), hnil⟩
    refine ⟨?_, by rw [inner, hparts]⟩
    rw [Bool.eq_iff_iff, isAbsolute_iff_of_parts hparts, hfirst]
    refine and_iff_left_of_imp fun hempty hnil => hroot ?_
    exact ⟨hfirst.mpr hempty, List.map_eq_nil_iff.mp hnil⟩

/-- Blank pieces at the end make no difference to such a text. -/
theorem ofPieces_dropBlankEnd_spec {isAbsolute : Bool} {first : List Letter}
    {rest pieces : List Piece}
    (hpieces : pieces = ⟨first, firstComponent? isAbsolute first⟩ :: rest)
    (hfirst : isAbsolute = true ↔ first = []) (hslash : ∀ piece ∈ pieces, slash ∉ piece.part)
    (hblank : ∀ piece ∈ pieces, piece.component = none → component? piece.part = none) :
    (ofPieces (dropBlankEnd pieces)).isAbsolute = isAbsolute ∧
      (ofPieces (dropBlankEnd pieces)).inner = (pieces.map Piece.part).filterMap component? := by
  rw [← filterMap_part_dropBlankEnd hblank]
  have hbegins : dropBlankEnd pieces <+: pieces := dropBlankEnd_prefix pieces
  cases hkept : dropBlankEnd pieces with
  | nil =>
      refine ⟨?_, rfl⟩
      show false = isAbsolute
      rw [eq_comm, Bool.eq_false_iff]
      intro hroot
      -- The root is not blank.
      have hcomponents := filterMap_dropBlankEnd pieces
      rw [hkept, hpieces, hroot] at hcomponents
      cases hcomponents
  | cons kept more =>
      rw [hkept] at hbegins
      have hslashes : ∀ piece ∈ kept :: more, slash ∉ piece.part := fun piece hpiece =>
        hslash piece (hbegins.subset hpiece)
      rw [List.forall_mem_cons] at hslashes
      rw [hpieces, List.cons_prefix_cons] at hbegins
      obtain ⟨rfl, -⟩ := hbegins
      exact ofPieces_cons_spec hfirst hslashes.1 hslashes.2

section LastPiece

variable {front blanks : List Piece} {last : Piece} (hpieces : p.pieces = front ++ last :: blanks)

include hpieces in
theorem inner_of_pieces (hblanks : ∀ piece ∈ blanks, piece.component = none) :
    p.inner = (front.map Piece.part).filterMap component? ++ (component? last.part).toList := by
  have hnone : (blanks.map Piece.part).filterMap component? = [] := by
    rw [List.filterMap_map, List.filterMap_eq_nil_iff]
    intro piece hpiece
    have hmem : piece ∈ p.pieces := by
      rw [hpieces]
      exact List.mem_append_right _ (List.mem_cons_of_mem _ hpiece)
    exact component?_part_of_mem_pieces hmem (hblanks piece hpiece)
  rw [inner, ← map_part_pieces, hpieces, List.map_append, List.map_cons, List.filterMap_append,
    List.filterMap_cons, hnone]
  cases component? last.part <;> rfl

include hpieces in
/-- If there is more to a path than its start, its last piece that counts would do so anywhere, and
there is something before it if the path is absolute. -/
theorem last_piece_spec (h : p.inner ≠ []) (hblanks : ∀ piece ∈ blanks, piece.component = none)
    (hlast : last.component.isSome) :
    (∃ c, component? last.part = some c) ∧ last.component ≠ some .root ∧
      (front = [] → p.isAbsolute = false) := by
  obtain ⟨part, parts, hparts⟩ := p.exists_parts_eq_cons
  have hfirst := hpieces.symm.trans (pieces_of_parts hparts)
  cases front with
  | nil =>
      obtain ⟨rfl, -⟩ := List.cons.inj hfirst
      obtain ⟨c, hc⟩ : ∃ c, component? part = some c := by
        refine Option.ne_none_iff_exists'.mp fun hnone => h ?_
        rw [inner_of_pieces hpieces hblanks, hnone]
        rfl
      have hrelative : p.isAbsolute = false := by
        rw [Bool.eq_false_iff, Ne, isAbsolute_iff_of_parts hparts]
        rintro ⟨rfl, -⟩
        cases hc
      refine ⟨⟨c, hc⟩, ?_, fun _ => hrelative⟩
      rw [Ne, firstComponent?_eq_root_iff, hrelative]
      exact Bool.false_ne_true
  | cons first more =>
      have hmem : last ∈ parts.map fun part => Piece.mk part (component? part) := by
        rw [← (List.cons.inj hfirst).2]
        exact List.mem_append_right _ List.mem_cons_self
      obtain ⟨text, -, rfl⟩ := List.mem_map.mp hmem
      exact ⟨Option.isSome_iff_exists.mp hlast, component?_ne_root text, nofun⟩

include hpieces in
/-- The pieces before another one make a path of the same kind. -/
theorem ofPieces_front_spec (hfront : front = [] → p.isAbsolute = false) :
    (ofPieces (dropBlankEnd front)).isAbsolute = p.isAbsolute ∧
      (ofPieces (dropBlankEnd front)).inner = (front.map Piece.part).filterMap component? := by
  obtain ⟨part, parts, hparts⟩ := p.exists_parts_eq_cons
  have hfirst := hpieces.symm.trans (pieces_of_parts hparts)
  cases front with
  | nil =>
      rw [hfront rfl]
      exact ⟨rfl, rfl⟩
  | cons first more =>
      obtain ⟨rfl, hmore⟩ := List.cons.inj hfirst
      have hne : parts ≠ [] := by
        rintro rfl
        simp at hmore
      have habsolute : p.isAbsolute = true ↔ part = [] := by
        rw [isAbsolute_iff_of_parts hparts, and_iff_left hne]
      have hbegins : (⟨part, firstComponent? p.isAbsolute part⟩ :: more : List Piece) <+:
          p.pieces := ⟨_, hpieces.symm⟩
      apply ofPieces_dropBlankEnd_spec rfl habsolute
      · intro piece hpiece
        exact slash_notMem_of_mem_pieces (hbegins.subset hpiece)
      · intro piece hpiece
        exact component?_part_of_mem_pieces (hbegins.subset hpiece)

end LastPiece

/-- The directory of a path has the components before the last one, if there is more to the path
than its start. -/
theorem dir_spec (h : p.inner ≠ []) :
    p.dir.isAbsolute = p.isAbsolute ∧ p.dir.inner = p.inner.dropLast := by
  have hcomponents : p.pieces.filterMap Piece.component ≠ [] := by
    show p.components ≠ []
    rw [components_eq]
    exact List.append_ne_nil_of_right_ne_nil p.start h
  obtain ⟨front, last, blanks, hpieces, hlast, hblanks, hkept⟩ := exists_last_piece hcomponents
  obtain ⟨⟨c, hc⟩, hroot, hfront⟩ := last_piece_spec hpieces h hblanks hlast
  obtain ⟨habsolute, hinner⟩ := ofPieces_front_spec hpieces hfront
  rw [dir_eq hkept hroot, List.reverse_reverse, habsolute, hinner,
    inner_of_pieces hpieces hblanks, hc]
  exact ⟨rfl, by simp⟩

/-- A path that is no more than its start is in no directory. -/
theorem dir_of_inner_eq_nil (h : p.inner = []) : p.dir = ⟨""⟩ := by
  have hcomponents : p.components = p.start := by rw [components_eq, h, List.append_nil]
  have hstart : p.start.length ≤ 1 := by
    unfold start
    split
    · simp
    · split <;> simp
  cases hkept : dropBlank p.pieces.reverse with
  | nil =>
      rw [dir, parent?, hkept]
      rfl
  | cons last before =>
      obtain ⟨c, hc⟩ := Option.isSome_iff_exists.mp (isSome_of_dropBlank hkept)
      have hcount : c :: before.filterMap Piece.component = p.start.reverse := by
        have hall := filterMap_dropBlank p.pieces.reverse
        rw [hkept, List.filterMap_cons_some hc, List.filterMap_reverse] at hall
        rw [← hcomponents]
        exact hall
      have hbefore : before.filterMap Piece.component = [] := by
        have hlength := congrArg List.length hcount
        rw [List.length_cons, List.length_reverse] at hlength
        apply List.eq_nil_of_length_eq_zero
        omega
      have hblank : dropBlank before = [] := by
        apply List.dropWhile_eq_nil_iff.mpr
        simpa using hbefore
      rw [dir, parent?, hkept]
      simp only [hblank]
      split <;> rfl

/-- What a path leads to is seen from a working directory unless the path is absolute. -/
theorem components_join_eq (hwd : wd.isAbsolute = true) (p : FilePath) :
    (wd.join p).components = (if p.isAbsolute then [.root] else wd.components) ++ p.inner := by
  cases hp : p.isAbsolute with
  | true =>
      rw [join_of_isAbsolute hp, components_eq, start_of_isAbsolute hp]
      rfl
  | false =>
      rw [components_join hwd hp]
      rfl

/-- Seen from a working directory, a path has one component more than its directory, or it is no
more than its start and its directory is the working directory. -/
theorem components_join_dir (hwd : wd.isAbsolute = true) (p : FilePath) :
    (wd.join p.dir).components =
      if p.inner = [] then wd.components else (wd.join p).components.dropLast := by
  by_cases h : p.inner = []
  · rw [if_pos h, dir_of_inner_eq_nil h, components_join_eq hwd]
    exact List.append_nil wd.components
  · obtain ⟨habsolute, hinner⟩ := dir_spec h
    rw [if_neg h, components_join_eq hwd, components_join_eq hwd, habsolute, hinner,
      List.dropLast_append_of_ne_nil h]

/-! ## Paths to one place -/

/-- Taken from anywhere, the paths have the same components. -/
def Alike (p q : FilePath) : Prop := p.isAbsolute = q.isAbsolute ∧ p.inner = q.inner

theorem Alike.join (h : Alike p q) (rest : FilePath) : Alike (p.join rest) (q.join rest) := by
  cases hrest : rest.isAbsolute with
  | true =>
      rw [join_of_isAbsolute hrest, join_of_isAbsolute hrest]
      exact ⟨rfl, rfl⟩
  | false =>
      refine ⟨?_, ?_⟩
      · rw [isAbsolute_join, isAbsolute_join, h.1]
      · rw [inner_join hrest, inner_join hrest, h.2]

theorem Alike.components_join (hwd : wd.isAbsolute = true) (h : Alike p q) :
    (wd.join p).components = (wd.join q).components := by
  rw [components_join_eq hwd, components_join_eq hwd, h.1, h.2]

/-- The directory of a path is the one that its name has been joined to. -/
theorem alike_dir_join (base : FilePath) (hleaf : IsFileName leaf) :
    Alike (base.join ⟨leaf⟩).dir base := by
  have hrelative := isAbsolute_of_notMem hleaf.1
  have hinner : (base.join ⟨leaf⟩).inner = base.inner ++ [.name leaf] := by
    rw [inner_join hrelative, hleaf.inner]
  have hne : (base.join ⟨leaf⟩).inner ≠ [] := by
    rw [hinner]
    exact List.append_ne_nil_of_right_ne_nil base.inner (List.cons_ne_nil _ [])
  obtain ⟨habsolute, hdir⟩ := dir_spec hne
  refine ⟨?_, ?_⟩
  · rw [habsolute, isAbsolute_join, hrelative, Bool.false_or]
  · rw [hdir, hinner, List.dropLast_concat]

/-! ## The empty path -/

theorem empty_join (p : FilePath) : (⟨""⟩ : FilePath).join p = p := by
  rw [join]
  split
  · rfl
  · exact FilePath.ext (List.nil_append p.letters)

theorem components_join_empty (hwd : wd.isAbsolute = true) (dir : FilePath) :
    (wd.join (dir.join ⟨""⟩)).components = (wd.join dir).components := by
  have hrelative : (⟨""⟩ : FilePath).isAbsolute = false := rfl
  rw [components_join_join hwd hrelative]
  exact List.append_nil _

/-! ## Folders of names -/

/-- The text of a name up to its last slash. -/
def folderOf (name : String) : FilePath :=
  ⟨String.ofList (name.toList.rdropWhile (· ≠ '/'))⟩

theorem letters_folderOf (name : String) :
    (folderOf name).letters = (name.toList.rdropWhile (· ≠ '/')).map .char := by
  show (String.ofList _).toList.map Letter.char = _
  rw [String.toList_ofList]

theorem folderOf_of_notMem {name : String} (h : '/' ∉ name.toList) : folderOf name = ⟨""⟩ := by
  have hall : name.toList.rdropWhile (· ≠ '/') = [] := by
    rw [List.rdropWhile_eq_nil_iff]
    intro c hc
    simpa using fun hslash : c = '/' => h (hslash ▸ hc)
  rw [folderOf, hall]

/-- A path can be taken from a folder by what is written behind it. -/
theorem front_folderOf (name : String) : (folderOf name).front = (folderOf name).letters := by
  refine if_pos ?_
  rw [letters_folderOf]
  by_cases hempty : name.toList.rdropWhile (· ≠ '/') = []
  · exact Or.inl (by rw [hempty]; rfl)
  · refine Or.inr ?_
    have hlast := List.rdropWhile_last_not _ _ hempty
    have hslash : (name.toList.rdropWhile (· ≠ '/')).getLast? = some '/' := by
      rw [List.getLast?_eq_some_getLast hempty]
      simpa using hlast
    rw [List.getLast?_map, hslash]
    rfl

/-- A name with an ending is taken from its folder. -/
theorem exists_join_folderOf (name : String) {ending : String} (h : '/' ∉ ending.toList) :
    ∃ leaf, '/' ∉ leaf.toList ∧
      FilePath.mk (name ++ ending) = (folderOf name).join (.mk (leaf ++ ending)) := by
  have hsplit : name.toList.rdropWhile (· ≠ '/') ++ name.toList.rtakeWhile (· ≠ '/') =
      name.toList := by
    rw [List.rdropWhile, List.rtakeWhile, ← List.reverse_append, List.takeWhile_append_dropWhile,
      List.reverse_reverse]
  let leaf := String.ofList (name.toList.rtakeWhile (· ≠ '/'))
  have hleaf : '/' ∉ leaf.toList := by
    intro hslash
    rw [String.toList_ofList] at hslash
    simpa using List.mem_rtakeWhile_imp hslash
  have hrelative : (FilePath.mk (leaf ++ ending)).isAbsolute = false := by
    refine isAbsolute_of_notMem ?_
    rw [String.toList_append, List.mem_append, not_or]
    exact ⟨hleaf, h⟩
  have hname : Letter.ofText name = (folderOf name).letters ++ Letter.ofText leaf := by
    rw [letters_folderOf, Letter.ofText, Letter.ofText, String.toList_ofList, ← List.map_append,
      hsplit]
  have hletters : Letter.ofText (name ++ ending) =
      ((folderOf name).join (.mk (leaf ++ ending))).letters := by
    calc Letter.ofText (name ++ ending)
        = (folderOf name).letters ++ Letter.ofText leaf ++ Letter.ofText ending := by
          rw [Letter.ofText_append, hname]
      _ = (folderOf name).front ++ Letter.ofText (leaf ++ ending) := by
          rw [front_folderOf, Letter.ofText_append, List.append_assoc]
      _ = ((folderOf name).join (.mk (leaf ++ ending))).letters :=
          (letters_join_eq_front _ hrelative).symm
  exact ⟨leaf, hleaf, FilePath.ext hletters⟩

/-- A path that begins with a letter of a name has a component. -/
theorem inner_ne_nil_of_head? {l : Letter} (h : p.letters.head? = some l) (hslash : l ≠ slash)
    (hpoint : l ≠ point) : p.inner ≠ [] := by
  obtain ⟨rest, hletters⟩ := List.head?_eq_some_iff.mp h
  obtain ⟨part, more, hsplit⟩ := List.exists_cons_of_ne_nil (Text.split_ne_nil slash rest)
  have hparts : p.parts = (l :: part) :: more := by
    rw [parts, hletters, Text.split, if_neg hslash, hsplit]
  have hname : component? (l :: part) = some (.name (l :: part)) := by
    unfold component?
    rw [if_neg (by simp [hpoint]), if_neg (by simp [hpoint])]
  rw [inner, hparts, List.filterMap_cons_some hname]
  exact List.cons_ne_nil _ _

/-- A name that begins with a letter is taken from its directory itself only if it has no
slash. -/
theorem components_join_folderOf_iff {name : String} {c : Char} (hwd : wd.isAbsolute = true)
    (h : name.toList.head? = some c) (hslash : c ≠ '/') (hpoint : c ≠ '.') :
    (wd.join (dir.join (folderOf name))).components = (wd.join dir).components ↔
      '/' ∉ name.toList := by
  by_cases hmem : '/' ∈ name.toList
  · have hfolder : name.toList.rdropWhile (· ≠ '/') ≠ [] := by
      rw [Ne, List.rdropWhile_eq_nil_iff]
      intro hall
      simpa using hall '/' hmem
    have hhead : (folderOf name).letters.head? = some (.char c) := by
      obtain ⟨rest, hrest⟩ := List.rdropWhile_prefix (fun c => decide (c ≠ '/')) (l := name.toList)
      rw [← hrest, List.head?_append_of_ne_nil _ hfolder] at h
      rw [letters_folderOf, List.head?_map, h]
      rfl
    have hslashLetter : Letter.char c ≠ slash := fun hsame => hslash (Letter.char.inj hsame)
    have hpointLetter : Letter.char c ≠ point := fun hsame => hpoint (Letter.char.inj hsame)
    have hrelative : (folderOf name).isAbsolute = false := by
      rw [isAbsolute, hhead]
      simpa using hslashLetter
    rw [components_join_join hwd hrelative, List.append_right_eq_self]
    exact iff_of_false (inner_ne_nil_of_head? hhead hslashLetter hpointLetter)
      (not_not_intro hmem)
  · rw [folderOf_of_notMem hmem]
    exact iff_of_true (components_join_empty hwd dir) hmem

/-! ## Children -/

/-- Seen from a working directory, a path has the components of a directory and then one
ordinary name. -/
def IsChild (wd dir p : FilePath) : Prop :=
  ∃ name : List Letter, name ≠ "" ∧ name ≠ "." ∧ name ≠ ".." ∧
    (wd.join p).components = (wd.join dir).components ++ [.name name]

/-- A name that is joined to a directory is a child of no other. -/
theorem isChild_join_iff (hwd : wd.isAbsolute = true) (hleaf : IsFileName leaf) :
    IsChild wd dir (base.join ⟨leaf⟩) ↔
      (wd.join base).components = (wd.join dir).components := by
  have hcomponents : (wd.join (base.join ⟨leaf⟩)).components =
      (wd.join base).components ++ [.name leaf] := by
    rw [components_join_join hwd (isAbsolute_of_notMem hleaf.1), hleaf.inner]
  have hordinary (part : List Letter) (hpart : component? part ≠ some (.name part)) :
      Letter.ofText leaf ≠ part := by
    rintro rfl
    exact hpart hleaf.2
  constructor
  · rintro ⟨name, -, -, -, hchild⟩
    exact (List.append_inj' (hcomponents.symm.trans hchild) rfl).1
  · intro hsame
    refine ⟨leaf, hordinary "" (by decide), hordinary "." (by decide),
      hordinary ".." (by decide), ?_⟩
    rw [hcomponents, hsame]

end FilePath

end GraphqlFragments
