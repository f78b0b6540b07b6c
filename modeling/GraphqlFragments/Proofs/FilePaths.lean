import GraphqlFragments.FilePath
/-!
# Components of file paths

A path has the components of its parts, after the root or a leading point. Joining a
relative path to a directory appends its components, and what is left of a path below a
directory has the components that are left.
-/

namespace GraphqlFragments

/-! ## Splitting -/

namespace Text

variable {α : Type} [DecidableEq α] {mark : α}

theorem split_eq_splitOn (mark : α) (text : List α) :
    split mark text = text.splitOn mark := by
  induction text with
  | nil => rfl
  | cons c rest ih =>
      rw [split, List.splitOn_cons_eq_if_modifyHead, ← ih]
      by_cases hc : c = mark
      · rw [if_pos hc, if_pos (beq_iff_eq.mpr hc)]
      · rw [if_neg hc, if_neg (fun h => hc (beq_iff_eq.mp h))]
        cases hsplit : split mark rest with
        | nil => exact absurd (ih ▸ hsplit) (List.splitOn_ne_nil mark rest)
        | cons part parts => rfl

theorem split_ne_nil (mark : α) (text : List α) : split mark text ≠ [] := by
  rw [split_eq_splitOn]
  exact List.splitOn_ne_nil mark text

/-- A mark separates the parts before it from those after it. -/
theorem split_append_mark (before rest : List α) :
    split mark (before ++ mark :: rest) = split mark before ++ split mark rest := by
  simp only [split_eq_splitOn]
  exact List.splitOn_append_cons_self before rest

theorem notMem_of_mem_split {text part : List α} (h : part ∈ split mark text) :
    mark ∉ part := by
  induction text generalizing part with
  | nil =>
      rw [List.mem_singleton.mp h]
      exact List.not_mem_nil
  | cons c rest ih =>
      obtain ⟨first, more, hsplit⟩ := List.exists_cons_of_ne_nil (split_ne_nil mark rest)
      rw [split, hsplit] at h
      rw [hsplit, List.forall_mem_cons] at ih
      by_cases hc : c = mark
      · rw [if_pos hc, List.mem_cons] at h
        rcases h with rfl | h
        · exact List.not_mem_nil
        · exact (List.forall_mem_cons (p := (mark ∉ ·))).mpr ih part h
      · rw [if_neg hc, List.mem_cons] at h
        rcases h with rfl | h
        · rw [List.mem_cons, not_or]
          exact ⟨fun he => hc he.symm, ih.1⟩
        · exact ih.2 part h

end Text

namespace FilePath

open Letter (slash point)

variable {p dir rest : FilePath}

/-! ## Parts -/

theorem exists_parts_eq_cons (p : FilePath) : ∃ first more, p.parts = first :: more :=
  List.exists_cons_of_ne_nil (Text.split_ne_nil slash p.letters)

/-- An absolute path is told by its parts. -/
theorem isAbsolute_iff_parts : p.isAbsolute = true ↔ ∃ part rest, p.parts = [] :: part :: rest := by
  unfold isAbsolute parts
  cases p.letters with
  | nil => simp [Text.split]
  | cons c cs =>
      obtain ⟨first, more, hsplit⟩ := List.exists_cons_of_ne_nil (Text.split_ne_nil slash cs)
      by_cases hc : c = slash
      · simp [Text.split, hc, hsplit]
      · simp [Text.split, hc, hsplit]

/-- The components of the parts of a path where none of them comes first. -/
def inner (p : FilePath) : List Component := p.parts.filterMap component?

/-- The component that only the first part of a path can have. -/
def start (p : FilePath) : List Component :=
  if p.isAbsolute then [.root] else if p.parts.head? = some [point] then [.current] else []

theorem components_eq (p : FilePath) : p.components = p.start ++ p.inner := by
  obtain ⟨first, more, hp⟩ := p.exists_parts_eq_cons
  have hmore : (more.map fun part => Piece.mk part (component? part)).filterMap Piece.component =
      more.filterMap component? := List.filterMap_map
  have hempty : p.isAbsolute = true → first = [] := by
    intro habsolute
    obtain ⟨part, rest, hroot⟩ := isAbsolute_iff_parts.mp habsolute
    exact (List.cons.inj (hp.symm.trans hroot)).1
  rw [components, pieces, start, inner, hp]
  simp only [List.filterMap_cons, hmore, List.head?_cons, Option.some.injEq]
  cases habsolute : p.isAbsolute with
  | true =>
      rw [hempty habsolute]
      rfl
  | false =>
      by_cases hpoint : first = [point]
      · rw [hpoint]
        rfl
      · simp only [firstComponent?, if_neg hpoint, Bool.false_eq_true, if_false]
        cases component? first <;> rfl

theorem start_of_isAbsolute (h : p.isAbsolute = true) : p.start = [.root] := if_pos h

/-! ## Joining -/

theorem join_of_isAbsolute (h : p.isAbsolute = true) (dir : FilePath) : dir.join p = p := if_pos h

theorem letters_join (h : p.isAbsolute = false) :
    (dir.join p).letters = dir.letters ++
      (if dir.letters = [] ∨ dir.letters.getLast? = some slash then p.letters
        else slash :: p.letters) := by
  rw [join, h, if_neg Bool.false_ne_true]
  simp only [Bool.or_eq_true, decide_eq_true_eq]
  split <;> rfl

theorem isAbsolute_join (dir p : FilePath) :
    (dir.join p).isAbsolute = (p.isAbsolute || dir.isAbsolute) := by
  cases h : p.isAbsolute with
  | true => rw [join_of_isAbsolute h, h, Bool.true_or]
  | false =>
      rw [Bool.false_or, isAbsolute, letters_join h]
      cases hdir : dir.letters with
      | nil =>
          rw [if_pos (Or.inl rfl), List.nil_append, isAbsolute, hdir]
          exact h
      | cons c cs =>
          rw [isAbsolute, hdir]
          rfl

theorem isAbsolute_join_of_left (hdir : dir.isAbsolute = true) (p : FilePath) :
    (dir.join p).isAbsolute = true := by
  rw [isAbsolute_join, hdir, Bool.or_true]

/-- What stands in front of the paths that are taken from a directory. -/
def front (dir : FilePath) : List Letter :=
  if dir.letters = [] ∨ dir.letters.getLast? = some slash then dir.letters
  else dir.letters ++ [slash]

theorem letters_join_eq_front (dir : FilePath) (h : p.isAbsolute = false) :
    (dir.join p).letters = dir.front ++ p.letters := by
  rw [letters_join h, front]
  split
  · rfl
  · rw [List.append_assoc]
    rfl

theorem front_eq_nil_or (dir : FilePath) :
    dir.front = [] ∨ ∃ before, dir.front = before ++ [slash] := by
  unfold front
  split
  · next hends =>
      rcases hends with hempty | hslash
      · exact Or.inl hempty
      · exact Or.inr (List.getLast?_eq_some_iff.mp hslash)
  · exact Or.inr ⟨_, rfl⟩

theorem front_join (h : p.isAbsolute = false) : (dir.join p).front = dir.front ++ p.front := by
  have hletters := letters_join_eq_front dir h
  by_cases hempty : p.letters = []
  · have hfront : p.front = [] := by rw [front, if_pos (Or.inl hempty), hempty]
    rw [hempty, List.append_nil] at hletters
    rw [hfront, List.append_nil, front, hletters]
    refine if_pos ?_
    rcases dir.front_eq_nil_or with hnil | ⟨before, hbefore⟩
    · exact Or.inl hnil
    · exact Or.inr (by rw [hbefore, List.getLast?_concat])
  · have hjoin : (dir.join p).letters ≠ [] := by
      rw [hletters]
      exact List.append_ne_nil_of_right_ne_nil dir.front hempty
    have hlast : (dir.front ++ p.letters).getLast? = p.letters.getLast? := by
      rw [List.getLast?_append, List.getLast?_eq_some_getLast hempty]
      rfl
    have hfront {q : FilePath} (hne : q.letters ≠ []) :
        q.front = if q.letters.getLast? = some slash then q.letters else q.letters ++ [slash] := by
      simp [front, hne]
    rw [hfront hjoin, hfront hempty, hletters, hlast]
    split
    · rfl
    · rw [List.append_assoc]

/-- To take a path from one directory after another, one may take it from a single one. -/
theorem join_assoc (wd dir p : FilePath) : wd.join (dir.join p) = (wd.join dir).join p := by
  cases h : p.isAbsolute with
  | true => rw [join_of_isAbsolute h, join_of_isAbsolute h, join_of_isAbsolute h]
  | false =>
      cases hdir : dir.isAbsolute with
      | true =>
          rw [join_of_isAbsolute (isAbsolute_join_of_left hdir p), join_of_isAbsolute hdir]
      | false =>
          have hjoin : (dir.join p).isAbsolute = false := by
            rw [isAbsolute_join, hdir, h, Bool.or_false]
          have hletters : (wd.join (dir.join p)).letters = ((wd.join dir).join p).letters := by
            rw [letters_join_eq_front wd hjoin, letters_join_eq_front dir h,
              letters_join_eq_front (wd.join dir) h, front_join hdir, List.append_assoc]
          exact FilePath.ext hletters

/-- Joining a relative path puts its components behind those of the directory. -/
theorem inner_join (h : p.isAbsolute = false) : (dir.join p).inner = dir.inner ++ p.inner := by
  simp only [inner, parts, letters_join h]
  split
  · next hends =>
      rcases hends with hempty | hslash
      · rw [hempty]
        rfl
      · obtain ⟨before, hbefore⟩ := List.getLast?_eq_some_iff.mp hslash
        rw [hbefore, List.append_assoc, List.singleton_append, Text.split_append_mark,
          Text.split_append_mark, List.filterMap_append, List.filterMap_append]
        show _ = _ ++ [] ++ _
        rw [List.append_nil]
  · rw [Text.split_append_mark, List.filterMap_append]

theorem components_join (hdir : dir.isAbsolute = true) (hp : p.isAbsolute = false) :
    (dir.join p).components = dir.components ++ p.inner := by
  rw [components_eq, components_eq, start_of_isAbsolute hdir,
    start_of_isAbsolute (isAbsolute_join_of_left hdir p), inner_join hp, List.append_assoc]

/-- Joining in two steps or at once makes no difference to the components. -/
theorem components_join_join {wd : FilePath} (hwd : wd.isAbsolute = true)
    (hp : p.isAbsolute = false) (dir : FilePath) :
    (wd.join (dir.join p)).components = (wd.join dir).components ++ p.inner := by
  rw [join_assoc, components_join (isAbsolute_join_of_left hwd dir) hp]

/-! ## Names in a directory -/

/-- A name that a file can have in a directory. -/
def IsFileName (name : String) : Prop :=
  '/' ∉ name.toList ∧ component? name = some (.name name)

theorem isAbsolute_of_notMem {name : String} (h : '/' ∉ name.toList) :
    (⟨name⟩ : FilePath).isAbsolute = false := by
  refine decide_eq_false fun hhead => h ?_
  rw [← Letter.char_mem_ofText_iff]
  exact List.mem_of_mem_head? hhead

theorem IsFileName.ne_nil {name : String} (h : IsFileName name) : Letter.ofText name ≠ [] := by
  intro hnil
  have hcomponent := h.2
  rw [hnil] at hcomponent
  cases hcomponent

/-- A name without slashes is its only part. -/
theorem parts_of_notMem {name : String} (h : '/' ∉ name.toList) :
    (⟨name⟩ : FilePath).parts = [Letter.ofText name] :=
  Text.split_of_notMem fun hmem => h (Letter.char_mem_ofText_iff.mp hmem)

/-- The inner components of a name without slashes are its own. -/
theorem IsFileName.inner {name : String} (h : IsFileName name) :
    (⟨name⟩ : FilePath).inner = [.name name] := by
  rw [FilePath.inner, parts_of_notMem h.1, List.filterMap_cons_some h.2]
  rfl

/-- A text with something in front of an ending is a name. -/
theorem isFileName_append {front ending : String} (hfront : '/' ∉ front.toList)
    (hending : '/' ∉ ending.toList) (hlength : 2 < ending.toList.length) :
    IsFileName (front ++ ending) := by
  have hlong : 2 < (Letter.ofText (front ++ ending)).length := by
    rw [Letter.ofText, List.length_map, String.toList_append, List.length_append]
    omega
  refine ⟨?_, ?_⟩
  · rw [String.toList_append, List.mem_append, not_or]
    exact ⟨hfront, hending⟩
  · unfold component?
    rw [if_neg, if_neg]
    · intro hdots
      rw [hdots] at hlong
      simp at hlong
    · intro hdot
      simp only [Bool.or_eq_true, decide_eq_true_eq] at hdot
      rcases hdot with hnil | hdot
      · rw [hnil] at hlong
        simp at hlong
      · rw [hdot] at hlong
        simp at hlong

/-- Names that are taken from a directory are the last parts of their paths. -/
theorem exists_parts_join (dir : FilePath) :
    ∃ before, ∀ name : String, '/' ∉ name.toList →
      (dir.join ⟨name⟩).parts = before ++ [Letter.ofText name] := by
  rcases dir.front_eq_nil_or with hnil | ⟨before, hbefore⟩
  · refine ⟨[], fun name hname => ?_⟩
    rw [parts, letters_join_eq_front dir (isAbsolute_of_notMem hname), hnil]
    exact parts_of_notMem hname
  · refine ⟨Text.split slash before, fun name hname => ?_⟩
    rw [parts, letters_join_eq_front dir (isAbsolute_of_notMem hname), hbefore,
      List.append_assoc]
    calc Text.split slash (before ++ slash :: Letter.ofText name)
        = Text.split slash before ++ Text.split slash (Letter.ofText name) :=
          Text.split_append_mark _ _
      _ = Text.split slash before ++ [Letter.ofText name] :=
          congrArg _ (parts_of_notMem hname)

/-! ## The rest of a path -/

/-- A piece that is not the first one of a path. -/
def Piece.IsInner (piece : Piece) : Prop :=
  piece.component = component? piece.part ∧ slash ∉ piece.part

theorem component?_ne_root (part : List Letter) : component? part ≠ some .root := by
  unfold component?
  split
  · exact nofun
  · split <;> exact nofun

/-- Only the root alone is written in another way than its pieces. -/
theorem parts_ofPieces {pieces : List Piece} (hne : pieces ≠ [])
    (hroot : ∀ part, pieces ≠ [⟨part, some .root⟩]) (hslash : ∀ piece ∈ pieces, slash ∉ piece.part) :
    (ofPieces pieces).parts = pieces.map Piece.part := by
  have hletters : (ofPieces pieces).letters = [slash].intercalate (pieces.map Piece.part) := by
    unfold ofPieces
    split
    · next part => exact absurd rfl (hroot part)
    · rfl
  rw [parts, hletters, Text.split_eq_splitOn]
  refine List.splitOn_intercalate slash (fun part hpart => ?_) (by simpa using hne)
  obtain ⟨piece, hpiece, rfl⟩ := List.mem_map.mp hpart
  exact hslash piece hpiece

/-- The path of successive pieces, the first of which is not blank, has these as its parts. -/
theorem ofPieces_spec {pieces : List Piece} (hinner : ∀ piece ∈ pieces, piece.IsInner)
    (hfirst : ∀ piece, pieces.head? = some piece → piece.component.isSome) :
    (ofPieces pieces).isAbsolute = false ∧
      (ofPieces pieces).inner = pieces.filterMap Piece.component := by
  cases hpieces : pieces with
  | nil => exact ⟨rfl, rfl⟩
  | cons first more =>
      rw [hpieces] at hinner hfirst
      have hroot (part : List Letter) : first :: more ≠ [⟨part, some .root⟩] := by
        intro hsame
        have hcomponent := (hinner first List.mem_cons_self).1
        rw [(List.cons.inj hsame).1] at hcomponent
        exact component?_ne_root part hcomponent.symm
      have hparts := parts_ofPieces (List.cons_ne_nil first more) hroot
        fun piece hpiece => (hinner piece hpiece).2
      refine ⟨?_, ?_⟩
      · rw [Bool.eq_false_iff]
        intro habsolute
        obtain ⟨part, rest, hroot⟩ := isAbsolute_iff_parts.mp habsolute
        have hempty : first.part = [] := (List.cons.inj (hparts.symm.trans hroot)).1
        have hsome := hfirst first rfl
        rw [(hinner first List.mem_cons_self).1, hempty] at hsome
        cases hsome
      · have hcomponents : (first :: more).map (component? ∘ Piece.part) =
            (first :: more).map Piece.component :=
          List.map_congr_left fun piece hpiece => (hinner piece hpiece).1.symm
        rw [inner, hparts, List.filterMap_map]
        show (first :: more).filterMap (id ∘ component? ∘ Piece.part) =
          (first :: more).filterMap (id ∘ Piece.component)
        rw [← List.filterMap_map, ← List.filterMap_map, hcomponents]

theorem filterMap_dropComponents (n : Nat) (pieces : List Piece) :
    (dropComponents n pieces).filterMap Piece.component =
      (pieces.filterMap Piece.component).drop n := by
  induction pieces generalizing n with
  | nil => cases n <;> rfl
  | cons piece more ih =>
      cases n with
      | zero => rfl
      | succ n =>
          rw [dropComponents]
          cases hcomponent : piece.component with
          | none => rw [if_neg (by simp), ih, List.filterMap_cons_none hcomponent]
          | some c =>
              rw [Option.isSome_some, if_pos rfl, ih, List.filterMap_cons_some hcomponent,
                List.drop_succ_cons]

theorem dropComponents_suffix (n : Nat) (pieces : List Piece) :
    dropComponents n pieces <:+ pieces := by
  induction pieces generalizing n with
  | nil => cases n <;> exact List.suffix_rfl
  | cons piece more ih =>
      cases n with
      | zero => exact List.suffix_rfl
      | succ n =>
          rw [dropComponents]
          split
          · exact (ih n).trans (List.suffix_cons piece more)
          · exact (ih (n + 1)).trans (List.suffix_cons piece more)

/-- The first piece goes with the first component. -/
theorem dropComponents_succ_suffix (n : Nat) (piece : Piece) (more : List Piece) :
    dropComponents (n + 1) (piece :: more) <:+ more := by
  rw [dropComponents]
  split
  · exact dropComponents_suffix n more
  · exact dropComponents_suffix (n + 1) more

theorem filterMap_dropBlank (pieces : List Piece) :
    (dropBlank pieces).filterMap Piece.component = pieces.filterMap Piece.component := by
  induction pieces with
  | nil => rfl
  | cons piece more ih =>
      cases hcomponent : piece.component with
      | none =>
          rw [List.filterMap_cons_none hcomponent, dropBlank,
            List.dropWhile_cons_of_pos (by rw [hcomponent]; rfl)]
          exact ih
      | some c => rw [dropBlank, List.dropWhile_cons_of_neg (by rw [hcomponent]; simp)]

theorem filterMap_dropBlankEnd (pieces : List Piece) :
    (dropBlankEnd pieces).filterMap Piece.component = pieces.filterMap Piece.component := by
  rw [dropBlankEnd, List.filterMap_reverse, filterMap_dropBlank, List.filterMap_reverse,
    List.reverse_reverse]

theorem dropBlankEnd_prefix (pieces : List Piece) : dropBlankEnd pieces <+: pieces := by
  have hsuffix : dropBlank pieces.reverse <:+ pieces.reverse := List.dropWhile_suffix _
  have hreversed := List.reverse_prefix.mpr hsuffix
  rwa [List.reverse_reverse] at hreversed

theorem isSome_of_head?_dropBlank {pieces : List Piece} {piece : Piece}
    (h : (dropBlank pieces).head? = some piece) : piece.component.isSome := by
  have hhead := List.head?_dropWhile_not (fun piece : Piece => piece.component.isNone) pieces
  rw [show pieces.dropWhile (fun piece => piece.component.isNone) = dropBlank pieces from rfl,
    h] at hhead
  simpa [Option.isNone_iff_eq_none, Option.isSome_iff_ne_none] using hhead

/-- All pieces of a path but the first one are inner ones. -/
theorem exists_pieces_eq_cons (p : FilePath) :
    ∃ first more, p.pieces = first :: more ∧ ∀ piece ∈ more, piece.IsInner := by
  obtain ⟨part, parts, hparts⟩ := p.exists_parts_eq_cons
  refine ⟨_, _, by rw [pieces, hparts], fun piece hpiece => ?_⟩
  obtain ⟨inside, hinside, rfl⟩ := List.mem_map.mp hpiece
  have hmem : inside ∈ p.parts := hparts ▸ List.mem_cons_of_mem _ hinside
  exact ⟨rfl, Text.notMem_of_mem_split hmem⟩

/-- A path has a rest below a directory exactly if its components begin with those of the
directory. -/
theorem stripPrefix?_eq_none_iff :
    p.stripPrefix? dir = none ↔ ¬dir.components <+: p.components := by
  rw [stripPrefix?, ← List.isPrefixOf_iff_prefix]
  cases dir.components.isPrefixOf p.components <;> simp

/-- What is left of a path below an absolute directory is a relative path with the components
that are left. -/
theorem stripPrefix?_spec (hdir : dir.isAbsolute = true) (h : p.stripPrefix? dir = some rest) :
    rest.isAbsolute = false ∧ p.components = dir.components ++ rest.inner := by
  have hcount : dir.components = .root :: dir.inner := by
    rw [components_eq, start_of_isAbsolute hdir]
    rfl
  let below := dropComponents dir.components.length p.pieces
  have hstrip : dir.components <+: p.components ∧
      rest = ofPieces (dropBlankEnd (dropBlank below)) := by
    have hnonempty : dir.components.isEmpty = false := by rw [hcount]; rfl
    rw [stripPrefix?, hnonempty] at h
    split at h
    · next hbegins => exact ⟨List.isPrefixOf_iff_prefix.mp hbegins, (Option.some.inj h).symm⟩
    · cases h
  obtain ⟨hbegins, rfl⟩ := hstrip
  obtain ⟨first, more, hpieces, hinner⟩ := exists_pieces_eq_cons p
  have hbelow : below <:+ more := by
    show dropComponents dir.components.length p.pieces <:+ more
    rw [hpieces, hcount]
    exact dropComponents_succ_suffix _ first more
  have hblank : dropBlank below <:+ below := List.dropWhile_suffix _
  have hend : dropBlankEnd (dropBlank below) <+: dropBlank below := dropBlankEnd_prefix _
  have hleft : ∀ piece ∈ dropBlankEnd (dropBlank below), piece.IsInner := fun piece hpiece =>
    hinner piece ((hblank.trans hbelow).subset (hend.subset hpiece))
  have hfirst : ∀ piece, (dropBlankEnd (dropBlank below)).head? = some piece →
      piece.component.isSome := by
    intro piece hpiece
    obtain ⟨ending, hending⟩ := hend
    have hhead : (dropBlank below).head? = some piece := by
      rw [← hending, List.head?_append, hpiece]
      rfl
    exact isSome_of_head?_dropBlank hhead
  obtain ⟨habsolute, hrest⟩ := ofPieces_spec hleft hfirst
  refine ⟨habsolute, ?_⟩
  rw [hrest, filterMap_dropBlankEnd, filterMap_dropBlank, filterMap_dropComponents]
  exact (List.prefix_iff_eq_append.mp hbegins).symm

end FilePath

end GraphqlFragments
