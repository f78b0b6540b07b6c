import GraphqlFragments.Proofs.Sdl.Names
/-!
# Spelling

Which words a text puts down, whatever text follows it. White space and comments put down none,
and a name that ends in white space is one word. Texts that spell can be put together:
`Spells.append` is what the spelling of a whole document is assembled with.
-/

namespace GraphqlFragments.Sdl

/-- The tokens that documents without types consist of. -/
inductive Word
  | name (text : String)
  | dots
  | opening
  | closing
  deriving DecidableEq, Repr

namespace Word

def kind : Word → TokenKind
  | name _ => .name
  | dots => .spread
  | opening => .punctuator '{'
  | closing => .punctuator '}'

def text : Word → String
  | name s => s
  | dots => "..."
  | opening => "\x7b"
  | closing => "\x7d"

def shape (w : Word) : TokenKind × String := (w.kind, w.text)

end Word

/-! ## Tokens without their places -/

def Token.shape (t : Token) : TokenKind × String := (t.kind, t.text)

def shapes (cs : List Char) : List (TokenKind × String) := (tokens 0 cs).map Token.shape

/-- Where a text begins does not change its tokens. -/
theorem map_shape_tokens (offset : Nat) (cs : List Char) :
    (tokens offset cs).map Token.shape = shapes cs := by
  have hplaces (cs : List Char) (a b : Nat) :
      (tokens a cs).map Token.shape = (tokens b cs).map Token.shape := by
    fun_induction tokens a cs generalizing b with
    | case1 a => rw [tokens]
    | case2 a c rest lexeme later hnone ih =>
        rw [tokens, show (Lexeme.start c rest).kind = none from hnone]
        exact ih _
    | case3 a c rest lexeme later kind hkind ih =>
        rw [tokens, show (Lexeme.start c rest).kind = some kind from hkind, List.map_cons,
          List.map_cons, ih]
        rfl
  exact hplaces cs offset 0

theorem shapes_cons (c : Char) (rest : List Char) :
    shapes (c :: rest) =
      ((Lexeme.start c rest).kind.map fun kind =>
          (kind, String.ofList (Lexeme.start c rest).text)).toList ++
        shapes (rest.drop ((Lexeme.start c rest).text.length - 1)) := by
  rw [shapes, tokens]
  cases (Lexeme.start c rest).kind with
  | none => exact map_shape_tokens _ _
  | some kind =>
      dsimp only
      rw [List.map_cons, map_shape_tokens]
      rfl

/-! ## White space and names -/

theorem mem_of_isBlank {c : Char} (h : isBlank c = true) :
    c = '\t' ∨ c = ' ' ∨ c = '\n' ∨ c = '\r' ∨ c = '\uFEFF' := by
  simpa [isBlank] using h

theorem isPunctuator_of_isBlank {c : Char} (h : isBlank c = true) : isPunctuator c = false := by
  rcases mem_of_isBlank h with rfl | rfl | rfl | rfl | rfl <;> rfl

theorem isNameChar_of_isBlank {c : Char} (h : isBlank c = true) : isNameChar c = false := by
  rcases mem_of_isBlank h with rfl | rfl | rfl | rfl | rfl <;> rfl

theorem isNameStart_of_isPunctuator {c : Char} (h : isPunctuator c = true) :
    isNameStart c = false := by
  simp only [isPunctuator, List.contains_eq_mem, decide_eq_true_eq, List.mem_cons,
    List.not_mem_nil, or_false] at h
  rcases h with rfl | rfl | rfl | rfl | rfl | rfl | rfl | rfl | rfl | rfl | rfl | rfl | rfl | rfl
  all_goals rfl

theorem isNameChar_of_isNameStart {c : Char} (h : isNameStart c = true) : isNameChar c = true := by
  unfold isNameStart at h
  unfold isNameChar Char.isAlphanum
  grind

theorem start_of_isBlank {c : Char} (h : isBlank c = true) (rest : List Char) :
    Lexeme.start c rest = ⟨c :: rest.takeWhile isBlank, none⟩ := by
  rw [Lexeme.start, isPunctuator_of_isBlank h, h]
  rfl

theorem start_of_isNameStart {c : Char} (h : isNameStart c = true) (rest : List Char) :
    Lexeme.start c rest = ⟨c :: rest.takeWhile isNameChar, some .name⟩ := by
  have hmark : ¬isPunctuator c = true := by
    intro hc
    rw [isNameStart_of_isPunctuator hc] at h
    cases h
  have hblank : ¬isBlank c = true := by
    intro hc
    have hchar := isNameChar_of_isNameStart h
    rw [isNameChar_of_isBlank hc] at hchar
    cases hchar
  have hcomment : c ≠ '#' := by
    rintro rfl
    exact absurd h (by decide)
  rw [Lexeme.start, if_neg hmark, if_neg hblank, if_neg hcomment, if_pos h]

private theorem drop_length_takeWhile (p : Char → Bool) (cs : List Char) :
    cs.drop (cs.takeWhile p).length = cs.dropWhile p := by
  have hsplit : cs.takeWhile p ++ cs.dropWhile p = cs := List.takeWhile_append_dropWhile
  calc
    cs.drop (cs.takeWhile p).length
        = (cs.takeWhile p ++ cs.dropWhile p).drop (cs.takeWhile p).length := by rw [hsplit]
    _ = cs.dropWhile p := List.drop_left

/-- White space separates, however much of it there is. -/
theorem shapes_cons_of_isBlank {c : Char} (h : isBlank c = true) (rest : List Char) :
    shapes (c :: rest) = shapes rest := by
  have hdrop (c : Char) (h : isBlank c = true) (rest : List Char) :
      shapes (c :: rest) = shapes (rest.dropWhile isBlank) := by
    rw [shapes_cons, start_of_isBlank h, ← drop_length_takeWhile]
    rfl
  rw [hdrop c h]
  cases rest with
  | nil => rfl
  | cons d rest =>
      cases hd : isBlank d with
      | true => rw [List.dropWhile_cons_of_pos hd, hdrop d hd]
      | false => rw [List.dropWhile_cons_of_neg (by rw [hd]; exact Bool.false_ne_true)]

/-- A name is one word up to the white space behind it. -/
theorem shapes_name {s : String} (h : IsName s) {c : Char} (hc : isBlank c = true)
    (rest : List Char) :
    shapes (s.toList ++ c :: rest) = (Word.name s).shape :: shapes (c :: rest) := by
  obtain ⟨first, later, htext, hfirst, hlater⟩ := h
  have htake : (later ++ c :: rest).takeWhile isNameChar = later := by
    rw [List.takeWhile_append_of_pos hlater,
      List.takeWhile_cons_of_neg (by rw [isNameChar_of_isBlank hc]; exact Bool.false_ne_true),
      List.append_nil]
  rw [htext, List.cons_append, shapes_cons, start_of_isNameStart hfirst, htake, List.length_cons,
    Nat.add_sub_cancel, List.drop_left, ← htext, String.ofList_toList]
  rfl

/-- A comment ends with its line. -/
theorem shapes_comment {line : List Char} (h : ∀ c ∈ line, isLineEnd c = false)
    (rest : List Char) : shapes ('#' :: line ++ '\n' :: rest) = shapes rest := by
  have htake : (line ++ '\n' :: rest).takeWhile (fun d => !isLineEnd d) = line := by
    rw [List.takeWhile_append_of_pos fun c hc => by rw [h c hc]; rfl,
      List.takeWhile_cons_of_neg (by decide), List.append_nil]
  have hstart : Lexeme.start '#' (line ++ '\n' :: rest) = ⟨'#' :: line, none⟩ := by
    change Lexeme.mk ('#' :: (line ++ '\n' :: rest).takeWhile fun d => !isLineEnd d) none = _
    rw [htake]
  rw [List.cons_append, shapes_cons, hstart, List.length_cons, Nat.add_sub_cancel, List.drop_left,
    ← shapes_cons_of_isBlank (c := '\n') rfl rest]
  rfl

/-! ## Texts and their words -/

/-- The text puts down the words, whatever text follows it. -/
def Spells (text : String) (words : List Word) : Prop :=
  ∀ rest, shapes (text.toList ++ rest) = words.map Word.shape ++ shapes rest

theorem spells_empty : Spells "" [] := fun _ => rfl

theorem Spells.append {a b : String} {u v : List Word} (ha : Spells a u) (hb : Spells b v) :
    Spells (a ++ b) (u ++ v) := by
  intro rest
  rw [String.toList_append, List.append_assoc, ha, hb, List.map_append, List.append_assoc]

theorem spells_opening : Spells "\x7b" [.opening] := fun rest => shapes_cons '{' rest

theorem spells_closing : Spells "\x7d" [.closing] := fun rest => shapes_cons '}' rest

theorem spells_dots : Spells "..." [.dots] := fun rest => shapes_cons '.' ('.' :: '.' :: rest)

/-- Only white space. -/
def IsGap (s : String) : Prop := ∀ c ∈ s.toList, isBlank c = true

theorem isGap_of_spaces {s : String} (h : ∀ c ∈ s.toList, c = ' ' ∨ c = '\n') : IsGap s := by
  intro c hc
  rcases h c hc with rfl | rfl <;> rfl

theorem spells_gap {s : String} (h : IsGap s) : Spells s [] := by
  have hgap (cs : List Char) (h : ∀ c ∈ cs, isBlank c = true) (rest : List Char) :
      shapes (cs ++ rest) = shapes rest := by
    induction cs with
    | nil => rfl
    | cons c cs ih =>
        rw [List.forall_mem_cons] at h
        rw [List.cons_append, shapes_cons_of_isBlank h.1, ih h.2]
  exact hgap s.toList h

/-- A name has to be followed by white space, lest what follows belongs to it. -/
theorem spells_name {s gap : String} (h : IsName s) (hgap : IsGap gap) (hne : gap ≠ "") :
    Spells (s ++ gap) [.name s] := by
  intro rest
  have hspells := spells_gap hgap rest
  obtain ⟨c, cs, htext⟩ := List.exists_cons_of_ne_nil (mt String.toList_eq_nil_iff.mp hne)
  have hc : isBlank c = true := hgap c (htext ▸ List.mem_cons_self)
  rw [htext] at hspells
  rw [String.toList_append, List.append_assoc, htext, List.cons_append, shapes_name h hc]
  exact congrArg (_ :: ·) hspells

theorem spells_comment {line : String} (h : ∀ c ∈ line.toList, isLineEnd c = false) :
    Spells ("#" ++ line ++ "\n") [] := by
  intro rest
  rw [String.toList_append, String.toList_append, List.append_assoc]
  exact shapes_comment h rest

/-- Texts that spell, one after the other. -/
theorem spells_join {α : Type} {text : α → String} {words : α → List Word} {items : List α}
    (h : ∀ a ∈ items, Spells (text a) (words a)) :
    Spells (String.join (items.map text)) (items.flatMap words) := by
  induction items with
  | nil => exact spells_empty
  | cons a items ih =>
      rw [List.forall_mem_cons] at h
      rw [List.map_cons, String.join_cons, List.flatMap_cons]
      exact h.1.append (ih h.2)

/-- Texts that spell, with white space in between. -/
theorem spells_intercalate {α : Type} {text : α → String} {words : α → List Word}
    {items : List α} {gap : String} (hgap : IsGap gap)
    (h : ∀ a ∈ items, Spells (text a) (words a)) :
    Spells (String.intercalate gap (items.map text)) (items.flatMap words) := by
  induction items with
  | nil => exact spells_empty
  | cons a items ih =>
      rw [List.forall_mem_cons] at h
      cases items with
      | nil =>
          rw [List.map_singleton, String.intercalate_singleton, List.flatMap_singleton]
          exact h.1
      | cons b items =>
          rw [List.map_cons, List.map_cons, String.intercalate_cons_cons, List.flatMap_cons]
          have hfirst : Spells (text a ++ gap) (words a) := by
            simpa using h.1.append (spells_gap hgap)
          exact hfirst.append (ih h.2)

end GraphqlFragments.Sdl
