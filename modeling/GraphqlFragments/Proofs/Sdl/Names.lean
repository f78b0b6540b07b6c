import GraphqlFragments.Proofs.Faults
import GraphqlFragments.Sdl.Document
import Mathlib
/-!
# Names of a document

Whatever a document defines has a name of the grammar: a letter or an underscore, and then
letters, digits and underscores. The names are the texts of name tokens, so the proof goes with
the tokens through all readers: what is ahead of a cursor has been made by the lexer
(`Cursor.IsLexed`), and no reader changes that.
-/

set_option mvcgen.warning false

namespace GraphqlFragments.Sdl

open Std.Do

/-- A name of the grammar. -/
def IsName (s : String) : Prop :=
  ∃ c rest, s.toList = c :: rest ∧ isNameStart c = true ∧ ∀ d ∈ rest, isNameChar d = true

instance (s : String) : Decidable (IsName s) :=
  match h : s.toList with
  | [] => isFalse fun ⟨_, _, htext, _⟩ => List.cons_ne_nil _ _ (htext.symm.trans h)
  | c :: rest =>
      decidable_of_iff (isNameStart c = true ∧ rest.all isNameChar = true)
        ⟨fun hname => ⟨c, rest, h, hname.1, List.all_eq_true.mp hname.2⟩,
          fun ⟨_, _, htext, hfirst, hrest⟩ => by
            cases htext.symm.trans h
            exact ⟨hfirst, List.all_eq_true.mpr hrest⟩⟩

theorem IsName.isNameChar {s : String} (h : IsName s) {c : Char} (hc : c ∈ s.toList) :
    isNameChar c = true := by
  obtain ⟨first, rest, htext, hfirst, hrest⟩ := h
  rw [htext] at hc
  rcases List.mem_cons.mp hc with rfl | hc
  · unfold isNameStart at hfirst
    unfold Sdl.isNameChar Char.isAlphanum
    grind
  · exact hrest c hc

/-- A character that names do not have is in none. -/
theorem IsName.notMem {s : String} (h : IsName s) {c : Char} (hc : Sdl.isNameChar c = false) :
    c ∉ s.toList := by
  intro hmem
  rw [h.isNameChar hmem] at hc
  cases hc

/-- More characters of names may follow a name. -/
theorem IsName.append {s t : String} (h : IsName s)
    (ht : ∀ c ∈ t.toList, Sdl.isNameChar c = true) : IsName (s ++ t) := by
  obtain ⟨first, rest, htext, hfirst, hrest⟩ := h
  refine ⟨first, rest ++ t.toList, ?_, hfirst, List.forall_mem_append.mpr ⟨hrest, ht⟩⟩
  rw [String.toList_append, htext]
  rfl

/-- A definition that introduces or extends a type has a name, and so has each of its fields. -/
def Definition.IsNamed : Definition → Prop
  | .scalar name | .enum name | .interface name | .union name | .input name => IsName name
  | .object name fields | .objectExtension name fields =>
      IsName name ∧ ∀ field ∈ fields, IsName field.name
  | .schema _ | .schemaExtension _ => True

/-! ## Tokens -/

namespace Lexeme

theorem kind_numberEnd_ne {kind : TokenKind} (h : kind ≠ .name) (read cs : List Char) :
    (numberEnd kind read cs).kind ≠ some .name := by
  unfold numberEnd faulty
  grind

theorem kind_exponentDigits_ne (read : List Char) (signed : Bool) (cs : List Char) :
    (exponentDigits read signed cs).kind ≠ some .name := by
  cases cs with
  | nil =>
      intro hname
      cases hname
  | cons c rest =>
      rw [exponentDigits]
      split
      · exact kind_numberEnd_ne (by decide) _ _
      · intro hname
        cases hname

theorem kind_exponentPart_ne {kind : TokenKind} (h : kind ≠ .name) (read cs : List Char) :
    (exponentPart kind read cs).kind ≠ some .name := by
  unfold exponentPart
  split
  · exact kind_numberEnd_ne h _ _
  · split
    · split <;> exact kind_exponentDigits_ne _ _ _
    · exact kind_numberEnd_ne h _ _

theorem kind_fractionPart_ne (read cs : List Char) :
    (fractionPart read cs).kind ≠ some .name := by
  unfold fractionPart
  split
  · exact nofun
  · split
    · exact kind_exponentPart_ne (by decide) _ _
    · exact nofun
  · exact kind_exponentPart_ne (by decide) _ _

theorem kind_integerPart_ne (read cs : List Char) :
    (integerPart read cs).kind ≠ some .name := by
  unfold integerPart
  split
  · split
    · exact nofun
    · exact kind_fractionPart_ne _ _
  · exact kind_fractionPart_ne _ _

theorem kind_number_ne (cs : List Char) : (number cs).kind ≠ some .name := by
  unfold number
  split
  · exact nofun
  · split
    · exact kind_integerPart_ne _ _
    · exact nofun
  · exact kind_integerPart_ne _ _

theorem kind_string_ne (rest : List Char) : (string rest).kind ≠ some .name := by
  unfold string faulty faultyHere
  grind

theorem kind_spread_ne (rest : List Char) : (spread rest).kind ≠ some .name := by
  unfold spread faultyHere
  grind

/-- A lexeme is a name only by beginning like one. -/
theorem isName_of_start {c : Char} {rest : List Char} (h : (start c rest).kind = some .name) :
    IsName (String.ofList (start c rest).text) := by
  unfold start at h ⊢
  split at h
  · cases h
  · split at h
    · cases h
    · split at h
      · cases h
      · split at h
        · next hpunctuator hblank hcomment hname =>
            rw [if_neg hpunctuator, if_neg hblank, if_neg hcomment, if_pos hname]
            refine ⟨c, rest.takeWhile isNameChar, String.toList_ofList, hname, ?_⟩
            exact fun d hd => List.mem_takeWhile_imp hd
        · split at h
          · exact absurd h (kind_spread_ne rest)
          · split at h
            · exact absurd h (kind_string_ne rest)
            · split at h
              · exact absurd h (kind_number_ne _)
              · cases h

end Lexeme

theorem isName_of_mem_tokens {offset : Nat} {cs : List Char} {t : Token}
    (ht : t ∈ tokens offset cs) (hname : t.kind = .name) : IsName t.text := by
  fun_induction tokens offset cs with
  | case1 offset => cases ht
  | case2 offset c rest lexeme later hnone ih => exact ih ht
  | case3 offset c rest lexeme later kind hkind ih =>
      rcases List.mem_cons.mp ht with rfl | hlater
      · exact Lexeme.isName_of_start (hkind.trans (congrArg some hname))
      · exact ih hlater

/-! ## Cursors -/

namespace Cursor

/-- The name tokens ahead are names. -/
def IsLexed (c : Cursor) : Prop := ∀ t ∈ c.ahead, t.kind = .name → IsName t.text

theorem settle_suffix {ahead settled : List Token} (h : settle ahead = .ok settled) :
    settled <:+ ahead := by
  fun_induction settle ahead with
  | case1 =>
      cases h
      exact List.suffix_rfl
  | case2 t rest hcomma ih => exact (ih h).trans (List.suffix_cons t rest)
  | case3 t rest problem located hfaulty => cases h
  | case4 t rest hcomma hfaulty =>
      cases h
      exact List.suffix_rfl

theorem isLexed_start {text : List Char} {c : Cursor} (h : start text = .ok c) : c.IsLexed := by
  unfold start at h
  obtain ⟨ahead, hsettle, hc⟩ := exists_of_bind_eq_ok h
  cases hc
  exact fun t ht => isName_of_mem_tokens ((settle_suffix hsettle).mem ht)

theorem IsLexed.current {c : Cursor} (h : c.IsLexed) (hkind : c.current.kind = .name) :
    IsName c.current.text := by
  unfold Cursor.current at hkind ⊢
  cases hahead : c.ahead with
  | nil =>
      rw [hahead] at hkind
      cases hkind
  | cons t rest =>
      rw [hahead] at hkind
      exact h t (by rw [hahead]; exact List.mem_cons_self) hkind

/-- Passing over tokens leaves tokens of the lexer. -/
theorem IsLexed.later {c : Cursor} {ahead : List Token} (h : c.IsLexed)
    (hahead : ahead <:+ c.ahead.tail) : IsLexed { c with ahead } :=
  fun t ht => h t (List.mem_of_mem_tail (hahead.mem ht))

end Cursor

/-! ## Readers -/

namespace Parser

/-- What a reader yields has a property, and it stays among tokens of the lexer. -/
abbrev Yields {α : Type} (reader : Parser α) (P : α → Prop) : Prop :=
  ⦃fun c => ⌜c.IsLexed⌝⦄ reader ⦃⇓? a c => ⌜P a ∧ c.IsLexed⌝⦄

/-- A reader stays among tokens of the lexer. -/
abbrev Keeps {α : Type} (reader : Parser α) : Prop :=
  ⦃fun c => ⌜c.IsLexed⌝⦄ reader ⦃⇓? _ c => ⌜c.IsLexed⌝⦄

@[spec] theorem settle_spec (ahead : List Token) :
    ⦃⌜True⌝⦄ Cursor.settle ahead ⦃⇓? settled => ⌜settled <:+ ahead⌝⦄ := by
  intro _
  cases h : Cursor.settle ahead with
  | error fault => trivial
  | ok settled => exact Cursor.settle_suffix h

@[spec] theorem keeps_kind : Keeps kind := by mvcgen [kind, current]

@[spec] theorem keeps_word : Keeps word := by mvcgen [word, current]

@[spec] theorem keeps_second : Keeps second := by mvcgen [second]

@[spec] theorem keeps_isAt (k : TokenKind) : Keeps (isAt k) := by mvcgen [isAt]

@[spec] theorem keeps_advance : Keeps advance := by
  mvcgen [advance]
  next hlexed _ hahead => exact hlexed.later hahead

section Faults

variable {α : Type} {Q : PostCond α (.arg Cursor (.except Fault .pure))}

@[spec] theorem refuse_spec (problem : SyntaxProblem) :
    ⦃fun c => Q.2.1 ⟨c.current.offset, c.current.text, .grammatical problem⟩⦄
    (refuse problem : Parser α) ⦃Q⦄ := fun _ h => h

@[spec] theorem want_spec (what : Wanted) :
    ⦃fun c => Q.2.1 ⟨c.current.offset, c.current.text, .grammatical (.wanted what)⟩⦄
    (want what : Parser α) ⦃Q⦄ := fun _ h => h

@[spec] theorem tooDeep_spec :
    ⦃fun c => Q.2.1 ⟨c.current.offset, "", .grammatical .nestingLimit⟩⦄
    (tooDeep : Parser α) ⦃Q⦄ := fun _ h => h

end Faults

theorem yields_name (what : Wanted) : Yields (name what) IsName := by
  mvcgen [name, isAt, kind, current, advance]
  next hlexed hname _ hahead =>
    exact ⟨hlexed.current (of_decide_eq_true hname), hlexed.later hahead⟩

@[spec] theorem keeps_name (what : Wanted) : Keeps (name what) := by mvcgen [name]

@[spec] theorem keeps_skipMark (mark : Char) : Keeps (skipMark mark) := by
  mvcgen [skipMark, isAtMark]

@[spec] theorem keeps_closeMark (mark : Char) : Keeps (closeMark mark) := by mvcgen [closeMark]

@[spec] theorem keeps_deeper : Keeps deeper := by mvcgen [deeper]

section Repetition

variable {α : Type} {P : α → Prop}

theorem yields_collectWithin {step : Parser (Option α)}
    (h : Yields step fun item => ∀ a, item = some a → P a) (rounds : Nat) :
    Yields (collectWithin rounds step) fun items => ∀ a ∈ items, P a := by
  induction rounds with
  | zero =>
      mvcgen [collectWithin]
      grind
  | succ rounds ih =>
      mvcgen [collectWithin, h, ih] <;> grind

theorem yields_collect {step : Parser (Option α)}
    (h : Yields step fun item => ∀ a, item = some a → P a) :
    Yields (collect step) fun items => ∀ a ∈ items, P a := by
  have hwithin := yields_collectWithin h
  mvcgen [collect, hwithin]

theorem yields_many (begins : TokenKind → Bool) {part : Parser α} (h : Yields part P) :
    Yields (many begins part) fun items => ∀ a ∈ items, P a := by
  refine yields_collect ?_
  mvcgen [h] <;> grind

@[spec] theorem keeps_nested {part : Parser α} (h : Keeps part) : Keeps (nested part) := by
  mvcgen [nested, h]

theorem keeps_collectWithin {step : Parser (Option α)} (h : Keeps step) (rounds : Nat) :
    Keeps (collectWithin rounds step) := by
  induction rounds with
  | zero => mvcgen [collectWithin]
  | succ rounds ih => mvcgen [collectWithin, h, ih]

@[spec] theorem keeps_collect {step : Parser (Option α)} (h : Keeps step) :
    Keeps (collect step) := by
  have hwithin := keeps_collectWithin h
  mvcgen [collect, hwithin]

@[spec] theorem keeps_many {begins : TokenKind → Bool} {part : Parser α} (h : Keeps part) :
    Keeps (many begins part) := by
  refine keeps_collect ?_
  mvcgen [h]

end Repetition

/-! ### Parts of definitions -/

theorem keeps_typeWithin (levels : Nat) : Keeps (typeWithin levels) := by
  induction levels with
  | zero => mvcgen [typeWithin]
  | succ levels ih => mvcgen [typeWithin, ih]

@[spec] theorem keeps_type : Keeps type := by mvcgen [type, keeps_typeWithin]

theorem keeps_valueWithin (levels : Nat) : Keeps (valueWithin levels) := by
  induction levels with
  | zero => mvcgen [valueWithin]
  | succ levels ih => mvcgen [valueWithin, ih]

@[spec] theorem keeps_value : Keeps value := keeps_valueWithin _

@[spec] theorem keeps_arguments : Keeps arguments := by mvcgen [arguments]

@[spec] theorem keeps_directives : Keeps directives := by mvcgen [directives]

@[spec] theorem keeps_skipDescription : Keeps skipDescription := by mvcgen [skipDescription]

@[spec] theorem keeps_someDirectives : Keeps someDirectives := by
  mvcgen [someDirectives, isAtMark]

@[spec] theorem keeps_separatedName? (separator : Char) : Keeps (separatedName? separator) := by
  mvcgen [separatedName?]

@[spec] theorem keeps_separatedNames (separator : Char) (what : Wanted) :
    Keeps (separatedNames separator what) := by
  mvcgen [separatedNames]

@[spec] theorem keeps_inputValues (closing : Char) : Keeps (inputValues closing) := by
  mvcgen [inputValues]

theorem yields_fieldDefinition : Yields fieldDefinition fun field => IsName field.name := by
  mvcgen [fieldDefinition, -keeps_name, yields_name] <;> grind

theorem yields_fieldDefinitions :
    Yields fieldDefinitions fun fields => ∀ field ∈ fields, IsName field.name := by
  have hmany := yields_many isDescribed yields_fieldDefinition
  mvcgen [fieldDefinitions, -keeps_many, hmany] <;> grind

@[spec] theorem keeps_fieldDefinitions : Keeps fieldDefinitions := by
  mvcgen [yields_fieldDefinitions]
  grind

@[spec] theorem keeps_interfaces : Keeps interfaces := by mvcgen [interfaces]

@[spec] theorem keeps_enumValues : Keeps enumValues := by mvcgen [enumValues]

@[spec] theorem keeps_rootOperation? : Keeps rootOperation? := by mvcgen [rootOperation?]

@[spec] theorem keeps_directiveLocation? : Keeps directiveLocation? := by
  mvcgen [directiveLocation?, noDirectiveLocation]

@[spec] theorem keeps_directiveLocations : Keeps directiveLocations := by
  mvcgen [directiveLocations, noDirectiveLocation, isAtMark]

/-! ### Definitions -/

/-- What a reader of a definition yields has a name if it has an effect. -/
abbrev YieldsNamed (reader : Parser (Option Definition)) : Prop :=
  Yields reader fun d => ∀ definition, d = some definition → definition.IsNamed

theorem yieldsNamed_object (extending : Bool) : YieldsNamed (objectDefinition extending) := by
  mvcgen [objectDefinition, -keeps_name, yields_name, -keeps_fieldDefinitions,
    yields_fieldDefinitions] <;> grind [Definition.IsNamed]

theorem yieldsNamed_interface (extending : Bool) :
    YieldsNamed (interfaceDefinition extending) := by
  mvcgen [interfaceDefinition, -keeps_name, yields_name] <;> grind [Definition.IsNamed]

theorem yieldsNamed_scalar (extending : Bool) : YieldsNamed (scalarDefinition extending) := by
  mvcgen [scalarDefinition, -keeps_name, yields_name] <;> grind [Definition.IsNamed]

theorem yieldsNamed_union (extending : Bool) : YieldsNamed (unionDefinition extending) := by
  mvcgen [unionDefinition, -keeps_name, yields_name] <;> grind [Definition.IsNamed]

theorem yieldsNamed_enum (extending : Bool) : YieldsNamed (enumDefinition extending) := by
  mvcgen [enumDefinition, -keeps_name, yields_name] <;> grind [Definition.IsNamed]

theorem yieldsNamed_input (extending : Bool) : YieldsNamed (inputDefinition extending) := by
  mvcgen [inputDefinition, -keeps_name, yields_name] <;> grind [Definition.IsNamed]

theorem yieldsNamed_schema (extending : Bool) : YieldsNamed (schemaDefinition extending) := by
  mvcgen [schemaDefinition, isAtMark] <;> grind [Definition.IsNamed]

theorem yieldsNamed_directive : YieldsNamed directiveDefinition := by
  mvcgen [directiveDefinition] <;> grind

theorem yieldsNamed_definitionBody? {extending : Bool} {keyword : String}
    {body : Parser (Option Definition)} (h : definitionBody? extending keyword = some body) :
    YieldsNamed body := by
  unfold definitionBody? at h
  split at h
  · cases h
    exact yieldsNamed_schema extending
  · cases h
    exact yieldsNamed_scalar extending
  · cases h
    exact yieldsNamed_object extending
  · cases h
    exact yieldsNamed_interface extending
  · cases h
    exact yieldsNamed_union extending
  · cases h
    exact yieldsNamed_enum extending
  · cases h
    exact yieldsNamed_input extending
  · split at h
    · cases h
    · cases h
      exact yieldsNamed_directive
  · cases h

/-! ### Operations and fragments -/

@[spec] theorem keeps_typeCondition : Keeps typeCondition := by mvcgen [typeCondition]

@[spec] theorem keeps_fieldSelection {inner : Parser Unit} (h : Keeps inner) :
    Keeps (fieldSelection inner) := by
  mvcgen [fieldSelection, isAtMark, h]

@[spec] theorem keeps_spreadSelection {inner : Parser Unit} (h : Keeps inner) :
    Keeps (spreadSelection inner) := by
  mvcgen [spreadSelection, isAtMark, h]

theorem keeps_selectionSetWithin (levels : Nat) : Keeps (selectionSetWithin levels) := by
  induction levels with
  | zero => mvcgen [selectionSetWithin]
  | succ levels ih => mvcgen [selectionSetWithin, isAtMark, ih]

@[spec] theorem keeps_selectionSet : Keeps selectionSet := keeps_selectionSetWithin _

@[spec] theorem keeps_variableDefinitions : Keeps variableDefinitions := by
  mvcgen [variableDefinitions, isAtMark]

@[spec] theorem keeps_operation : Keeps operation := by mvcgen [operation, isAtMark]

@[spec] theorem keeps_fragment : Keeps fragment := by mvcgen [fragment, isAtMark]

/-! ### Documents -/

@[spec] theorem keeps_definitionWord : Keeps definitionWord := by mvcgen [definitionWord]

@[spec] theorem yieldsNamed_extension : YieldsNamed extension := by
  mvcgen [extension]
  exact yieldsNamed_definitionBody? ‹_›

theorem yieldsNamed_definition : YieldsNamed definition := by
  mvcgen [definition]
  · grind
  · grind
  · exact yieldsNamed_definitionBody? ‹_›

theorem yields_document :
    Yields document fun definitions => ∀ definition ∈ definitions, definition.IsNamed := by
  have hmany := yields_many (· ≠ .finish) yieldsNamed_definition
  mvcgen [document, -keeps_many, hmany]
  grind

/-- What holds of all that a reader yields holds of what a run of it yields. -/
theorem Yields.of_run {α : Type} {P : α → Prop} {reader : Parser α} (h : Yields reader P)
    {c c' : Cursor} {a : α} (hc : c.IsLexed) (hrun : reader.run c = .ok (a, c')) : P a := by
  have hwp : (wp⟦reader.run c⟧ (fun r => ⌜P r.1 ∧ r.2.IsLexed⌝, ExceptConds.true)).down :=
    h c hc
  rw [hrun] at hwp
  exact hwp.1

end Parser

/-- Everything that a document defines has a name of the grammar. -/
theorem isNamed_of_parse {text : String} {document : Document}
    (h : Document.parse text = .ok document) : ∀ definition ∈ document, definition.IsNamed := by
  unfold Document.parse at h
  obtain ⟨start, hstart, hread⟩ := exists_of_bind_eq_ok h
  obtain ⟨⟨definitions, rest⟩, hrun, hdocument⟩ := exists_of_bind_eq_ok hread
  cases hdocument
  exact Parser.yields_document.of_run (Cursor.isLexed_start hstart) hrun

end GraphqlFragments.Sdl
