import GraphqlFragments.Proofs.Sdl.Spelling
/-!
# Accepted words

A reader that stands before some words passes over those that it reads and stands before the
rest. The lemmas go through the readers of a fragment one by one, up to `parse_of_spells`: a text
that spells fragments is a document, one that defines nothing.
-/

namespace GraphqlFragments.Sdl

/-- Where a cursor stands: the words ahead of it and its depth. -/
structure Place where
  ahead : List Word
  depth : Nat
  deriving DecidableEq, Repr

namespace Place

def kind (p : Place) : TokenKind := (p.ahead.head?.map Word.kind).getD .finish

def word (p : Place) : String := (p.ahead.head?.map Word.text).getD ""

end Place

/-- The cursor stands at the place, wherever in the document that is. -/
structure Cursor.StandsAt (c : Cursor) (p : Place) : Prop where
  ahead : c.ahead.map Token.shape = p.ahead.map Word.shape
  depth : c.depth = p.depth

namespace Parser

/-- The reader goes from one place to another and yields a value. -/
def Passes {α : Type} (reader : Parser α) (p : Place) (a : α) (q : Place) : Prop :=
  ∀ c : Cursor, c.StandsAt p → ∃ c', reader.run c = .ok (a, c') ∧ c'.StandsAt q

variable {α β : Type} {p q r : Place} {a : α} {b : β} {words rest : List Word} {depth : Nat}

theorem passes_pure (a : α) (p : Place) : Passes (pure a) p a p := fun c hc => ⟨c, rfl, hc⟩

theorem Passes.bind {reader : Parser α} {next : α → Parser β} (h : Passes reader p a q)
    (hnext : Passes (next a) q b r) : Passes (reader >>= next) p b r := by
  intro c hc
  obtain ⟨c', hrun, hc'⟩ := h c hc
  obtain ⟨c'', hrun', hc''⟩ := hnext c' hc'
  refine ⟨c'', ?_, hc''⟩
  rw [StateT.run_bind, hrun]
  exact hrun'

/-! ## Looking at the current word -/

theorem current_of_standsAt {c : Cursor} (h : c.StandsAt p) :
    c.current.kind = p.kind ∧ c.current.text = p.word := by
  obtain ⟨ahead, size, depth⟩ := c
  obtain ⟨words, d⟩ := p
  have hahead := h.ahead
  cases ahead with
  | nil =>
      cases words with
      | nil => exact ⟨rfl, rfl⟩
      | cons w rest => cases hahead
  | cons t later =>
      cases words with
      | nil => cases hahead
      | cons w rest =>
          have hshape : t.shape = w.shape := (List.cons.inj hahead).1
          exact ⟨congrArg Prod.fst hshape, congrArg Prod.snd hshape⟩

theorem passes_kind (p : Place) : Passes kind p p.kind p := by
  intro c hc
  rw [← (current_of_standsAt hc).1]
  exact ⟨c, rfl, hc⟩

theorem passes_word (p : Place) : Passes word p p.word p := by
  intro c hc
  rw [← (current_of_standsAt hc).2]
  exact ⟨c, rfl, hc⟩

theorem passes_isAt (k : TokenKind) (p : Place) : Passes (isAt k) p (decide (p.kind = k)) p :=
  (passes_kind p).bind (passes_pure _ p)

theorem passes_isAtMark (mark : Char) (p : Place) :
    Passes (isAtMark mark) p (decide (p.kind = .punctuator mark)) p := passes_isAt _ p

theorem second_of_standsAt {c : Cursor} {w : Word} (h : c.StandsAt ⟨w :: rest, depth⟩) :
    c.second.kind = (Place.mk rest depth).kind ∧ c.second.text = (Place.mk rest depth).word := by
  have htail : c.ahead.tail.map Token.shape = rest.map Word.shape := by
    rw [List.map_tail, h.ahead]
    rfl
  unfold Cursor.second
  cases hahead : c.ahead.tail with
  | nil =>
      rw [hahead, eq_comm, List.map_nil, List.map_eq_nil_iff] at htail
      rw [htail]
      exact ⟨rfl, rfl⟩
  | cons t later =>
      cases rest with
      | nil =>
          rw [hahead] at htail
          cases htail
      | cons v rest =>
          rw [hahead] at htail
          have hshape : t.shape = v.shape := (List.cons.inj htail).1
          have hkind : t.kind = v.kind := congrArg Prod.fst hshape
          -- Words are no faulty tokens, so the next one is not overlooked.
          dsimp only
          rw [List.find?_cons_of_pos (by rw [hkind]; cases v <;> rfl)]
          exact ⟨hkind, congrArg Prod.snd hshape⟩

/-- What a reader does after a look at the second token hangs on the kind and the text of that
token, not on where it stands. -/
theorem passes_second {next : Token → Parser β} {w : Word}
    (hnext : ∀ t : Token, t.kind = (Place.mk rest depth).kind →
      t.text = (Place.mk rest depth).word → Passes (next t) ⟨w :: rest, depth⟩ b q) :
    Passes (second >>= next) ⟨w :: rest, depth⟩ b q := by
  intro c hc
  obtain ⟨hkind, htext⟩ := second_of_standsAt hc
  obtain ⟨c', hrun, hc'⟩ := hnext c.second hkind htext c hc
  exact ⟨c', hrun, hc'⟩

/-! ## Going on -/

theorem settle_of_map_shape {ahead : List Token}
    (h : ahead.map Token.shape = words.map Word.shape) : Cursor.settle ahead = .ok ahead := by
  cases ahead with
  | nil => rfl
  | cons t later =>
      cases words with
      | nil => cases h
      | cons w rest =>
          have hkind : t.kind = w.kind := congrArg Prod.fst (List.cons.inj h).1
          rw [Cursor.settle, hkind]
          cases w <;> rfl

theorem passes_advance (w : Word) (rest : List Word) (depth : Nat) :
    Passes advance ⟨w :: rest, depth⟩ w.text ⟨rest, depth⟩ := by
  intro c hc
  have htail : c.ahead.tail.map Token.shape = rest.map Word.shape := by
    rw [List.map_tail, hc.ahead]
    rfl
  refine ⟨{ c with ahead := c.ahead.tail }, ?_, htail, hc.depth⟩
  have htext : c.current.text = w.text := (current_of_standsAt hc).2
  rw [← htext]
  change ((Cursor.settle c.ahead.tail >>= fun ahead => Except.ok (ahead, c)) >>= fun r =>
    Except.ok (c.current.text, { c with ahead := r.1 })) = _
  rw [settle_of_map_shape htail]
  rfl

theorem passes_name (what : Wanted) (s : String) (rest : List Word) (depth : Nat) :
    Passes (name what) ⟨.name s :: rest, depth⟩ s ⟨rest, depth⟩ :=
  (passes_isAt _ _).bind (passes_advance (.name s) rest depth)

theorem passes_skipMark {mark : Char} {w : Word} (h : w.kind = .punctuator mark) :
    Passes (skipMark mark) ⟨w :: rest, depth⟩ true ⟨rest, depth⟩ := by
  refine (passes_isAtMark mark _).bind ?_
  rw [decide_eq_true (show (Place.mk (w :: rest) depth).kind = _ from h)]
  exact (passes_advance w rest depth).bind (passes_pure true _)

theorem passes_skipMark_of_ne {mark : Char} (h : p.kind ≠ .punctuator mark) :
    Passes (skipMark mark) p false p := by
  refine (passes_isAtMark mark p).bind ?_
  rw [decide_eq_false h]
  exact passes_pure false p

theorem passes_closeMark (rest : List Word) (depth : Nat) :
    Passes (closeMark '}') ⟨.closing :: rest, depth⟩ () ⟨rest, depth⟩ :=
  (passes_skipMark rfl).bind (passes_pure () _)

/-! ## Nesting and repetition -/

theorem passes_deeper (h : depth < nestingLimit) (words : List Word) :
    Passes deeper ⟨words, depth⟩ () ⟨words, depth + 1⟩ := by
  intro c hc
  have hdepth : c.depth = depth := hc.depth
  refine ⟨{ c with depth := c.depth + 1 }, ?_, hc.ahead, by rw [hdepth]⟩
  change (if c.depth + 1 > nestingLimit then tooDeep else pure () : Parser Unit).run _ = _
  rw [if_neg (by omega)]
  rfl

theorem passes_nested {part : Parser α} {inner : Nat}
    (h : Passes part ⟨words, depth⟩ a ⟨rest, inner⟩) :
    Passes (nested part) ⟨words, depth⟩ a ⟨rest, depth⟩ := by
  intro c hc
  obtain ⟨c', hrun, hc'⟩ := h c hc
  refine ⟨{ c' with depth := c.depth }, ?_, hc'.ahead, hc.depth⟩
  change (part.run c >>= fun r => Except.ok (r.1, { r.2 with depth := c.depth })) = _
  rw [hrun]
  rfl

section Repetition

variable {ι : Type} {spelled : ι → List Word} {value : ι → α} {items : List ι}
  (Ends : List Word → Prop)

/-- A repetition takes one step for each item that is there. How far a step goes can hang on
what comes after it, so `Ends` says what may. -/
theorem passes_collectWithin {step : Parser (Option α)}
    (hstep : ∀ i ∈ items, ∀ later, Ends later →
      Passes step ⟨spelled i ++ later, depth⟩ (some (value i)) ⟨later, depth⟩)
    (hspelled : ∀ i ∈ items, ∀ later, Ends (spelled i ++ later)) (hends : Ends rest)
    (hstop : Passes step ⟨rest, depth⟩ none ⟨rest, depth⟩) {rounds : Nat}
    (hrounds : items.length < rounds) :
    Passes (collectWithin rounds step) ⟨items.flatMap spelled ++ rest, depth⟩ (items.map value)
      ⟨rest, depth⟩ := by
  induction items generalizing rounds with
  | nil =>
      obtain ⟨rounds, rfl⟩ : ∃ k, rounds = k + 1 := ⟨rounds - 1, by simp at hrounds; omega⟩
      exact hstop.bind (passes_pure _ _)
  | cons i items ih =>
      rw [List.length_cons] at hrounds
      obtain ⟨rounds, rfl⟩ : ∃ k, rounds = k + 1 := ⟨rounds - 1, by omega⟩
      rw [List.forall_mem_cons] at hstep hspelled
      -- Behind an item stands the next one, or what follows all of them.
      have hlater : Ends (items.flatMap spelled ++ rest) := by
        cases items with
        | nil => exact hends
        | cons j items =>
            rw [List.flatMap_cons, List.append_assoc]
            exact hspelled.2 j List.mem_cons_self _
      rw [List.flatMap_cons, List.append_assoc]
      refine (hstep.1 _ hlater).bind ?_
      exact (ih hstep.2 hspelled.2 (by omega)).bind (passes_pure _ _)

theorem passes_many_of_not {begins : TokenKind → Bool} {part : Parser α}
    (h : begins p.kind = false) : Passes (many begins part) p [] p := by
  intro c hc
  have hstep :
      Passes (do if begins (← kind) then return some (← part) else return none) p none p := by
    refine (passes_kind p).bind ?_
    rw [h]
    exact passes_pure none p
  have hwithin : Passes (collectWithin (c.ahead.length + 1)
      (do if begins (← kind) then return some (← part) else return none)) p [] p :=
    hstep.bind (passes_pure [] p)
  exact hwithin c hc

theorem length_le_length_flatMap (h : ∀ i ∈ items, spelled i ≠ []) :
    items.length ≤ (items.flatMap spelled).length := by
  induction items with
  | nil => exact Nat.le_refl 0
  | cons i items ih =>
      rw [List.forall_mem_cons] at h
      have hpos := List.length_pos_of_ne_nil h.1
      have hrest := ih h.2
      rw [List.flatMap_cons, List.length_append, List.length_cons]
      omega

/-- A reader that is repeated for as long as its parts begin passes over all of them. -/
theorem passes_many {begins : TokenKind → Bool} {part : Parser α}
    (hpart : ∀ i ∈ items, ∀ later, Ends later →
      Passes part ⟨spelled i ++ later, depth⟩ (value i) ⟨later, depth⟩)
    (hbegins : ∀ i ∈ items, ∃ w words, spelled i = w :: words ∧ begins w.kind = true)
    (hspelled : ∀ i ∈ items, ∀ later, Ends (spelled i ++ later)) (hends : Ends rest)
    (hrest : begins (Place.mk rest depth).kind = false) :
    Passes (many begins part) ⟨items.flatMap spelled ++ rest, depth⟩ (items.map value)
      ⟨rest, depth⟩ := by
  intro c hc
  have hne : ∀ i ∈ items, spelled i ≠ [] := by
    intro i hi
    obtain ⟨w, words, hwords, -⟩ := hbegins i hi
    rw [hwords]
    exact List.cons_ne_nil w words
  have hrounds : items.length < c.ahead.length + 1 := by
    have hlength := congrArg List.length hc.ahead
    rw [List.length_map, List.length_map, List.length_append] at hlength
    have hitems := length_le_length_flatMap hne
    omega
  refine passes_collectWithin Ends (fun i hi later hlater => ?_) hspelled hends ?_
    hrounds c hc
  · obtain ⟨w, words, hwords, hw⟩ := hbegins i hi
    refine (passes_kind _).bind ?_
    have hkind : (Place.mk (spelled i ++ later) depth).kind = w.kind := by
      rw [hwords]
      rfl
    rw [hkind, hw]
    exact (hpart i hi later hlater).bind (passes_pure _ _)
  · refine (passes_kind _).bind ?_
    rw [hrest]
    exact passes_pure _ _

end Repetition

/-! ## Fragments -/

theorem kind_ne_punctuator {mark : Char} (h : mark ≠ '{') (h' : mark ≠ '}') (p : Place) :
    p.kind ≠ .punctuator mark := by
  obtain ⟨words, depth⟩ := p
  cases words with
  | nil => exact nofun
  | cons w rest =>
      cases w with
      | name s => exact nofun
      | dots => exact nofun
      | opening => exact fun hkind => h (TokenKind.punctuator.inj hkind).symm
      | closing => exact fun hkind => h' (TokenKind.punctuator.inj hkind).symm

theorem passes_directives (p : Place) : Passes directives p () p :=
  (passes_many_of_not (decide_eq_false (kind_ne_punctuator (by decide) (by decide) p))).bind
    (passes_pure () p)

/-- The words of one selection: a field, a spread, or a field with a spread inside. -/
inductive IsSelection : List Word → Prop
  | field (field : String) : IsSelection [.name field]
  | spread {fragment : String} (h : fragment ≠ "on") : IsSelection [.dots, .name fragment]
  | nested (field : String) {fragment : String} (h : fragment ≠ "on") :
      IsSelection [.name field, .opening, .dots, .name fragment, .closing]

/-- What can come after a selection: anything but the selections of a field. -/
def EndsSelection (words : List Word) : Prop := words.head? ≠ some .opening

theorem IsSelection.endsSelection (h : IsSelection words) (later : List Word) :
    EndsSelection (words ++ later) := by
  cases h <;> exact nofun

theorem EndsSelection.kind_ne (h : EndsSelection words) (depth : Nat) :
    (Place.mk words depth).kind ≠ .punctuator '{' := by
  cases words with
  | nil => exact nofun
  | cons w rest =>
      cases w with
      | name s => exact nofun
      | dots => exact nofun
      | opening => exact absurd rfl h
      | closing => exact nofun

/-- The reader of one selection; `levels` sets may be inside of it. -/
def selectionWithin (levels : Nat) : Parser Unit := do
  if ← isAt .name then fieldSelection (selectionSetWithin levels)
  else spreadSelection (selectionSetWithin levels)

theorem passes_spreadSelection {fragment : String} (h : fragment ≠ "on") (inner : Parser Unit)
    (rest : List Word) (depth : Nat) :
    Passes (spreadSelection inner) ⟨.dots :: .name fragment :: rest, depth⟩ () ⟨rest, depth⟩ := by
  refine passes_second fun t hkind htext => ?_
  have hnamed : (decide (t.kind = .name) && decide (t.text ≠ "on")) = true := by
    rw [show t.kind = .name from hkind, show t.text = fragment from htext]
    exact decide_eq_true h
  rw [if_pos hnamed]
  refine (passes_advance .dots _ depth).bind ?_
  exact (passes_advance (.name fragment) rest depth).bind (passes_directives _)

/-- A selection set passes if its selections do. -/
theorem passes_selectionSetWithin {levels : Nat} {selections : List (List Word)}
    (hne : selections ≠ []) (hdepth : depth < nestingLimit)
    (hselections : ∀ s ∈ selections, IsSelection s)
    (hpart : ∀ s ∈ selections, ∀ later, EndsSelection later →
      Passes (selectionWithin levels) ⟨s ++ later, depth + 1⟩ () ⟨later, depth + 1⟩) :
    Passes (selectionSetWithin (levels + 1))
      ⟨.opening :: (selections.flatMap id ++ .closing :: rest), depth⟩ () ⟨rest, depth⟩ := by
  have hbegins : ∀ s ∈ selections,
      ∃ w words, id s = w :: words ∧ isSelectionStart w.kind = true := by
    intro s hs
    cases hselections s hs with
    | field field => exact ⟨_, _, rfl, rfl⟩
    | spread h => exact ⟨_, _, rfl, rfl⟩
    | nested field h => exact ⟨_, _, rfl, rfl⟩
  have hmany : Passes (many isSelectionStart (selectionWithin levels))
      ⟨selections.flatMap id ++ .closing :: rest, depth + 1⟩ (selections.map fun _ => ())
      ⟨.closing :: rest, depth + 1⟩ :=
    passes_many EndsSelection hpart hbegins (fun s hs => (hselections s hs).endsSelection) nofun rfl
  have hset : (selections.map fun _ => ()).isEmpty = false := by
    cases selections with
    | nil => exact absurd rfl hne
    | cons s selections => rfl
  have hbody : Passes (do
        deeper
        let selections ← many isSelectionStart (selectionWithin levels)
        if selections.isEmpty && !(← isAtMark '{') then want .selections)
      ⟨selections.flatMap id ++ .closing :: rest, depth⟩ () ⟨.closing :: rest, depth + 1⟩ := by
    refine (passes_deeper hdepth _).bind (hmany.bind ((passes_isAtMark '{' _).bind ?_))
    rw [hset]
    exact passes_pure () _
  exact (passes_advance .opening _ depth).bind
    ((passes_nested hbody).bind (passes_closeMark rest depth))

theorem passes_fieldSelection {inner : Parser Unit}
    (h : Passes (do if ← isAtMark '{' then inner) ⟨rest, depth⟩ () q) (field : String) :
    Passes (fieldSelection inner) ⟨.name field :: rest, depth⟩ () q := by
  refine passes_second fun t hkind _ => ?_
  have hcolon : ¬t.kind = .punctuator ':' := by
    rw [hkind]
    exact kind_ne_punctuator (by decide) (by decide) _
  have harguments : (Place.mk rest depth).kind ≠ .punctuator '(' :=
    kind_ne_punctuator (by decide) (by decide) _
  rw [if_neg hcolon]
  refine (passes_name .name field rest depth).bind ?_
  refine (passes_skipMark_of_ne harguments).bind ?_
  exact (passes_directives _).bind h

/-- The set inside of a field holds one spread. -/
theorem passes_innerSet {fragment : String} (h : fragment ≠ "on") (levels : Nat)
    (hdepth : depth < nestingLimit) :
    Passes (selectionSetWithin (levels + 1))
      ⟨.opening :: .dots :: .name fragment :: .closing :: rest, depth⟩ () ⟨rest, depth⟩ := by
  have hspread : ∀ s ∈ [[Word.dots, Word.name fragment]], ∀ later, EndsSelection later →
      Passes (selectionWithin levels) ⟨s ++ later, depth + 1⟩ () ⟨later, depth + 1⟩ := by
    intro s hs later _
    rw [List.mem_singleton.mp hs]
    exact (passes_isAt .name _).bind (passes_spreadSelection h _ later (depth + 1))
  exact passes_selectionSetWithin (List.cons_ne_nil _ _) hdepth
    (List.forall_mem_singleton.mpr (.spread h)) hspread

theorem passes_selectionWithin (h : IsSelection words) (hrest : EndsSelection rest) (levels : Nat)
    (hdepth : depth < nestingLimit) :
    Passes (selectionWithin (levels + 1)) ⟨words ++ rest, depth⟩ () ⟨rest, depth⟩ := by
  cases h with
  | field field =>
      refine (passes_isAt .name _).bind (passes_fieldSelection ?_ field)
      refine (passes_isAtMark '{' _).bind ?_
      change Passes (if decide ((Place.mk rest depth).kind = .punctuator '{') = true
        then selectionSetWithin (levels + 1) else pure ()) ⟨rest, depth⟩ () ⟨rest, depth⟩
      rw [decide_eq_false (hrest.kind_ne depth)]
      exact passes_pure () _
  | spread h => exact (passes_isAt .name _).bind (passes_spreadSelection h _ rest depth)
  | nested field h =>
      refine (passes_isAt .name _).bind (passes_fieldSelection ?_ field)
      exact (passes_isAtMark '{' _).bind (passes_innerSet h levels hdepth)

theorem passes_typeCondition (type : String) (rest : List Word) (depth : Nat) :
    Passes typeCondition ⟨.name "on" :: .name type :: rest, depth⟩ () ⟨rest, depth⟩ := by
  refine (passes_isAt .name _).bind ((passes_word _).bind ?_)
  refine (passes_advance (.name "on") _ depth).bind ?_
  refine (passes_isAt .name _).bind ?_
  exact (passes_advance (.name type) rest depth).bind (passes_pure () _)

/-- The words of one fragment. -/
inductive IsFragment : List Word → Prop
  | intro {name : String} (type : String) {selections : List (List Word)} (hname : name ≠ "on")
      (hne : selections ≠ []) (hselections : ∀ s ∈ selections, IsSelection s) :
      IsFragment (.name "fragment" :: .name name :: .name "on" :: .name type :: .opening ::
        (selections.flatMap id ++ [.closing]))

theorem passes_fragment (h : IsFragment words) (hdepth : depth + 1 < nestingLimit) :
    Passes fragment ⟨words ++ rest, depth⟩ () ⟨rest, depth⟩ := by
  cases h with
  | @intro name type selections hname hne hselections =>
      have hset : Passes selectionSet
          ⟨.opening :: (selections.flatMap id ++ .closing :: rest), depth⟩ () ⟨rest, depth⟩ :=
        passes_selectionSetWithin hne (by omega) hselections fun s hs later hlater =>
          passes_selectionWithin (hselections s hs) hlater (nestingLimit - 1) hdepth
      rw [List.cons_append, List.cons_append, List.cons_append, List.cons_append,
        List.cons_append, List.append_assoc, List.singleton_append]
      refine (passes_advance (.name "fragment") _ depth).bind ?_
      refine (passes_isAt .name _).bind ((passes_word _).bind ?_)
      rw [if_neg (show ¬(Place.mk (.name name :: _) depth).word = "on" from hname)]
      refine (passes_advance (.name name) _ depth).bind ?_
      refine (passes_typeCondition type _ depth).bind ((passes_directives _).bind ?_)
      exact (passes_isAtMark '{' _).bind hset

/-! ## Documents -/

theorem passes_definition (h : IsFragment words) (hdepth : depth + 1 < nestingLimit) :
    Passes definition ⟨words ++ rest, depth⟩ none ⟨rest, depth⟩ := by
  have hword : Passes definitionWord ⟨words ++ rest, depth⟩ "fragment" ⟨words ++ rest, depth⟩ := by
    obtain ⟨type, -, -, -⟩ := h
    exact (passes_kind _).bind (passes_word _)
  exact hword.bind ((passes_fragment h hdepth).bind (passes_pure none _))

/-- Fragments define no types. -/
theorem passes_document {fragments : List (List Word)} (h : ∀ f ∈ fragments, IsFragment f) :
    Passes document ⟨fragments.flatMap id, 0⟩ [] ⟨[], 0⟩ := by
  have hbegins : ∀ f ∈ fragments,
      ∃ w words, id f = w :: words ∧ decide (w.kind ≠ .finish) = true := by
    intro f hf
    obtain ⟨type, hname, hne, hselections⟩ := h f hf
    exact ⟨_, _, rfl, rfl⟩
  have hmany : Passes (many (· ≠ .finish) definition) ⟨fragments.flatMap id ++ [], 0⟩
      (fragments.map fun _ => none) ⟨[], 0⟩ :=
    passes_many (fun _ => True) (fun f hf _ _ => passes_definition (h f hf) (by decide)) hbegins
      (fun _ _ _ => trivial) trivial rfl
  have hnone : (fragments.map fun _ => (none : Option Definition)).filterMap id = [] :=
    List.filterMap_eq_nil_iff.mpr fun d hd => by
      obtain ⟨_, -, rfl⟩ := List.mem_map.mp hd
      rfl
  rw [List.append_nil] at hmany
  rw [← hnone]
  exact hmany.bind (passes_pure _ _)

end Parser

/-- A text that spells fragments is a document. -/
theorem parse_of_spells {text : String} {fragments : List (List Word)}
    (h : Spells text (fragments.flatMap id)) (hfragments : ∀ f ∈ fragments, Parser.IsFragment f) :
    Document.parse text = .ok [] := by
  have hshapes :
      (tokens 0 text.toList).map Token.shape = (fragments.flatMap id).map Word.shape := by
    have hend := h []
    rw [List.append_nil, show shapes [] = [] by rw [shapes, tokens]; rfl, List.append_nil] at hend
    rw [map_shape_tokens, hend]
  have hstart : Cursor.start text.toList
      = .ok ⟨tokens 0 text.toList, Text.utf8Size text.toList, 0⟩ := by
    rw [Cursor.start, Parser.settle_of_map_shape hshapes]
    rfl
  obtain ⟨c, hrun, -⟩ := Parser.passes_document hfragments
    ⟨tokens 0 text.toList, Text.utf8Size text.toList, 0⟩ ⟨hshapes, rfl⟩
  rw [Document.parse, hstart]
  change (Parser.document.run _ >>= fun r => Except.ok r.1) = _
  rw [hrun]
  rfl

end GraphqlFragments.Sdl
