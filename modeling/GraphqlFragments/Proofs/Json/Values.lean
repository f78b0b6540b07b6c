import GraphqlFragments.Proofs.Json.Scalars
/-!
# Reading back values

A value whose numbers are integers of 64 bits, whose objects name each member once and
whose containers do not nest too deep is read back from what is printed of it
(`run_value`). The last two are no restriction to what has been read before
(`yields_value`).
-/

namespace GraphqlFragments.Json

/-! ## Values -/

/-- A value is another one or stands inside of it. -/
inductive Inside (w : Json) : Json → Prop
  | self : Inside w w
  | item {items : List Json} {item : Json} (h : item ∈ items) (hw : Inside w item) :
      Inside w (.array items)
  | member {members : List (String × Json)} {member : String × Json} (h : member ∈ members)
      (hw : Inside w member.2) : Inside w (.object members)

/-- The value is no number but an integer of 64 bits. -/
def IsWordIfNumber : Json → Prop
  | .integer n => Reader.isWord64 n = true
  | .float _ => False
  | _ => True

/-- Every number in the value is an integer of 64 bits. -/
def HasWordsOnly (v : Json) : Prop := ∀ w, Inside w v → w.IsWordIfNumber

/-- Containers nest to so many levels at most, and no object names a member twice. -/
def Fits : Nat → Json → Prop
  | 0, .array _ => False
  | 0, .object _ => False
  | levels + 1, .array items => ∀ item ∈ items, Fits levels item
  | levels + 1, .object members => Table.IsSound (Fits levels) members
  | _, _ => True

theorem fits_string {levels : Nat} (s : String) : Fits levels (.string s) := by
  cases levels <;> trivial

theorem Fits.of_object {levels : Nat} {members : List (String × Json)}
    (h : Fits levels (.object members)) : Table.IsSound (Fits (levels - 1)) members := by
  cases levels with
  | zero => exact absurd h id
  | succ n => exact h

theorem HasWordsOnly.of_item {items : List Json} {item : Json} (h : HasWordsOnly (.array items))
    (hitem : item ∈ items) : item.HasWordsOnly :=
  fun w hw => h w (.item hitem hw)

theorem HasWordsOnly.of_member {members : List (String × Json)} {member : String × Json}
    (h : HasWordsOnly (.object members)) (hmember : member ∈ members) : member.2.HasWordsOnly :=
  fun w hw => h w (.member hmember hw)

@[simp] theorem hasWordsOnly_null : HasWordsOnly .null := by
  rintro w ⟨⟩
  trivial

@[simp] theorem hasWordsOnly_bool (b : Bool) : HasWordsOnly (.bool b) := by
  rintro w ⟨⟩
  trivial

@[simp] theorem hasWordsOnly_string (s : String) : HasWordsOnly (.string s) := by
  rintro w ⟨⟩
  trivial

@[simp] theorem hasWordsOnly_integer_iff {n : Int} :
    HasWordsOnly (.integer n) ↔ Reader.isWord64 n = true := by
  refine ⟨fun h => h _ .self, ?_⟩
  rintro h w ⟨⟩
  exact h

@[simp] theorem hasWordsOnly_array_iff {items : List Json} :
    HasWordsOnly (.array items) ↔ ∀ item ∈ items, item.HasWordsOnly := by
  refine ⟨fun h item hitem => h.of_item hitem, fun h w hw => ?_⟩
  cases hw with
  | self => trivial
  | item hitem hw => exact h _ hitem w hw

@[simp] theorem hasWordsOnly_object_iff {members : List (String × Json)} :
    HasWordsOnly (.object members) ↔ ∀ member ∈ members, member.2.HasWordsOnly := by
  refine ⟨fun h member hmember => h.of_member hmember, fun h w hw => ?_⟩
  cases hw with
  | self => trivial
  | member hmember hw => exact h _ hmember w hw

namespace Reader

variable {α σ : Type} {layout : Layout} {level levels : Nat} {blank rest : List Char}
  {v : Json} {c : Char}

/-! ## First characters -/

theorem head?_chars_plain (hv : IsPlain v) (layout : Layout) (level : Nat) (rest : List Char) :
    ∃ c, (v.chars layout level ++ rest).head? = some c ∧
      c ∉ [' ', '\n', '\t', '\r', '[', ']', '{'] := by
  cases v with
  | null => exact ⟨'n', rfl, by decide⟩
  | bool b => cases b with
      | true => exact ⟨'t', rfl, by decide⟩
      | false => exact ⟨'f', rfl, by decide⟩
  | string s => exact ⟨'"', rfl, by decide⟩
  | integer n =>
      obtain ⟨c, cs, hchars, hc⟩ := integerChars_eq_cons n
      have hnone : [' ', '\n', '\t', '\r', '[', ']', '{'].all
          (fun c => !(c = '-' || c.isDigit)) = true := by
        decide
      refine ⟨c, by rw [Json.chars, hchars]; rfl, fun hmem => ?_⟩
      have hstart := List.all_eq_true.mp hnone c hmem
      simp only [Bool.not_eq_true', Bool.or_eq_false_iff, decide_eq_false_iff_not] at hstart
      rcases hc with rfl | hdigit
      · exact hstart.1 rfl
      · rw [hstart.2] at hdigit
        cases hdigit
  | float x => exact absurd hv id
  | array items => exact absurd hv id
  | object members => exact absurd hv id

theorem head?_chars_array (layout : Layout) (level : Nat) (items : List Json)
    (rest : List Char) : ((Json.array items).chars layout level ++ rest).head? = some '[' := by
  cases items <;> rfl

theorem head?_chars_object (layout : Layout) (level : Nat) (members : List (String × Json))
    (rest : List Char) :
    ((Json.object members).chars layout level ++ rest).head? = some '{' := by
  cases members <;> rfl

/-- A printed value begins at once, and not as the end of a list. -/
theorem head?_chars (hv : v.IsWordIfNumber) (layout : Layout) (level : Nat) (rest : List Char) :
    ∃ c, (v.chars layout level ++ rest).head? = some c ∧ isBlank c = false ∧ c ≠ ']' := by
  have hplain (h : IsPlain v) :
      ∃ c, (v.chars layout level ++ rest).head? = some c ∧ isBlank c = false ∧ c ≠ ']' := by
    obtain ⟨c, hhead, hc⟩ := head?_chars_plain h layout level rest
    simp only [List.mem_cons, not_or] at hc
    exact ⟨c, hhead, by simp [isBlank, hc], hc.2.2.2.2.2.1⟩
  cases v with
  | null => exact hplain trivial
  | bool b => exact hplain trivial
  | string s => exact hplain trivial
  | integer n => exact hplain hv
  | float x => exact absurd hv id
  | array items => exact ⟨'[', head?_chars_array _ _ _ _, by decide, by decide⟩
  | object members => exact ⟨'{', head?_chars_object _ _ _ _, by decide, by decide⟩

/-! ## Layout -/

theorem allBlank_lineBreak (layout : Layout) (level : Nat) :
    AllBlank (layout.lineBreak level) := by
  intro c hc
  cases layout with
  | compact => cases hc
  | indented =>
      rcases List.mem_cons.mp hc with rfl | hc
      · decide
      · rw [List.eq_of_mem_replicate hc]
        decide

theorem colon_eq_cons (layout : Layout) :
    ∃ blank, layout.colon = ':' :: blank ∧ AllBlank blank := by
  cases layout with
  | compact => exact ⟨[], rfl, allBlank_nil⟩
  | indented => exact ⟨[' '], rfl, allBlank_singleton (by decide)⟩

theorem endsNumber_cons {cs : List Char}
    (hc : c.isDigit = false ∧ c ≠ '.' ∧ c ≠ 'e' ∧ c ≠ 'E') : EndsNumber (c :: cs) := by
  intro d hd
  cases hd
  exact hc

theorem endsNumber_lineBreak {cs : List Char} (layout : Layout) (level : Nat)
    (h : EndsNumber cs) : EndsNumber (layout.lineBreak level ++ cs) := by
  cases layout with
  | compact => exact h
  | indented => exact endsNumber_cons (by decide)

theorem endsNumber_itemChars (layout : Layout) (level close : Nat) (items : List Json)
    (rest : List Char) :
    EndsNumber (itemChars layout level items ++ (layout.lineBreak close ++ ']' :: rest)) := by
  cases items with
  | nil => exact endsNumber_lineBreak layout close (endsNumber_cons (by decide))
  | cons item more => exact endsNumber_cons (by decide)

theorem endsNumber_memberChars (layout : Layout) (level close : Nat)
    (members : List (String × Json)) (rest : List Char) :
    EndsNumber (memberChars layout level members ++ (layout.lineBreak close ++ '}' :: rest)) := by
  cases members with
  | nil => exact endsNumber_lineBreak layout close (endsNumber_cons (by decide))
  | cons member more => exact endsNumber_cons (by decide)

theorem length_le_length_itemChars (layout : Layout) (level : Nat) (items : List Json) :
    items.length ≤ (itemChars layout level items).length := by
  induction items with
  | nil => exact Nat.zero_le _
  | cons item more ih =>
      rw [itemChars, List.length_append, List.length_cons]
      simp only [List.cons_append, List.length_cons]
      omega

theorem length_le_length_memberChars (layout : Layout) (level : Nat)
    (members : List (String × Json)) :
    members.length ≤ (memberChars layout level members).length := by
  induction members with
  | nil => exact Nat.zero_le _
  | cons member more ih =>
      rw [memberChars, List.length_append, List.length_cons]
      simp only [List.cons_append, List.length_cons]
      omega

/-! ## Lists -/

/-- A reader takes a printed value to a result, whatever follows. -/
def ReadsBack (layout : Layout) (level : Nat) (reader : Reader α) (v : Json) (a : α) : Prop :=
  ∀ blank rest, AllBlank blank → EndsNumber rest →
    reader.run (blank ++ (v.chars layout level ++ rest)) = .ok (a, rest)

variable {item : Reader Json}

theorem run_itemsWithin {items : List Json} {rounds close : Nat}
    (hitems : ∀ v ∈ items, v.IsWordIfNumber ∧ ReadsBack layout level item v v)
    (hrounds : items.length < rounds) :
    (itemsWithin item rounds).run (itemChars layout level items ++
      (layout.lineBreak close ++ ']' :: rest)) = .ok (items, rest) := by
  induction items generalizing rounds with
  | nil =>
      obtain ⟨n, rfl⟩ := Nat.exists_eq_add_one_of_ne_zero (Nat.ne_zero_of_lt hrounds)
      rw [itemChars, List.nil_append, itemsWithin,
        run_bind_of_ok (run_nextOr (allBlank_lineBreak _ _) (by rfl) (by decide)), if_pos rfl]
      rfl
  | cons v more ih =>
      obtain ⟨n, rfl⟩ := Nat.exists_eq_add_one_of_ne_zero (Nat.ne_zero_of_lt hrounds)
      obtain ⟨hnumber, hread⟩ := hitems v List.mem_cons_self
      let ending := itemChars layout level more ++ (layout.lineBreak close ++ ']' :: rest)
      have hitem : item.run (v.chars layout level ++ ending) = .ok (v, ending) :=
        hread [] ending allBlank_nil (endsNumber_itemChars layout level close more rest)
      have hmore : (itemsWithin item n).run ending = .ok (more, rest) :=
        ih (fun w hw => hitems w (List.mem_cons_of_mem _ hw)) (Nat.lt_of_succ_lt_succ hrounds)
      obtain ⟨c, hhead, hc, hclose⟩ := head?_chars hnumber layout level ending
      have htext : itemChars layout level (v :: more) ++ (layout.lineBreak close ++ ']' :: rest) =
          ',' :: (layout.lineBreak level ++ (v.chars layout level ++ ending)) := by
        simp [itemChars, ending]
      rw [htext, itemsWithin, run_bind_of_ok (run_nextOr_cons (by decide)),
        if_neg (by decide), if_neg (by decide), run_bind_of_ok (run_skip _), List.tail_cons,
        run_bind_of_ok (run_nextOr (allBlank_lineBreak _ _) hhead hc), if_neg hclose,
        run_bind_of_ok hitem, run_bind_of_ok hmore]
      rfl

theorem run_items {items : List Json}
    (hitems : ∀ v ∈ items, v.IsWordIfNumber ∧ ReadsBack layout (level + 1) item v v) :
    (Reader.items item).run ((Json.array items).chars layout level ++ rest) =
      .ok (items, rest) := by
  cases items with
  | nil => rfl
  | cons v more =>
      obtain ⟨hnumber, hread⟩ := hitems v List.mem_cons_self
      let ending := itemChars layout (level + 1) more ++ (layout.lineBreak level ++ ']' :: rest)
      have hitem : item.run (v.chars layout (level + 1) ++ ending) = .ok (v, ending) :=
        hread [] ending allBlank_nil (endsNumber_itemChars layout (level + 1) level more rest)
      have hrounds : more.length < ending.length + 1 := by
        have hbound := length_le_length_itemChars layout (level + 1) more
        rw [List.length_append]
        omega
      have hmore : (itemsWithin item (ending.length + 1)).run ending = .ok (more, rest) :=
        run_itemsWithin (fun w hw => hitems w (List.mem_cons_of_mem _ hw)) hrounds
      obtain ⟨c, hhead, hc, hclose⟩ := head?_chars hnumber layout (level + 1) ending
      have htext : (Json.array (v :: more)).chars layout level ++ rest =
          '[' :: (layout.lineBreak (level + 1) ++ (v.chars layout (level + 1) ++ ending)) := by
        simp [Json.chars, ending]
      rw [htext, Reader.items, run_bind_of_ok (run_skip _), List.tail_cons,
        run_bind_of_ok (run_nextOr (allBlank_lineBreak _ _) hhead hc), if_neg hclose,
        run_bind_of_ok hitem, run_bind_of_ok (run_rest _), run_bind_of_ok hmore]
      rfl

/-! ## Objects -/

/-- Reading members one after another, each from its colon on, leads from a state to
another. -/
inductive MembersRead (layout : Layout) (level : Nat) (member : String → σ → Reader σ) :
    List (String × Json) → σ → σ → Prop
  | nil (s : σ) : MembersRead layout level member [] s s
  | cons {key : String} {v : Json} {more : List (String × Json)} {s mid last : σ}
      (hfirst : ∀ rest, EndsNumber rest →
        (member key s).run (layout.colon ++ (v.chars layout level ++ rest)) = .ok (mid, rest))
      (hmore : MembersRead layout level member more mid last) :
      MembersRead layout level member ((key, v) :: more) s last

variable {member : String → σ → Reader σ} {members : List (String × Json)} {s last : σ}

theorem MembersRead.append {more : List (String × Json)} {mid : σ}
    (h : MembersRead layout level member members s mid)
    (hmore : MembersRead layout level member more mid last) :
    MembersRead layout level member (members ++ more) s last := by
  induction h with
  | nil s => exact hmore
  | cons hfirst _ ih => exact .cons hfirst (ih hmore)

theorem head?_stringChars (s : String) (rest : List Char) :
    (stringChars s ++ rest).head? = some '"' := rfl

theorem run_membersWithin {rounds close : Nat}
    (h : MembersRead layout level member members s last) (hrounds : members.length < rounds) :
    (membersWithin member rounds s).run (memberChars layout level members ++
      (layout.lineBreak close ++ '}' :: rest)) = .ok (last, '}' :: rest) := by
  induction h generalizing rounds with
  | nil s =>
      obtain ⟨n, rfl⟩ := Nat.exists_eq_add_one_of_ne_zero (Nat.ne_zero_of_lt hrounds)
      rw [memberChars, List.nil_append, membersWithin,
        run_bind_of_ok (run_nextOr (allBlank_lineBreak _ _) (by rfl) (by decide)), if_pos rfl]
      rfl
  | @cons key v more s mid last hfirst _ ih =>
      obtain ⟨n, rfl⟩ := Nat.exists_eq_add_one_of_ne_zero (Nat.ne_zero_of_lt hrounds)
      let ending := memberChars layout level more ++ (layout.lineBreak close ++ '}' :: rest)
      let value := layout.colon ++ (v.chars layout level ++ ending)
      have hmember : (member key s).run value = .ok (mid, ending) :=
        hfirst ending (endsNumber_memberChars layout level close more rest)
      have hmore : (membersWithin member n mid).run ending = .ok (last, '}' :: rest) :=
        ih (Nat.lt_of_succ_lt_succ hrounds)
      have htext : memberChars layout level ((key, v) :: more) ++
          (layout.lineBreak close ++ '}' :: rest) =
            ',' :: (layout.lineBreak level ++ (stringChars key ++ value)) := by
        simp [memberChars, value, ending]
      rw [htext, membersWithin, run_bind_of_ok (run_nextOr_cons (by decide)),
        if_neg (by decide), if_neg (by decide), run_bind_of_ok (run_skip _), List.tail_cons,
        run_bind_of_ok (run_nextOr (allBlank_lineBreak _ _) (head?_stringChars _ _) (by decide)),
        if_neg (by decide), if_neg (by decide), run_bind_of_ok (run_string key value),
        run_bind_of_ok hmember]
      exact hmore

/-- The members of a printed object are read up to its closing brace. -/
theorem run_members (h : MembersRead layout (level + 1) member members s last) :
    (Reader.members member s).run ((Json.object members).chars layout level ++ rest) =
      .ok (last, '}' :: rest) := by
  cases h with
  | nil => rfl
  | @cons key v more _ mid _ hfirst hrest =>
      let ending := memberChars layout (level + 1) more ++
        (layout.lineBreak level ++ '}' :: rest)
      let value := layout.colon ++ (v.chars layout (level + 1) ++ ending)
      have hmember : (member key s).run value = .ok (mid, ending) :=
        hfirst ending (endsNumber_memberChars layout (level + 1) level more rest)
      have hrounds : more.length < ending.length + 1 := by
        have hbound := length_le_length_memberChars layout (level + 1) more
        rw [List.length_append]
        omega
      have hmore : (membersWithin member (ending.length + 1) mid).run ending =
          .ok (last, '}' :: rest) := run_membersWithin hrest hrounds
      have htext : (Json.object ((key, v) :: more)).chars layout level ++ rest =
          '{' :: (layout.lineBreak (level + 1) ++ (stringChars key ++ value)) := by
        simp [Json.chars, value, ending]
      rw [htext, Reader.members, run_bind_of_ok (run_skip _), List.tail_cons,
        run_bind_of_ok (run_nextOr (allBlank_lineBreak _ _) (head?_stringChars _ _) (by decide)),
        if_neg (by decide), if_neg (by decide), run_bind_of_ok (run_string key value),
        run_bind_of_ok hmember, run_bind_of_ok (run_rest _)]
      exact hmore

theorem run_afterColon {reader : Reader α} {f : α → σ} {a : α}
    (hread : ReadsBack layout level reader v a) (hrest : EndsNumber rest) :
    (do colon; return f (← reader)).run (layout.colon ++ (v.chars layout level ++ rest)) =
      .ok (f a, rest) := by
  obtain ⟨blank, hcolon, hblank⟩ := colon_eq_cons layout
  have hvalue := hread blank rest hblank hrest
  rw [hcolon, List.cons_append, run_bind_of_ok (run_colon _), run_bind_of_ok hvalue, run_pure]

/-- A member that is read as one value leads to the state with that value. -/
theorem MembersRead.ofValue {reader : Reader α} {f : α → σ} {a : α} {key : String}
    {more : List (String × Json)} (hmember : member key s = do colon; return f (← reader))
    (hread : ReadsBack layout level reader v a)
    (hmore : MembersRead layout level member more (f a) last) :
    MembersRead layout level member ((key, v) :: more) s last := by
  refine .cons (fun rest hrest => ?_) hmore
  rw [hmember]
  exact run_afterColon hread hrest

/-- Members that are read alike are added to a state one by one. -/
theorem membersRead_foldl {reader : Reader α} {print : α → Json} {add : σ → String × α → σ}
    {entries : List (String × α)}
    (hmember : ∀ e ∈ entries, ∀ s, member e.1 s = do colon; return add s (e.1, ← reader))
    (hvalues : ∀ e ∈ entries, ReadsBack layout level reader (print e.2) e.2) :
    MembersRead layout level member (entries.map fun e => (e.1, print e.2)) s
      (entries.foldl add s) := by
  induction entries generalizing s with
  | nil => exact .nil s
  | cons e more ih =>
      have hmore := ih (s := add s e) (fun d hd => hmember d (List.mem_cons_of_mem _ hd))
        (fun d hd => hvalues d (List.mem_cons_of_mem _ hd))
      exact .ofValue (hmember e List.mem_cons_self s) (hvalues e List.mem_cons_self) hmore

/-- Values are printed as they are. -/
theorem map_entries_id (entries : List (String × α)) :
    (entries.map fun e => (e.1, id e.2)) = entries := List.map_id entries

/-- Adds a member to a table. -/
def tableMember (value : Reader α) (key : String) (t : Table α) : Reader (Table α) := do
  colon
  return Table.insert t key (← value)

theorem run_table {value : Reader α} {print : α → Json} {entries : Table α}
    (hvalues : ∀ e ∈ entries, ReadsBack layout (level + 1) value (print e.2) e.2)
    (hnodup : entries.keys.Nodup) :
    (Reader.table value).run
        ((Json.object (entries.map fun e => (e.1, print e.2))).chars layout level ++ rest) =
      .ok (entries, rest) := by
  have hmembers : MembersRead layout (level + 1) (tableMember value)
      (entries.map fun e => (e.1, print e.2)) [] (Table.ofList entries) :=
    membersRead_foldl (fun _ _ _ => rfl) hvalues
  rw [Table.ofList_of_nodup hnodup] at hmembers
  change (Reader.members (tableMember value) [] >>= _).run _ = _
  rw [run_bind_of_ok (run_members hmembers), run_bind_of_ok (run_closeObject _)]
  rfl

theorem run_tableOf {value : Reader α} {print : α → Json} {entries : Table α} (wanted : Shape)
    (hvalues : ∀ e ∈ entries, ReadsBack layout (level + 1) value (print e.2) e.2)
    (hnodup : entries.keys.Nodup) :
    ReadsBack layout level (tableOf wanted value)
      (.object (entries.map fun e => (e.1, print e.2))) entries := by
  intro blank rest hblank _
  rw [tableOf, run_bind_of_ok (run_begins hblank (head?_chars_object _ _ _ _) (by decide))]
  exact run_table hvalues hnodup

/-! ## Values -/

theorem run_value_plain (hv : IsPlain v) : ReadsBack layout level (value levels) v v := by
  intro blank rest hblank hrest
  obtain ⟨c, hhead, hc⟩ := head?_chars_plain hv layout level rest
  simp only [List.mem_cons, not_or] at hc
  have hfirst : isBlank c = false := by simp [isBlank, hc]
  cases levels with
  | zero =>
      rw [value, run_bind_of_ok (run_nextOr hblank hhead hfirst), if_neg (by simp [hc])]
      exact run_scalar hv hrest layout level
  | succ n =>
      rw [value, run_bind_of_ok (run_nextOr hblank hhead hfirst), if_neg hc.2.2.2.2.1,
        if_neg hc.2.2.2.2.2.2.1]
      exact run_scalar hv hrest layout level

/-- What is printed of a value is read as that value. -/
theorem run_value (hfits : v.Fits levels) (hwords : v.HasWordsOnly) :
    ReadsBack layout level (value levels) v v := by
  induction levels generalizing v level with
  | zero =>
      refine run_value_plain ?_
      have hv := hwords v .self
      cases v with
      | array items => exact absurd hfits id
      | object members => exact absurd hfits id
      | float x => exact absurd hv id
      | null => trivial
      | bool b => trivial
      | string s => trivial
      | integer n => exact hv
  | succ n ih =>
      have hv := hwords v .self
      cases v with
      | null => exact run_value_plain trivial
      | bool b => exact run_value_plain trivial
      | string s => exact run_value_plain trivial
      | integer n => exact run_value_plain hv
      | float x => exact absurd hv id
      | array items =>
          intro blank rest hblank _
          have hitems : (Reader.items (value n)).run
              ((Json.array items).chars layout level ++ rest) = .ok (items, rest) :=
            run_items fun w hw =>
              ⟨hwords.of_item hw w .self, ih (hfits w hw) (hwords.of_item hw)⟩
          have hhead := head?_chars_array layout level items rest
          rw [value, run_bind_of_ok (run_nextOr hblank hhead (by decide)), if_pos rfl,
            run_bind_of_ok hitems]
          rfl
      | object members =>
          intro blank rest hblank _
          have hmembers : (Reader.table (value n)).run
              ((Json.object (members.map fun e => (e.1, id e.2))).chars layout level ++ rest) =
                .ok (members, rest) :=
            run_table (fun e he => ih (hfits.values e he) (hwords.of_member he)) hfits.nodup
          rw [map_entries_id] at hmembers
          have hhead := head?_chars_object layout level members rest
          rw [value, run_bind_of_ok (run_nextOr hblank hhead (by decide)), if_neg (by decide),
            if_pos rfl, run_bind_of_ok hmembers]
          rfl

/-! ## What is read fits -/

theorem yields_number : Yields number (Fits levels) := by
  have hinteger (n : Int) : Fits levels (.integer n) := by cases levels <;> trivial
  have hfloat (x : Float) : Fits levels (.float x) := by cases levels <;> trivial
  unfold number
  refine .seq fun first => .optional fun _ => .seq fun whole => .seq fun fraction => ?_
  refine .seq fun exponent => .ite (fun _ => .pure (hinteger _)) fun _ => ?_
  exact .optional fun _ => .pure (hfloat _)

theorem yields_scalar : Yields scalar (Fits levels) := by
  unfold scalar
  refine .seq fun start => ?_
  split
  · exact .seq fun _ => .seq fun _ => .pure (by cases levels <;> trivial)
  · exact .seq fun _ => .seq fun _ => .pure (by cases levels <;> trivial)
  · exact .seq fun _ => .seq fun _ => .pure (by cases levels <;> trivial)
  · exact .seq fun _ => .pure (by cases levels <;> trivial)
  · exact .ite (fun _ => yields_number) fun _ => yields_failPast _
  · exact yields_failPast _

theorem yields_itemsWithin {P : α → Prop} {item : Reader α} (hitem : Yields item P)
    (rounds : Nat) : Yields (itemsWithin item rounds) fun items => ∀ a ∈ items, P a := by
  induction rounds with
  | zero => exact yields_failPast _
  | succ n ih =>
      rw [itemsWithin]
      refine .seq fun c => .ite (fun _ => .seq fun _ => .pure fun _ h => nomatch h) fun _ => ?_
      refine .optional fun _ => .seq fun _ => .seq fun _ => .optional fun _ => ?_
      exact hitem.bind fun a ha => ih.bind fun as has => .pure (List.forall_mem_cons.mpr ⟨ha, has⟩)

theorem yields_items {P : α → Prop} {item : Reader α} (hitem : Yields item P) :
    Yields (items item) fun items => ∀ a ∈ items, P a := by
  unfold items
  refine .seq fun _ => .seq fun c => .ite (fun _ => .seq fun _ => .pure fun _ h => nomatch h)
    fun _ => ?_
  exact hitem.bind fun a ha => .seq fun _ => (yields_itemsWithin hitem _).bind fun as has =>
    .pure (List.forall_mem_cons.mpr ⟨ha, has⟩)

theorem yields_membersWithin {I : σ → Prop} {member : String → σ → Reader σ}
    (hmember : ∀ key s, I s → Yields (member key s) I) (rounds : Nat) (hs : I s) :
    Yields (membersWithin member rounds s) I := by
  induction rounds generalizing s with
  | zero => exact yields_failPast _
  | succ n ih =>
      rw [membersWithin]
      refine .seq fun c => .ite (fun _ => .pure hs) fun _ => .optional fun _ => ?_
      refine .seq fun _ => .seq fun c => .optional fun _ => .optional fun _ => ?_
      exact .seq fun key => (hmember key s hs).bind fun next hnext => ih hnext

theorem yields_members {I : σ → Prop} {member : String → σ → Reader σ}
    (hmember : ∀ key s, I s → Yields (member key s) I) (hstart : I s) :
    Yields (Reader.members member s) I := by
  unfold Reader.members
  refine .seq fun _ => .seq fun c => .ite (fun _ => .pure hstart) fun _ => .optional fun _ => ?_
  refine .seq fun key => (hmember key s hstart).bind fun first hfirst => .seq fun rest => ?_
  exact yields_membersWithin hmember _ hfirst

theorem yields_table {P : α → Prop} {value : Reader α} (hvalue : Yields value P) :
    Yields (Reader.table value) (Table.IsSound P) := by
  have hmember (key : String) (t : Table α) (ht : t.IsSound P) :
      Yields (tableMember value key t) (Table.IsSound P) := by
    unfold tableMember
    exact .seq fun _ => hvalue.bind fun a ha => .pure (ht.insert key ha)
  exact (yields_members hmember Table.isSound_nil).bind fun t ht => .seq fun _ => .pure ht

theorem yields_value : Yields (value levels) (Fits levels) := by
  induction levels with
  | zero =>
      rw [value]
      exact .seq fun c => .ite (fun _ => yields_failPast _) fun _ => yields_scalar
  | succ n ih =>
      rw [value]
      refine .seq fun c => .ite (fun _ => ?_) fun _ => .ite (fun _ => ?_) fun _ => yields_scalar
      · exact (yields_items ih).bind fun items hitems => .pure hitems
      · exact (yields_table ih).bind fun t ht => .pure ht

theorem yields_tableOf {P : α → Prop} {value : Reader α} (wanted : Shape)
    (hvalue : Yields value P) : Yields (tableOf wanted value) (Table.IsSound P) := by
  unfold tableOf
  exact .seq fun _ => yields_table hvalue

end Reader

end GraphqlFragments.Json
