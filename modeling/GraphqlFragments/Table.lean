/-!
# Tables

A table maps names to values and remembers the order in which its names came
first. Giving a name a new value keeps its place.
-/

namespace GraphqlFragments

/-- Names with their values, in the order in which the names came first. -/
abbrev Table (α : Type) := List (String × α)

namespace Table

variable {α : Type}

/-- The names of a table, in order. -/
def keys (t : Table α) : List String := t.map Prod.fst

def get? : Table α → String → Option α
  | [], _ => none
  | (k, v) :: rest, name => if k = name then some v else get? rest name

def contains (t : Table α) (name : String) : Bool := (t.get? name).isSome

/-- A new name goes to the end; a known one keeps its place and takes the new
value. -/
def insert : Table α → String → α → Table α
  | [], name, value => [(name, value)]
  | (k, v) :: rest, name, value =>
      if k = name then (k, value) :: rest else (k, v) :: insert rest name value

/-- The last of some entries, followed by the others. -/
def lastFirst (entries : Table α) : Table α :=
  match entries.getLast? with
  | none => []
  | some last => last :: entries.dropLast

/-- The last entry takes the place of the one that goes. -/
def erase : Table α → String → Table α
  | [], _ => []
  | (k, v) :: rest, name =>
      if k = name then lastFirst rest else (k, v) :: erase rest name

/-- Changes the value of a name, if the table has one. -/
def modify : Table α → String → (α → α) → Table α
  | [], _, _ => []
  | (k, v) :: rest, name, f =>
      if k = name then (k, f v) :: rest else (k, v) :: modify rest name f

/-- Of several values for one name the last one counts, in the place of the
first. -/
def ofList (entries : List (String × α)) : Table α :=
  entries.foldl (fun t entry => t.insert entry.1 entry.2) []

/-! ## Reading back -/

@[simp] theorem get?_nil (name : String) : get? ([] : Table α) name = none := rfl

@[simp] theorem get?_insert_self (t : Table α) (name : String) (value : α) :
    (t.insert name value).get? name = some value := by
  induction t with
  | nil => simp [insert, get?]
  | cons entry rest ih =>
      obtain ⟨k, v⟩ := entry
      by_cases h : k = name <;> simp [insert, get?, h, ih]

theorem get?_insert_of_ne (t : Table α) {name other : String} (value : α)
    (h : other ≠ name) : (t.insert name value).get? other = t.get? other := by
  induction t with
  | nil => simp [insert, get?, h.symm]
  | cons entry rest ih =>
      obtain ⟨k, v⟩ := entry
      by_cases hk : k = name
      · subst hk
        simp [insert, get?, h.symm]
      · simp [insert, get?, hk, ih]

theorem get?_modify_self (t : Table α) (name : String) (f : α → α) :
    (t.modify name f).get? name = (t.get? name).map f := by
  induction t with
  | nil => rfl
  | cons entry rest ih =>
      obtain ⟨k, v⟩ := entry
      by_cases hk : k = name <;> simp [modify, get?, hk, ih]

theorem get?_modify_of_ne (t : Table α) {name other : String} (f : α → α) (h : other ≠ name) :
    (t.modify name f).get? other = t.get? other := by
  induction t with
  | nil => rfl
  | cons entry rest ih =>
      obtain ⟨k, v⟩ := entry
      by_cases hk : k = name
      · subst hk
        simp [modify, get?, h.symm]
      · simp [modify, get?, hk, ih]

/-- A new value hides the one before it, as if it stood in front. -/
theorem get?_insert (t : Table α) (name other : String) (value : α) :
    (t.insert name value).get? other = get? ((name, value) :: t) other := by
  rw [get?]
  by_cases h : name = other
  · rw [if_pos h, h, get?_insert_self]
  · rw [if_neg h, get?_insert_of_ne t value fun he => h he.symm]

/-- To give a name the value that it has changes nothing. -/
theorem insert_of_get? {t : Table α} {name : String} {value : α}
    (h : t.get? name = some value) : t.insert name value = t := by
  induction t with
  | nil => cases h
  | cons entry rest ih =>
      obtain ⟨k, v⟩ := entry
      by_cases hk : k = name
      · have hv : v = value := by simpa [get?, hk] using h
        simp [insert, hk, hv]
      · simp [insert, hk, ih (by simpa [get?, hk] using h)]

/-- A change that keeps the value of the name changes nothing. -/
theorem modify_of_fixed {t : Table α} {name : String} {f : α → α}
    (h : ∀ value, t.get? name = some value → f value = value) : t.modify name f = t := by
  induction t with
  | nil => rfl
  | cons entry rest ih =>
      obtain ⟨k, v⟩ := entry
      by_cases hk : k = name
      · simp [modify, hk, h v (by simp [get?, hk])]
      · simp [modify, hk, ih fun value hvalue => h value (by simpa [get?, hk] using hvalue)]

theorem mem_of_get? {t : Table α} {name : String} {value : α} (h : t.get? name = some value) :
    (name, value) ∈ t := by
  induction t with
  | nil => cases h
  | cons entry rest ih =>
      obtain ⟨k, v⟩ := entry
      rw [get?] at h
      by_cases hk : k = name
      · rw [if_pos hk] at h
        cases h
        rw [hk]
        exact List.mem_cons_self
      · rw [if_neg hk] at h
        exact List.mem_cons_of_mem _ (ih h)

theorem isSome_get?_iff {t : Table α} {name : String} :
    (t.get? name).isSome ↔ name ∈ t.keys := by
  induction t with
  | nil => simp [keys]
  | cons entry rest ih =>
      obtain ⟨k, v⟩ := entry
      by_cases hk : k = name
      · simp [get?, keys, hk]
      · have hn : ¬name = k := fun e => hk e.symm
        simpa [get?, keys, hk, hn] using ih

theorem get?_eq_none_iff {t : Table α} {name : String} : t.get? name = none ↔ name ∉ t.keys := by
  rw [← isSome_get?_iff, Option.not_isSome_iff_eq_none]

theorem get?_append (t u : Table α) (name : String) :
    get? (t ++ u) name = (t.get? name).or (u.get? name) := by
  induction t with
  | nil => rfl
  | cons entry rest ih =>
      obtain ⟨k, v⟩ := entry
      by_cases hk : k = name <;> simp [get?, hk, ih]

theorem get?_map {β : Type} (f : α → β) (t : Table α) (name : String) :
    get? (t.map fun entry => (entry.1, f entry.2)) name = (t.get? name).map f := by
  induction t with
  | nil => rfl
  | cons entry rest ih =>
      obtain ⟨k, v⟩ := entry
      by_cases hk : k = name <;> simp [get?, hk, ih]

theorem get?_mapEntries {β : Type} (f : String → α → β) (t : Table α) (name : String) :
    get? (t.map fun entry => (entry.1, f entry.1 entry.2)) name = (t.get? name).map (f name) := by
  induction t with
  | nil => rfl
  | cons entry rest ih =>
      obtain ⟨k, v⟩ := entry
      by_cases hk : k = name
      · simp [get?, hk]
      · simp [get?, hk, ih]

/-- Read from its end, a table gives the last value of a name. -/
theorem get?_reverse (entries : Table α) (name : String) :
    get? entries.reverse name =
      (entries.filterMap fun entry => if entry.1 = name then some entry.2 else none).getLast? := by
  induction entries with
  | nil => rfl
  | cons entry rest ih =>
      rw [List.reverse_cons, get?_append, ih, get?, List.filterMap_cons]
      by_cases h : entry.1 = name
      · simp only [if_pos h, List.getLast?_cons]
        cases (rest.filterMap fun e => if e.1 = name then some e.2 else none).getLast? <;> rfl
      · simp [h]

/-- Where each name stands once, the entries are the values of the names. -/
theorem mem_iff_get? {t : Table α} (h : t.keys.Nodup) {name : String} {value : α} :
    (name, value) ∈ t ↔ t.get? name = some value := by
  refine ⟨fun hmem => ?_, mem_of_get?⟩
  induction t with
  | nil => cases hmem
  | cons entry rest ih =>
      obtain ⟨k, v⟩ := entry
      obtain ⟨hk, hrest⟩ := List.nodup_cons.mp h
      rcases List.mem_cons.mp hmem with heq | hmem
      · cases heq
        simp [get?]
      · have hne : k ≠ name := fun he => hk (List.mem_map.mpr ⟨_, hmem, he.symm⟩)
        simpa [get?, hne] using ih hrest hmem

/-! ## Order of the names -/

@[simp] theorem keys_modify (t : Table α) (name : String) (f : α → α) :
    (t.modify name f).keys = t.keys := by
  induction t with
  | nil => rfl
  | cons entry rest ih =>
      obtain ⟨k, v⟩ := entry
      by_cases hk : k = name
      · simp [modify, keys, hk]
      · simpa [modify, keys, hk] using ih

theorem modify_eq_map {t : Table α} (h : t.keys.Nodup) (name : String) (f : α → α) :
    t.modify name f =
      t.map fun entry => (entry.1, if entry.1 = name then f entry.2 else entry.2) := by
  induction t with
  | nil => rfl
  | cons entry rest ih =>
      obtain ⟨k, v⟩ := entry
      obtain ⟨hk, hrest⟩ := List.nodup_cons.mp h
      rw [modify, List.map_cons, ih hrest]
      by_cases hname : k = name
      · have hothers : rest.map (fun entry =>
            (entry.1, if entry.1 = name then f entry.2 else entry.2)) = rest := by
          refine (List.map_congr_left fun entry hentry => ?_).trans (List.map_id rest)
          have hne : entry.1 ≠ name := fun he =>
            hk (List.mem_map.mpr ⟨entry, hentry, he.trans hname.symm⟩)
          rw [if_neg hne]
          rfl
        rw [hothers, if_pos hname, if_pos hname]
      · simp [hname]

theorem isEmpty_modify (t : Table α) (name : String) (f : α → α) :
    (t.modify name f).isEmpty = t.isEmpty := by
  cases t with
  | nil => rfl
  | cons entry rest =>
      rw [modify]
      split <;> rfl

theorem keys_insert (t : Table α) (name : String) (value : α) :
    (t.insert name value).keys =
      if name ∈ t.keys then t.keys else t.keys ++ [name] := by
  induction t with
  | nil => simp [insert, keys]
  | cons entry rest ih =>
      obtain ⟨k, v⟩ := entry
      by_cases hk : k = name
      · simp [insert, keys, hk]
      · have hn : ¬name = k := fun e => hk e.symm
        simp only [keys] at ih
        by_cases hm : name ∈ List.map Prod.fst rest <;>
          simp [insert, keys, hk, hn, ih, hm]

theorem insert_of_notMem {t : Table α} {name : String} (value : α) (h : name ∉ t.keys) :
    t.insert name value = t ++ [(name, value)] := by
  induction t with
  | nil => rfl
  | cons entry rest ih =>
      obtain ⟨k, v⟩ := entry
      have hk : ¬k = name := fun e => h (e ▸ List.mem_cons_self)
      have hrest : name ∉ keys rest := fun hmem => h (List.mem_cons_of_mem _ hmem)
      rw [insert, if_neg hk, ih hrest]
      rfl

theorem mem_keys_insert_iff {t : Table α} {name other : String} {value : α} :
    other ∈ (t.insert name value).keys ↔ other = name ∨ other ∈ t.keys := by
  rw [keys_insert]
  by_cases h : name ∈ t.keys
  · rw [if_pos h]
    refine ⟨Or.inr, ?_⟩
    rintro (rfl | hmem)
    · exact h
    · exact hmem
  · rw [if_neg h, List.mem_append, List.mem_singleton, Or.comm]

theorem nodup_keys_insert {t : Table α} (h : t.keys.Nodup) (name : String) (value : α) :
    (t.insert name value).keys.Nodup := by
  rw [keys_insert]
  by_cases hmem : name ∈ t.keys
  · rwa [if_pos hmem]
  · rw [if_neg hmem, List.nodup_append]
    refine ⟨h, List.pairwise_singleton _ _, ?_⟩
    rintro a ha b hb rfl
    exact hmem (List.mem_singleton.mp hb ▸ ha)

/-! ## Tables of entries -/

theorem nodup_keys_ofList (entries : List (String × α)) : (ofList entries).keys.Nodup := by
  have hfold (t : Table α) (h : t.keys.Nodup) :
      (entries.foldl (fun t entry => t.insert entry.1 entry.2) t).keys.Nodup := by
    induction entries generalizing t with
    | nil => exact h
    | cons entry rest ih => exact ih _ (nodup_keys_insert h _ _)
  exact hfold [] List.nodup_nil

theorem mem_keys_foldl_insert {entries : List (String × α)} {t : Table α} {name : String}
    (h : name ∈ entries.map Prod.fst ∨ name ∈ t.keys) :
    name ∈ (entries.foldl (fun t entry => t.insert entry.1 entry.2) t).keys := by
  induction entries generalizing t with
  | nil => exact h.resolve_left List.not_mem_nil
  | cons first rest ih =>
      rw [List.foldl_cons]
      apply ih
      rcases h with h | h
      · rcases List.mem_cons.mp h with rfl | h
        · exact Or.inr (mem_keys_insert_iff.mpr (Or.inl rfl))
        · exact Or.inl h
      · exact Or.inr (mem_keys_insert_iff.mpr (Or.inr h))

theorem mem_keys_ofList_of_mem {entries : List (String × α)} {entry : String × α}
    (h : entry ∈ entries) : entry.1 ∈ (ofList entries).keys :=
  mem_keys_foldl_insert (Or.inl (List.mem_map_of_mem h))

theorem foldl_insert_of_nodup {entries t : Table α} (h : (keys (t ++ entries)).Nodup) :
    entries.foldl (fun t entry => t.insert entry.1 entry.2) t = t ++ entries := by
  induction entries generalizing t with
  | nil => rw [List.foldl_nil, List.append_nil]
  | cons first rest ih =>
      have hfirst : first.1 ∉ t.keys := by
        intro hmem
        rw [keys, List.map_append, List.nodup_append] at h
        exact h.2.2 first.1 hmem first.1 List.mem_cons_self rfl
      have hsplit : t ++ first :: rest = (t ++ [first]) ++ rest := by simp
      rw [hsplit] at h ⊢
      rw [List.foldl_cons, insert_of_notMem first.2 hfirst]
      exact ih h

theorem ofList_concat (entries : List (String × α)) (name : String) (value : α) :
    ofList (entries ++ [(name, value)]) = (ofList entries).insert name value := by
  rw [ofList, List.foldl_append]
  rfl

theorem ofList_of_nodup {entries : Table α} (h : entries.keys.Nodup) :
    ofList entries = entries := foldl_insert_of_nodup h

theorem insert_map {β : Type} (f : α → β) (t : Table α) (name : String) (value : α) :
    insert (t.map fun entry => (entry.1, f entry.2)) name (f value) =
      (t.insert name value).map fun entry => (entry.1, f entry.2) := by
  induction t with
  | nil => rfl
  | cons entry rest ih =>
      obtain ⟨k, v⟩ := entry
      by_cases hk : k = name <;> simp [insert, hk, ih]

/-- Changing all values of a table does not get in the way of other changes. -/
theorem modify_map {β : Type} {f : α → β} {g : α → α} {h : β → β}
    (hcomm : ∀ a, f (g a) = h (f a)) (t : Table α) (name : String) :
    modify (t.map fun entry => (entry.1, f entry.2)) name h =
      (t.modify name g).map fun entry => (entry.1, f entry.2) := by
  induction t with
  | nil => rfl
  | cons entry rest ih =>
      obtain ⟨k, v⟩ := entry
      by_cases hk : k = name <;> simp [modify, hk, hcomm, ih]

theorem ofList_map {β : Type} (f : α → β) (entries : List (String × α)) :
    ofList (entries.map fun entry => (entry.1, f entry.2)) =
      (ofList entries).map fun entry => (entry.1, f entry.2) := by
  have hfold (t : Table α) :
      (entries.map fun entry => (entry.1, f entry.2)).foldl
        (fun t entry => insert t entry.1 entry.2) (t.map fun entry => (entry.1, f entry.2)) =
      (entries.foldl (fun t entry => t.insert entry.1 entry.2) t).map
        fun entry => (entry.1, f entry.2) := by
    induction entries generalizing t with
    | nil => rfl
    | cons entry rest ih => rw [List.map_cons, List.foldl_cons, List.foldl_cons, insert_map, ih]
  exact hfold []

/-- Of the values that are given to a name one after the other the last one counts. -/
theorem get?_foldl_insert_eq (entries t : Table α) (name : String) :
    (entries.foldl (fun t entry => t.insert entry.1 entry.2) t).get? name =
      get? (entries.reverse ++ t) name := by
  induction entries generalizing t with
  | nil => rfl
  | cons entry rest ih =>
      rw [List.foldl_cons, ih, List.reverse_cons, List.append_assoc, List.singleton_append,
        get?_append, get?_append, get?_insert]

theorem keys_foldl_insert (entries t : Table α) :
    (entries.foldl (fun t entry => t.insert entry.1 entry.2) t).keys =
      t.keys ++ ((entries.map Prod.fst).removeAll t.keys).eraseDups := by
  induction entries generalizing t with
  | nil => simp
  | cons entry rest ih =>
      rw [List.foldl_cons, ih, keys_insert, List.map_cons]
      by_cases h : entry.1 ∈ t.keys
      · simp [List.removeAll, h]
      · have hequal (name : String) : (name == entry.1) = decide (name = entry.1) := rfl
        simp [List.removeAll, h, List.eraseDups_cons, List.filter_filter, Bool.and_comm, hequal]

/-- The names stand in the order in which they came first. -/
theorem keys_ofList (entries : Table α) :
    (ofList entries).keys = (entries.map Prod.fst).eraseDups := by
  rw [ofList, keys_foldl_insert]
  exact congrArg List.eraseDups (List.filter_eq_self.mpr fun _ _ => rfl)

/-- A value in a table has been put there or was there before. -/
theorem get?_foldl_insert {entries : List (String × α)} {t : Table α} {name : String} {value : α}
    (h : (entries.foldl (fun t entry => t.insert entry.1 entry.2) t).get? name = some value) :
    (name, value) ∈ entries ∨ t.get? name = some value := by
  induction entries generalizing t with
  | nil => exact Or.inr h
  | cons first rest ih =>
      obtain ⟨k, v⟩ := first
      rcases ih h with hrest | hinsert
      · exact Or.inl (List.mem_cons_of_mem _ hrest)
      · by_cases hk : name = k
        · subst hk
          rw [get?_insert_self] at hinsert
          cases hinsert
          exact Or.inl List.mem_cons_self
        · rw [get?_insert_of_ne _ _ hk] at hinsert
          exact Or.inr hinsert

/-! ## Erasing -/

theorem lastFirst_perm (entries : Table α) : (lastFirst entries).Perm entries := by
  cases h : entries.getLast? with
  | none => simp [lastFirst, List.getLast?_eq_none_iff.1 h]
  | some last =>
      have hne : entries ≠ [] := by
        intro he
        simp [he] at h
      have hlast : entries.getLast hne = last := by
        simpa [List.getLast?_eq_some_getLast hne] using h
      have happend := List.dropLast_concat_getLast hne
      rw [hlast] at happend
      simp only [lastFirst, h]
      have hmove : (last :: entries.dropLast).Perm (entries.dropLast ++ [last]) :=
        (List.perm_append_singleton last entries.dropLast).symm
      rwa [happend] at hmove

/-- Up to their order, the entries of the other names are left. -/
theorem erase_perm (t : Table α) (name : String) (h : t.keys.Nodup) :
    (t.erase name).Perm (t.filter fun entry => entry.1 != name) := by
  induction t with
  | nil => exact List.Perm.refl _
  | cons entry rest ih =>
      obtain ⟨k, v⟩ := entry
      simp only [keys, List.map_cons, List.nodup_cons] at h
      by_cases hk : k = name
      · have hrest : rest.filter (fun entry => entry.1 != name) = rest := by
          refine List.filter_eq_self.2 fun e he => ?_
          have : e.1 ≠ name := fun hn =>
            h.1 (List.mem_map.2 ⟨e, he, hn.trans hk.symm⟩)
          simpa using this
        simpa [erase, hk, hrest] using lastFirst_perm rest
      · simpa [erase, hk] using ih h.2

theorem nodup_keys_erase {t : Table α} (h : t.keys.Nodup) (name : String) :
    (t.erase name).keys.Nodup := by
  have hkeys : (t.erase name).keys.Perm (keys (t.filter fun entry => entry.1 != name)) :=
    (erase_perm t name h).map Prod.fst
  exact hkeys.nodup_iff.mpr (h.sublist (List.filter_sublist.map Prod.fst))

theorem get?_erase_self {t : Table α} (h : t.keys.Nodup) (name : String) :
    (t.erase name).get? name = none := by
  cases hvalue : (t.erase name).get? name with
  | none => rfl
  | some value =>
      have hmem := (erase_perm t name h).mem_iff.mp (mem_of_get? hvalue)
      simp at hmem

theorem get?_erase_of_ne {t : Table α} (h : t.keys.Nodup) {name other : String}
    (hne : other ≠ name) : (t.erase name).get? other = t.get? other := by
  refine Option.ext fun value => ?_
  rw [← mem_iff_get? (nodup_keys_erase h name), ← mem_iff_get? h,
    (erase_perm t name h).mem_iff]
  simp [hne]

theorem erase_of_notMem {t : Table α} {name : String} (h : name ∉ t.keys) : t.erase name = t := by
  induction t with
  | nil => rfl
  | cons entry rest ih =>
      obtain ⟨k, v⟩ := entry
      have hk : k ≠ name := fun he => h (he ▸ List.mem_cons_self)
      have hrest : name ∉ keys rest := fun hmem => h (List.mem_cons_of_mem _ hmem)
      simp [erase, hk, ih hrest]

/-! ## Sound tables -/

/-- Each name stands once, with a value that has some property. -/
structure IsSound (P : α → Prop) (t : Table α) : Prop where
  nodup : t.keys.Nodup
  values : ∀ entry ∈ t, P entry.2

section Sound

variable {P : α → Prop} {t : Table α}

theorem isSound_nil : IsSound P [] := ⟨List.nodup_nil, fun _ hentry => nomatch hentry⟩

theorem mem_insert {name : String} {value : α} {entry : String × α}
    (h : entry ∈ t.insert name value) : entry = (name, value) ∨ entry ∈ t := by
  induction t with
  | nil => exact Or.inl (List.mem_singleton.mp h)
  | cons first rest ih =>
      obtain ⟨k, v⟩ := first
      rw [insert] at h
      by_cases hk : k = name
      · rw [if_pos hk, List.mem_cons, hk] at h
        exact h.imp_right (List.mem_cons_of_mem _)
      · rw [if_neg hk, List.mem_cons] at h
        rcases h with rfl | h
        · exact Or.inr List.mem_cons_self
        · exact (ih h).imp_right (List.mem_cons_of_mem _)

theorem IsSound.insert (h : t.IsSound P) (name : String) {value : α} (hvalue : P value) :
    (t.insert name value).IsSound P := by
  refine ⟨nodup_keys_insert h.nodup name value, fun entry hentry => ?_⟩
  rcases mem_insert hentry with rfl | hold
  · exact hvalue
  · exact h.values entry hold

theorem IsSound.erase (h : t.IsSound P) (name : String) : (t.erase name).IsSound P := by
  refine ⟨nodup_keys_erase h.nodup name, fun entry hentry => ?_⟩
  have hmem := (erase_perm t name h.nodup).mem_iff.mp hentry
  exact h.values entry (List.mem_filter.mp hmem).1

theorem mem_modify {name : String} {f : α → α} {entry : String × α}
    (h : entry ∈ t.modify name f) : ∃ old ∈ t, entry.2 = old.2 ∨ entry.2 = f old.2 := by
  induction t with
  | nil => cases h
  | cons first rest ih =>
      obtain ⟨k, v⟩ := first
      have hfirst : (k, v) ∈ (k, v) :: rest := List.mem_cons_self
      have htail (hmem : entry ∈ rest) : ∃ old ∈ (k, v) :: rest,
          entry.2 = old.2 ∨ entry.2 = f old.2 :=
        ⟨entry, List.mem_cons_of_mem _ hmem, Or.inl rfl⟩
      rw [modify] at h
      by_cases hk : k = name
      · rw [if_pos hk] at h
        rcases List.mem_cons.mp h with rfl | h
        · exact ⟨(k, v), hfirst, Or.inr rfl⟩
        · exact htail h
      · rw [if_neg hk] at h
        rcases List.mem_cons.mp h with rfl | h
        · exact ⟨(k, v), hfirst, Or.inl rfl⟩
        · obtain ⟨old, hold, hvalue⟩ := ih h
          exact ⟨old, List.mem_cons_of_mem _ hold, hvalue⟩

theorem IsSound.modify (h : t.IsSound P) (name : String) {f : α → α}
    (hf : ∀ a, P a → P (f a)) : (t.modify name f).IsSound P := by
  refine ⟨by rw [keys_modify]; exact h.nodup, fun entry hentry => ?_⟩
  obtain ⟨old, hold, hsame | hchanged⟩ := mem_modify hentry
  · rw [hsame]
    exact h.values old hold
  · rw [hchanged]
    exact hf _ (h.values old hold)

end Sound

end Table

end GraphqlFragments
