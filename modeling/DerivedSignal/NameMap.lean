namespace DerivedSignal

/-- Entries under strictly increasing names. -/
structure NameMap (α : Type) where
  entries : List (String × α)
  sorted : entries.Pairwise (fun a b => a.1 < b.1)

namespace NameMap

variable {α β : Type}

/-- The map without entries. -/
def empty : NameMap α := ⟨[], List.Pairwise.nil⟩

instance : Inhabited (NameMap α) := ⟨empty⟩

/-- The entry under a name, in a list of entries. -/
def lookup (name : String) : List (String × α) → Option α
  | [] => none
  | (k, v) :: rest => if k = name then some v else lookup name rest

/-- The value under a name. -/
def find? (m : NameMap α) (name : String) : Option α := lookup name m.entries

/-- Whether there is a value under a name. -/
def contains (m : NameMap α) (name : String) : Bool := (m.find? name).isSome

/-- The names, increasing. -/
def names (m : NameMap α) : List String := m.entries.map (·.1)

/-- The values, in the order of their names. -/
def values (m : NameMap α) : List α := m.entries.map (·.2)

/-- The number of entries. -/
def size (m : NameMap α) : Nat := m.entries.length

/-- Puts a value into its place among the entries, over an older one of its name. -/
def place (name : String) (value : α) : List (String × α) → List (String × α)
  | [] => [(name, value)]
  | (k, v) :: rest =>
    if name < k then (name, value) :: (k, v) :: rest
    else if k = name then (name, value) :: rest
    else (k, v) :: place name value rest

theorem mem_place {name : String} {value : α} {entries : List (String × α)} {e : String × α}
    (h : e ∈ place name value entries) : e = (name, value) ∨ e ∈ entries := by
  induction entries with
  | nil => simpa [place] using h
  | cons head rest ih =>
    obtain ⟨k, v⟩ := head
    unfold place at h
    split at h
    next => simpa using h
    next =>
      split at h
      next =>
        rcases List.mem_cons.mp h with h | h
        · exact Or.inl h
        · exact Or.inr (List.mem_cons_of_mem _ h)
      next =>
        rcases List.mem_cons.mp h with h | h
        · exact Or.inr (h ▸ List.mem_cons_self)
        · exact (ih h).imp_right (List.mem_cons_of_mem _)

theorem place_sorted {name : String} {value : α} {entries : List (String × α)}
    (h : entries.Pairwise (fun a b => a.1 < b.1)) :
    (place name value entries).Pairwise (fun a b => a.1 < b.1) := by
  induction entries with
  | nil => simp [place]
  | cons head rest ih =>
    obtain ⟨k, v⟩ := head
    have hk := (List.pairwise_cons.mp h).1
    unfold place
    split
    next hlt =>
      refine List.pairwise_cons.mpr ⟨?_, h⟩
      intro e he
      rcases List.mem_cons.mp he with he | he
      · subst he; exact hlt
      · exact String.lt_trans hlt (hk e he)
    next hnlt =>
      split
      next heq =>
        subst heq
        exact List.pairwise_cons.mpr ⟨hk, (List.pairwise_cons.mp h).2⟩
      next hne =>
        refine List.pairwise_cons.mpr ⟨?_, ih (List.pairwise_cons.mp h).2⟩
        intro e he
        rcases mem_place he with he | he
        · subst he
          by_cases hlt : k < name
          · exact hlt
          · exact absurd (String.le_antisymm (String.not_lt.mp hnlt) (String.not_lt.mp hlt)) hne
        · exact hk e he

theorem lookup_place (name q : String) (value : α) (entries : List (String × α)) :
    lookup q (place name value entries) = if name = q then some value else lookup q entries := by
  induction entries with
  | nil => simp [place, lookup]
  | cons head rest ih =>
    obtain ⟨k, v⟩ := head
    unfold place
    split
    next => simp [lookup]
    next =>
      split
      next heq =>
        subst heq
        by_cases hq : k = q <;> simp [lookup, hq]
      next hne =>
        by_cases hq : k = q
        · subst hq
          simp [lookup, Ne.symm hne]
        · simp [lookup, hq, ih]

theorem lookup_filter (wanted : String → Bool) (q : String) (entries : List (String × α)) :
    lookup q (entries.filter fun e => wanted e.1) =
      if wanted q then lookup q entries else none := by
  induction entries with
  | nil => simp [lookup]
  | cons head rest ih =>
    obtain ⟨k, v⟩ := head
    by_cases hq : k = q
    · subst hq
      cases hw : wanted k <;> simp_all [lookup]
    · cases hw : wanted k <;> simp_all [lookup]

theorem mem_of_lookup {q : String} {value : α} {entries : List (String × α)}
    (h : lookup q entries = some value) : (q, value) ∈ entries := by
  induction entries with
  | nil => simp [lookup] at h
  | cons head rest ih =>
    obtain ⟨k, v⟩ := head
    by_cases hq : k = q
    · simp_all [lookup]
    · simp only [lookup, hq, if_false] at h
      exact List.mem_cons_of_mem _ (ih h)

theorem lookup_eq_none {q : String} {entries : List (String × α)} (h : ∀ e ∈ entries, e.1 ≠ q) :
    lookup q entries = none := by
  cases hl : lookup q entries with
  | none => rfl
  | some value => exact absurd rfl (h (q, value) (mem_of_lookup hl))

/-- Sorted entries are determined by what is found among them. -/
theorem eq_of_lookup {entries entries' : List (String × α)}
    (hs : entries.Pairwise fun a b => a.1 < b.1) (hs' : entries'.Pairwise fun a b => a.1 < b.1)
    (h : ∀ q, lookup q entries = lookup q entries') : entries = entries' := by
  induction entries generalizing entries' with
  | nil =>
    cases entries' with
    | nil => rfl
    | cons head' rest' => simpa [lookup] using h head'.1
  | cons head rest ih =>
    obtain ⟨k, v⟩ := head
    cases entries' with
    | nil => simpa [lookup] using h k
    | cons head' rest' =>
      obtain ⟨k', v'⟩ := head'
      obtain ⟨hk, hrest⟩ := List.pairwise_cons.mp hs
      obtain ⟨hk', hrest'⟩ := List.pairwise_cons.mp hs'
      have hkk : k = k' := by
        by_cases hkk : k = k'
        · exact hkk
        · have hl := h k
          have hl' := h k'
          simp only [lookup, if_true, hkk, Ne.symm hkk, if_false] at hl hl'
          have hlt := hk _ (mem_of_lookup hl')
          have hlt' := hk' _ (mem_of_lookup hl.symm)
          exact absurd (String.lt_trans hlt hlt') (String.lt_irrefl k)
      subst hkk
      have hv : v = v' := by simpa [lookup] using h k
      have hr : rest = rest' := by
        refine ih hrest hrest' fun q => ?_
        by_cases hq : k = q
        · subst hq
          rw [lookup_eq_none fun e he => (String.ne_of_lt (hk e he)).symm,
            lookup_eq_none fun e he => (String.ne_of_lt (hk' e he)).symm]
        · simpa [lookup, hq] using h q
      rw [hv, hr]

/-- Maps that hold the same under every name are equal. -/
theorem ext_find? {m m' : NameMap α} (h : ∀ q, m.find? q = m'.find? q) : m = m' := by
  obtain ⟨entries, sorted⟩ := m
  obtain ⟨entries', sorted'⟩ := m'
  cases eq_of_lookup sorted sorted' h
  rfl

/-- The map with a value put under a name. -/
def insert (m : NameMap α) (name : String) (value : α) : NameMap α :=
  ⟨place name value m.entries, place_sorted m.sorted⟩

theorem find?_insert (m : NameMap α) (name q : String) (value : α) :
    (m.insert name value).find? q = if name = q then some value else m.find? q :=
  lookup_place name q value m.entries

/-- The map without the entry of a name. -/
def erase (m : NameMap α) (name : String) : NameMap α :=
  ⟨m.entries.filter fun e => e.1 ≠ name, m.sorted.filter _⟩

/-- The entries whose names are wanted. -/
def restrict (m : NameMap α) (wanted : String → Bool) : NameMap α :=
  ⟨m.entries.filter fun e => wanted e.1, m.sorted.filter _⟩

theorem find?_restrict (m : NameMap α) (wanted : String → Bool) (q : String) :
    (m.restrict wanted).find? q = if wanted q then m.find? q else none :=
  lookup_filter wanted q m.entries

theorem find?_erase (m : NameMap α) (name q : String) :
    (m.erase name).find? q = if name = q then none else m.find? q := by
  have h := lookup_filter (fun k => k ≠ name) q m.entries
  by_cases hq : name = q <;> simp_all [find?, erase, eq_comm]

/-- The map of the images of the values. -/
def mapValues (f : α → β) (m : NameMap α) : NameMap β :=
  ⟨m.entries.map fun e => (e.1, f e.2), by
    rw [List.pairwise_map]
    exact m.sorted⟩

theorem mapValues_eq_self {f : α → α} {m : NameMap α} (h : ∀ a ∈ m.values, f a = a) :
    m.mapValues f = m := by
  obtain ⟨entries, sorted⟩ := m
  have hentries : ∀ e ∈ entries, (e.1, f e.2) = e := fun e he =>
    congrArg (e.1, ·) (h e.2 (List.mem_map_of_mem he))
  have hsame : (entries.map fun e => (e.1, f e.2)) = entries := by
    rw [List.map_congr_left hentries, List.map_id']
  simp only [mapValues, hsame]

theorem find?_mapValues (f : α → β) (m : NameMap α) (q : String) :
    (m.mapValues f).find? q = (m.find? q).map f := by
  obtain ⟨entries, sorted⟩ := m
  simp only [find?, mapValues]
  clear sorted
  induction entries with
  | nil => simp [lookup]
  | cons head rest ih =>
    by_cases hq : head.1 = q <;> simp_all [lookup]

/-- Names in strictly increasing order. -/
abbrev Keys := { names : List String // names.Pairwise (· < ·) }

/-- The names of a map. -/
def keys (m : NameMap α) : Keys :=
  ⟨m.names, List.pairwise_map.mpr m.sorted⟩

theorem zip_sorted {names : List String} (h : names.Pairwise (· < ·)) (values : List α) :
    (names.zip values).Pairwise (fun a b => a.1 < b.1) := by
  induction names generalizing values with
  | nil => simp
  | cons name names ih =>
    cases values with
    | nil => simp
    | cons value values =>
      obtain ⟨hn, hr⟩ := List.pairwise_cons.mp h
      rw [List.zip_cons_cons]
      exact List.pairwise_cons.mpr
        ⟨fun e he => hn e.1 (List.of_mem_zip (a := e.1) (b := e.2) he).1, ih hr values⟩

/-- The map of names and values side by side. -/
def zip (keys : Keys) (values : List α) : NameMap α :=
  ⟨keys.val.zip values, zip_sorted keys.property values⟩

theorem length_names (m : NameMap α) : m.names.length = m.size := by
  simp [names, size]

/-- Inserts entries one after another; a later one replaces an earlier one of its name. -/
def ofList (entries : List (String × α)) : NameMap α :=
  entries.foldl (fun m e => m.insert e.1 e.2) empty

theorem find?_foldl_insert {entries : List (String × α)}
    (h : entries.Pairwise fun a b => a.1 < b.1) (m : NameMap α) (q : String) :
    (entries.foldl (fun m e => m.insert e.1 e.2) m).find? q =
      (lookup q entries).or (m.find? q) := by
  induction entries generalizing m with
  | nil => simp [lookup]
  | cons head rest ih =>
    obtain ⟨k, v⟩ := head
    obtain ⟨hk, hrest⟩ := List.pairwise_cons.mp h
    rw [List.foldl_cons, ih hrest, find?_insert]
    by_cases hq : k = q
    · subst hq
      have hnone := lookup_eq_none fun e he => (String.ne_of_lt (hk e he)).symm
      simp [lookup, hnone]
    · simp [lookup, hq]

/-- A map is rebuilt from its entries. -/
theorem ofList_entries (m : NameMap α) : ofList m.entries = m := by
  refine ext_find? fun q => ?_
  rw [ofList, find?_foldl_insert m.sorted]
  cases h : lookup q m.entries <;> simp [find?, empty, h, lookup]

theorem find?_of_mem {m : NameMap α} {e : String × α} (h : e ∈ m.entries) :
    m.find? e.1 = some e.2 := by
  obtain ⟨entries, sorted⟩ := m
  change lookup e.1 entries = some e.2
  induction entries with
  | nil => cases h
  | cons head rest ih =>
    obtain ⟨hhead, hrest⟩ := List.pairwise_cons.mp sorted
    rcases List.mem_cons.mp h with rfl | h
    · simp [lookup]
    · have hne : head.1 ≠ e.1 := String.ne_of_lt (hhead e h)
      rw [show lookup e.1 (head :: rest) = lookup e.1 rest from if_neg hne]
      exact ih hrest h

theorem mem_names_iff {m : NameMap α} {n : String} : n ∈ m.names ↔ (m.find? n).isSome = true := by
  constructor
  · intro h
    obtain ⟨e, he, rfl⟩ := List.mem_map.mp h
    rw [find?_of_mem he]
    rfl
  · intro h
    obtain ⟨value, hv⟩ := Option.isSome_iff_exists.mp h
    exact List.mem_map_of_mem (mem_of_lookup hv)

theorem mem_names_insert {m : NameMap α} {name n : String} {value : α} :
    n ∈ (m.insert name value).names ↔ n = name ∨ n ∈ m.names := by
  rw [mem_names_iff, mem_names_iff, find?_insert]
  split
  next h => exact iff_of_true rfl (.inl h.symm)
  next h => rw [or_iff_right fun he => h he.symm]

theorem mem_names_ofList {entries : List (String × α)} {n : String} :
    n ∈ (ofList entries).names ↔ n ∈ entries.map (·.1) := by
  have hfold : ∀ (l : List (String × α)) (m : NameMap α),
      n ∈ (l.foldl (fun m e => m.insert e.1 e.2) m).names ↔ n ∈ l.map (·.1) ∨ n ∈ m.names := by
    intro l
    induction l with
    | nil => simp
    | cons e l ih =>
      intro m
      rw [List.foldl_cons, ih, mem_names_insert, List.map_cons, List.mem_cons, or_assoc,
        or_left_comm]
  rw [ofList, hfold]
  simp [names, empty]

end NameMap

end DerivedSignal
