import DerivedSignal.Transform
import Mathlib.Data.List.Nodup

namespace DerivedSignal

namespace Registry

theorem find?_create (r : Registry) (name q : String) :
    (r.create name).find? q = if name = q then some Series.empty else r.find? q :=
  NameMap.find?_insert r name q Series.empty

theorem contains_eq_false_iff (r : Registry) (name : String) :
    r.contains name = false ↔ r.find? name = none := by
  simp [NameMap.contains]

theorem contains_eq_true_iff (r : Registry) (name : String) :
    r.contains name = true ↔ ∃ s, r.find? name = some s := by
  simp [NameMap.contains, Option.isSome_iff_exists]

theorem getD_of_find? {r : Registry} {name : String} {s : Series} (h : r.find? name = some s) :
    r.getD name = s := by
  simp [getD, h]

theorem getD_insert (r : Registry) (name q : String) (s : Series) :
    Registry.getD (r.insert name s) q = if name = q then s else r.getD q := by
  rw [getD, NameMap.find?_insert]
  split <;> rfl

theorem find?_eraseAll (names : List String) (r : Registry) (q : String) :
    (names.foldl (fun r name => r.erase name) r).find? q =
      if q ∈ names then none else r.find? q := by
  induction names generalizing r with
  | nil => simp
  | cons name names ih =>
    rw [List.foldl_cons, ih, NameMap.find?_erase]
    by_cases hq : name = q
    · simp [hq]
    · simp [hq, Ne.symm hq]

end Registry

namespace Pass

theorem column_append (rows more : List (Float × List Float)) (bound : Option Float) (i : Nat) :
    column ⟨rows ++ more, bound⟩ i = column ⟨rows, bound⟩ i ++ column ⟨more, bound⟩ i := by
  simp [column]

/-- An output gets a value from every sample that has one for it. -/
theorem xs_column {rows : List (Float × List Float)} {i : Nat}
    (h : ∀ row ∈ rows, i < row.2.length) (bound : Option Float) :
    (column ⟨rows, bound⟩ i).map (·.x) = rows.map (·.1) := by
  induction rows with
  | nil => rfl
  | cons row rows ih =>
    have hi : i < row.2.length := h row (by simp)
    have hrow : row.2[i]? = some row.2[i] := List.getElem?_eq_getElem hi
    have hrows := ih fun row hr => h row (List.mem_cons_of_mem _ hr)
    simp only [column, List.filterMap_cons, hrow, Option.map_some, List.map_cons] at hrows ⊢
    rw [hrows]

end Pass

/-- A step of a commit: an output and the points that it gets. -/
structure Write where
  output : String
  points : List Point

namespace Write

variable {replace : Bool} {bound : Option Float} {r : Registry} {w : Write} {ws : List Write} {q : String}

/-- The registry after a step. -/
def run (replace : Bool) (bound : Option Float) (r : Registry) (w : Write) : Registry :=
  r.insert w.output (Transform.writeOutput replace bound w.points (r.getD w.output))

theorem find?_run (replace : Bool) (bound : Option Float) (r : Registry) (w : Write) (q : String) :
    (w.run replace bound r).find? q =
      if w.output = q then some (Transform.writeOutput replace bound w.points (r.getD q))
      else r.find? q := by
  rw [run, NameMap.find?_insert]
  split
  next h => rw [h]
  next => rfl

theorem find?_foldl_of_not_mem (h : q ∉ ws.map (·.output)) :
    (ws.foldl (run replace bound) r).find? q = r.find? q := by
  induction ws generalizing r with
  | nil => rfl
  | cons w ws ih =>
    obtain ⟨hne, hrest⟩ := List.ne_and_not_mem_of_not_mem_cons h
    rw [List.foldl_cons, ih hrest, find?_run, if_neg hne.symm]

theorem not_mem_of_split {front back : List Write} (hn : ((front ++ w :: back).map (·.output)).Nodup) :
    w.output ∉ front.map (·.output) ∧ w.output ∉ back.map (·.output) := by
  rw [List.map_append, List.map_cons, List.nodup_middle, List.nodup_cons, List.mem_append, not_or] at hn
  exact hn.1

/-- Among steps to different outputs each one finds its output as it was, and what it leaves stays. -/
theorem find?_foldl_of_mem (hn : (ws.map (·.output)).Nodup) (hw : w ∈ ws) :
    (ws.foldl (run replace bound) r).find? w.output =
      some (Transform.writeOutput replace bound w.points (r.getD w.output)) := by
  obtain ⟨front, back, rfl⟩ := List.append_of_mem hw
  obtain ⟨hfront, hback⟩ := not_mem_of_split hn
  have hbefore : Registry.getD (front.foldl (run replace bound) r) w.output = r.getD w.output := by
    rw [Registry.getD, find?_foldl_of_not_mem hfront, Registry.getD]
  rw [List.foldl_append, List.foldl_cons, find?_foldl_of_not_mem hback, find?_run, if_pos rfl, hbefore]

end Write

namespace Pass

/-- The steps of a commit, with the outputs counted from `index` on. -/
def writes (p : Pass) (index : Nat) (names : List String) : List Write :=
  (names.zipIdx index).map fun (name, i) => ⟨name, p.column i⟩

theorem outputs_writes (p : Pass) (index : Nat) (names : List String) :
    (p.writes index names).map (·.output) = names := by
  simp [writes, Function.comp_def]

theorem mem_writes {p : Pass} {index k : Nat} {names : List String} {q : String} (h : names[k]? = some q) :
    ⟨q, p.column (index + k)⟩ ∈ p.writes index names := by
  refine List.mem_map.mpr ⟨(q, index + k), ?_, rfl⟩
  rw [List.mk_add_mem_zipIdx_iff_getElem?]
  exact h

end Pass

namespace Alignment

theorem resolve_congr {r r' : Registry} {names : List String}
    (h : ∀ q ∈ names, r.find? q = r'.find? q) : resolve r names = resolve r' names := by
  induction names with
  | nil => rfl
  | cons name names ih =>
    rw [resolve, resolve, h name (by simp), ih fun q hq => h q (List.mem_cons_of_mem _ hq)]

/-- What is found are the series under the names. -/
theorem eq_of_resolve {r : Registry} {names : List String} {channels : List Series}
    (h : resolve r names = .ok channels) : channels = names.map r.getD := by
  induction names generalizing channels with
  | nil =>
    cases h
    rfl
  | cons name names ih =>
    unfold resolve at h
    split at h
    next => cases h
    next s hs =>
      cases hr : resolve r names with
      | error e => simp [hr, Except.map] at h
      | ok found =>
        simp only [hr, Except.map, Except.ok.injEq] at h
        subst h
        rw [List.map_cons, Registry.getD_of_find? hs, ← ih hr]

end Alignment

namespace Transform

variable {σ : Type}

theorem writeOutput_replacing (bound : Option Float) (points : List Point) (s : Series) :
    writeOutput true bound points s = Series.pushAll ⟨[], bound⟩ points := by
  cases bound <;> rfl

theorem find?_createOutputs (names staged : List String) (r : Registry) (q : String) :
    (createOutputs names staged r).2.find? q =
      if q ∈ names ∧ r.find? q = none then some Series.empty else r.find? q := by
  induction names generalizing staged r with
  | nil => simp [createOutputs]
  | cons name names ih =>
    unfold createOutputs
    split
    next hc =>
      obtain ⟨s, hs⟩ := (Registry.contains_eq_true_iff r name).mp hc
      rw [ih]
      by_cases hq : q = name
      · subst hq
        simp [hs]
      · simp [hq]
    next hc =>
      have hn := (Registry.contains_eq_false_iff r name).mp (by simpa using hc)
      rw [ih, Registry.find?_create]
      by_cases hq : q = name
      · subst hq
        simp [hn]
      · simp [hq, Ne.symm hq]

theorem mem_createOutputs (names staged : List String) (r : Registry) (q : String) :
    q ∈ (createOutputs names staged r).1 ↔ q ∈ staged ∨ q ∈ names ∧ r.find? q = none := by
  induction names generalizing staged r with
  | nil => simp [createOutputs]
  | cons name names ih =>
    unfold createOutputs
    split
    next hc =>
      obtain ⟨s, hs⟩ := (Registry.contains_eq_true_iff r name).mp hc
      rw [ih]
      by_cases hq : q = name
      · subst hq
        simp [hs]
      · simp [hq]
    next hc =>
      have hn := (Registry.contains_eq_false_iff r name).mp (by simpa using hc)
      have hm : q ∈ (if staged.contains name then staged else staged ++ [name]) ↔
          q ∈ staged ∨ q = name := by
        split
        next hs =>
          have hmem : name ∈ staged := by simpa using hs
          exact ⟨Or.inl, fun h => h.elim id fun h => h ▸ hmem⟩
        next => simp
      rw [ih, hm, Registry.find?_create]
      by_cases hq : q = name
      · subst hq
        simp [hn]
      · simp [hq, Ne.symm hq]

theorem createOutputs_of_present {names : List String} {r : Registry}
    (h : ∀ q ∈ names, ∃ s, r.find? q = some s) (staged : List String) :
    createOutputs names staged r = (staged, r) := by
  induction names with
  | nil => rfl
  | cons name names ih =>
    have hc := (Registry.contains_eq_true_iff r name).mpr (h name (by simp))
    rw [createOutputs, if_pos hc, ih fun q hq => h q (List.mem_cons_of_mem _ hq)]

/-- With all outputs in place, registering only starts the signal over. -/
theorem register_of_present {t : Transform σ} {r : Registry}
    (h : ∀ q ∈ t.outputs, ∃ s, r.find? q = some s) :
    t.register r = ({ t with mark := FloatMath.negInfinity, replaces := true }, r) := by
  rw [register, createOutputs_of_present h]

theorem find?_register (t : Transform σ) (r : Registry) (q : String) :
    (t.register r).2.find? q =
      if q ∈ t.outputs ∧ r.find? q = none then some Series.empty else r.find? q :=
  find?_createOutputs t.outputs t.staged r q

theorem mem_staged_register (t : Transform σ) (r : Registry) (q : String) :
    q ∈ (t.register r).1.staged ↔ q ∈ t.staged ∨ q ∈ t.outputs ∧ r.find? q = none :=
  mem_createOutputs t.outputs t.staged r q

theorem staged_register_outputs {t : Transform σ} (h : ∀ q ∈ t.staged, q ∈ t.outputs) (r : Registry) :
    ∀ q ∈ (t.register r).1.staged, q ∈ t.outputs := by
  intro q hq
  rcases (mem_staged_register t r q).mp hq with hq | hq
  · exact h q hq
  · exact hq.1

theorem writeOutputs_eq_foldl (replace : Bool) (p : Pass) (index : Nat) (names : List String) (r : Registry) :
    writeOutputs replace p index names r =
      (p.writes index names).foldl (Write.run replace p.bound) r := by
  induction names generalizing index r with
  | nil => rfl
  | cons name names ih => exact ih (index + 1) _

theorem find?_writeOutputs_of_not_mem {replace : Bool} {p : Pass} {names : List String}
    {index : Nat} {r : Registry} {q : String} (h : q ∉ names) :
    (writeOutputs replace p index names r).find? q = r.find? q := by
  rw [writeOutputs_eq_foldl]
  exact Write.find?_foldl_of_not_mem (by rwa [Pass.outputs_writes])

/-- A commit writes the column of each output to its series. -/
theorem find?_writeOutputs {replace : Bool} {p : Pass} {names : List String} (hn : names.Nodup)
    {index k : Nat} {r : Registry} {q : String} (hk : names[k]? = some q) :
    (writeOutputs replace p index names r).find? q =
      some (writeOutput replace p.bound (p.column (index + k)) (r.getD q)) := by
  rw [writeOutputs_eq_foldl]
  exact Write.find?_foldl_of_mem (by rwa [Pass.outputs_writes]) (Pass.mem_writes hk)

end Transform

end DerivedSignal
