import DerivedSignal.Proofs.Custody
import DerivedSignal.Proofs.WriteFootprint

namespace DerivedSignal

open Transform

/-- A pass over one signal: an update or a rebuild. -/
abbrev PassOne := Transform Session → Registry → Transform Session × Registry × Attempt Nat

namespace Transform

/-- A pass over a signal depends on its inputs, apart from what it makes of the outputs themselves, and
leaves everything but the outputs alone. -/
structure ActsWithin (pass : PassOne) (t : Transform Session) : Prop where
  congr : ∀ r r', AgreeOn t.inputs r r' → (pass t r).1 = (pass t r').1 ∧
    (pass t r).2.2 = (pass t r').2.2 ∧
    ∀ q, r.find? q = r'.find? q → (pass t r).2.1.find? q = (pass t r').2.1.find? q
  frame : ∀ r q, q ∉ t.outputs → (pass t r).2.1.find? q = r.find? q

theorem finish_congr (t : Transform Session) (r r' : Registry) (replace : Bool)
    (outcome : Attempt (Option Pass)) :
    (t.finish r replace outcome).1 = (t.finish r' replace outcome).1 ∧
      (t.finish r replace outcome).2.2 = (t.finish r' replace outcome).2.2 ∧
      ∀ q, r.find? q = r'.find? q →
        (t.finish r replace outcome).2.1.find? q = (t.finish r' replace outcome).2.1.find? q := by
  cases outcome with
  | abort why => exact ⟨rfl, rfl, fun _ hq => hq⟩
  | failed e =>
    refine ⟨rfl, rfl, fun q hq => ?_⟩
    simp only [finish, rollback, Registry.find?_eraseAll, hq]
  | done found =>
    cases found with
    | none => exact ⟨rfl, rfl, fun _ hq => hq⟩
    | some p => exact ⟨rfl, rfl, fun q hq => find?_writeOutputs_congr hq replace p 0 t.outputs⟩

variable {t : Transform Session}

theorem actsWithin_update (hstaged : ∀ q ∈ t.staged, q ∈ t.outputs) : ActsWithin update t := by
  refine ⟨fun r r' hin => ?_, fun r q hq => (find?_of_operation hstaged r hq).2.1⟩
  unfold update
  rw [evaluate_congr ⟨rfl, rfl, rfl⟩ hin]
  exact finish_congr _ r r' _ _

theorem actsWithin_rebuild (hstaged : ∀ q ∈ t.staged, q ∈ t.outputs) : ActsWithin rebuild t := by
  refine ⟨fun r r' hin => ?_, fun r q hq => (find?_of_operation hstaged r hq).2.2.1⟩
  have hlinked : r.contains t.definition.linked = r'.contains t.definition.linked := by
    simp only [NameMap.contains, hin _ List.mem_cons_self]
  unfold rebuild
  rw [hlinked]
  split
  next =>
    split
    next s _ =>
      rw [evaluate_congr ⟨rfl, rfl, rfl⟩ hin]
      exact finish_congr _ r r' _ _
    next => exact finish_congr _ r r' _ _
    next => exact finish_congr _ r r' _ _
  next => exact ⟨rfl, rfl, fun _ hq => hq⟩

/-- Neither of two signals writes what the other reads or writes. -/
def Apart (t u : Transform Session) : Prop :=
  (∀ q ∈ t.outputs, q ∉ u.outputs ∧ q ∉ u.inputs) ∧ ∀ q ∈ u.outputs, q ∉ t.outputs ∧ q ∉ t.inputs

theorem Apart.symm {t u : Transform Session} (h : Apart t u) : Apart u t := ⟨h.2, h.1⟩

/-- Passes over signals, one after another. -/
def passEach (pass : PassOne) : Registry → List (Transform Session) →
    Registry × List (Transform Session × Attempt Nat)
  | r, [] => (r, [])
  | r, t :: ts =>
    let (t', r, outcome) := pass t r
    let (r, results) := passEach pass r ts
    (r, (t', outcome) :: results)

variable {pass : PassOne} {u : Transform Session} {r : Registry}

/-- After a pass over one signal, a pass over another one ends as it would have ended before. -/
theorem pass_after_apart (ht : ActsWithin pass t) (hu : ActsWithin pass u) (h : Apart t u) (r : Registry) :
    (pass u (pass t r).2.1).1 = (pass u r).1 ∧ (pass u (pass t r).2.1).2.2 = (pass u r).2.2 ∧
      ∀ q ∈ u.outputs, (pass u (pass t r).2.1).2.1.find? q = (pass u r).2.1.find? q := by
  have hin : AgreeOn u.inputs (pass t r).2.1 r := fun q hq => ht.frame r q fun hm => (h.1 q hm).2 hq
  obtain ⟨hsignal, houtcome, hfind⟩ := hu.congr _ _ hin
  exact ⟨hsignal, houtcome, fun q hq => hfind q (ht.frame r q (h.2 q hq).1)⟩

/-- Passes over signals that are apart end, each of them, as if it were the only one. -/
theorem passEach_of_apart {ts : List (Transform Session)} (hacts : ∀ t ∈ ts, ActsWithin pass t)
    (hapart : ts.Pairwise Apart) (r : Registry) :
    (passEach pass r ts).2 = ts.map (fun t => ((pass t r).1, (pass t r).2.2)) ∧
      (∀ t ∈ ts, ∀ q ∈ t.outputs, (passEach pass r ts).1.find? q = (pass t r).2.1.find? q) ∧
      ∀ q, (∀ t ∈ ts, q ∉ t.outputs) → (passEach pass r ts).1.find? q = r.find? q := by
  induction ts generalizing r with
  | nil => exact ⟨rfl, by simp, fun _ _ => rfl⟩
  | cons t ts ih =>
    obtain ⟨ht, hts⟩ := List.forall_mem_cons.mp hacts
    obtain ⟨hapart₁, hrest⟩ := List.pairwise_cons.mp hapart
    obtain ⟨hresults, houtputs, hothers⟩ := ih hts hrest (pass t r).2.1
    refine ⟨?_, fun u hu q hq => ?_, fun q hq => ?_⟩
    · have hsame : ts.map (fun u => ((pass u (pass t r).2.1).1, (pass u (pass t r).2.1).2.2)) =
          ts.map fun u => ((pass u r).1, (pass u r).2.2) := by
        refine List.map_congr_left fun u hu => ?_
        obtain ⟨hsignal, houtcome, -⟩ := pass_after_apart ht (hts u hu) (hapart₁ u hu) r
        rw [hsignal, houtcome]
      rw [List.map_cons, ← hsame, ← hresults]
      rfl
    · rcases List.mem_cons.mp hu with rfl | hu
      · -- What the first pass has written, no later one touches.
        exact hothers q fun v hv hm => ((hapart₁ v hv).1 q hq).1 hm
      · exact (houtputs u hu q hq).trans
          ((pass_after_apart ht (hts u hu) (hapart₁ u hu) r).2.2 q hq)
    · obtain ⟨hqt, hqts⟩ := List.forall_mem_cons.mp hq
      exact (hothers q hqts).trans (ht.frame r q hqt)

theorem passEach_perm {ts us : List (Transform Session)} (hperm : ts.Perm us)
    (hacts : ∀ t ∈ us, ActsWithin pass t) (hapart : us.Pairwise Apart) (r : Registry) :
    (passEach pass r ts).1 = (passEach pass r us).1 := by
  have hacts' : ∀ t ∈ ts, ActsWithin pass t := fun t ht => hacts t (hperm.mem_iff.mp ht)
  have hapart' : ts.Pairwise Apart := hapart.perm hperm.symm Apart.symm
  obtain ⟨-, houtputs, hothers⟩ := passEach_of_apart hacts hapart r
  obtain ⟨-, houtputs', hothers'⟩ := passEach_of_apart hacts' hapart' r
  refine NameMap.ext_find? fun q => ?_
  by_cases hq : ∃ t ∈ ts, q ∈ t.outputs
  · obtain ⟨t, ht, hq⟩ := hq
    rw [houtputs' t ht q hq, houtputs t (hperm.mem_iff.mp ht) q hq]
  · rw [hothers' q fun t ht hm => hq ⟨t, ht, hm⟩,
      hothers q fun t ht hm => hq ⟨t, hperm.mem_iff.mpr ht, hm⟩]

end Transform

namespace TransformSet

variable {pass : PassOne} {s s' : TransformSet} {r : Registry}

/-- The signals whose passes fail, with their errors. -/
def failuresOf (pass : PassOne) (r : Registry) (entries : List (String × Transform Session)) : Failures :=
  entries.filterMap fun e =>
    match (pass e.2 r).2.2 with
    | .failed error => some (e.1, error)
    | _ => none

theorem mem_failuresOf {entries : List (String × Transform Session)} {n : String} {error : Error} :
    (n, error) ∈ failuresOf pass r entries ↔
      ∃ t, (n, t) ∈ entries ∧ (pass t r).2.2 = .failed error := by
  unfold failuresOf
  rw [List.mem_filterMap]
  constructor
  · rintro ⟨⟨m, t⟩, hmem, h⟩
    cases houtcome : (pass t r).2.2 with
    | abort why => simp [houtcome] at h
    | failed e =>
      simp only [houtcome, Option.some.injEq, Prod.mk.injEq] at h
      obtain ⟨rfl, rfl⟩ := h
      exact ⟨t, hmem, houtcome⟩
    | done k => simp [houtcome] at h
  · rintro ⟨t, hmem, houtcome⟩
    exact ⟨(n, t), hmem, by simp only [houtcome]⟩

theorem names_failuresOf (pass : PassOne) (r : Registry) (entries : List (String × Transform Session)) :
    ((failuresOf pass r entries).map (·.1)).Sublist (entries.map (·.1)) := by
  induction entries with
  | nil => exact .slnil
  | cons e rest ih =>
    cases houtcome : (pass e.2 r).2.2 with
    | failed error => simpa [failuresOf, houtcome] using ih
    | _ => simpa [failuresOf, houtcome] using ih.cons e.1

/-- The set with a signal under a name. -/
def put (s : TransformSet) (name : String) (t : Transform Session) : TransformSet :=
  { s with transforms := s.transforms.insert name t }

theorem find?_put (s : TransformSet) (name n : String) (t : Transform Session) :
    (s.put name t).find? n = if name = n then some t else s.find? n :=
  NameMap.find?_insert s.transforms name n t

theorem passOver_cons {name : String} {t : Transform Session} (h : s.find? name = some t)
    (names : List String) :
    passOver pass s r (name :: names) =
      match (pass t r).2.2, passOver pass (s.put name (pass t r).1) (pass t r).2.1 names with
      | .abort why, _ => (s.put name (pass t r).1, (pass t r).2.1, .abort why)
      | .failed e, (s, r, rest) => (s, r, rest.map ((name, e) :: ·))
      | .done _, result => result := by
  simp only [passOver, h, put]
  split <;> simp_all

/-- Entries of a set, under different names and apart from each other. -/
structure Separable (pass : PassOne) (s : TransformSet) (entries : List (String × Transform Session)) :
    Prop where
  members : ∀ e ∈ entries, s.find? e.1 = some e.2
  acts : ∀ e ∈ entries, ActsWithin pass e.2
  apart : entries.Pairwise fun e f => e.1 ≠ f.1 ∧ Apart e.2 f.2

namespace Separable

variable {e : String × Transform Session} {rest : List (String × Transform Session)}

theorem tail (h : Separable pass s (e :: rest)) (t : Transform Session) :
    Separable pass (s.put e.1 t) rest := by
  obtain ⟨he, hrest⟩ := List.pairwise_cons.mp h.apart
  refine ⟨fun f hf => ?_, fun f hf => h.acts f (List.mem_cons_of_mem e hf), hrest⟩
  rw [find?_put, if_neg (he f hf).1]
  exact h.members f (List.mem_cons_of_mem e hf)

theorem after (h : Separable pass s (e :: rest)) (r : Registry) :
    ∀ f ∈ rest, (pass f.2 (pass e.2 r).2.1).1 = (pass f.2 r).1 ∧
      (pass f.2 (pass e.2 r).2.1).2.2 = (pass f.2 r).2.2 := by
  intro f hf
  obtain ⟨he, -⟩ := List.pairwise_cons.mp h.apart
  obtain ⟨hsignal, houtcome, -⟩ := pass_after_apart (h.acts e List.mem_cons_self)
    (h.acts f (List.mem_cons_of_mem e hf)) (he f hf).2 r
  exact ⟨hsignal, houtcome⟩

/-- A pass over entries that are apart does to each what the pass over it alone does. -/
theorem passOver_eq {entries : List (String × Transform Session)} (h : Separable pass s entries)
    (hdone : ∀ e ∈ entries, (pass e.2 r).2.2.Returns) :
    ∃ s', passOver pass s r (entries.map (·.1)) =
        (s', (passEach pass r (entries.map (·.2))).1, .done (failuresOf pass r entries)) ∧
      s'.limits = s.limits ∧ (∀ e ∈ entries, s'.find? e.1 = some (pass e.2 r).1) ∧
      ∀ n, (∀ e ∈ entries, e.1 ≠ n) → s'.find? n = s.find? n := by
  induction entries generalizing s r with
  | nil => exact ⟨s, rfl, rfl, by simp, fun _ _ => rfl⟩
  | cons e rest ih =>
    have hsame := h.after r
    have hdone' : ∀ f ∈ rest, (pass f.2 (pass e.2 r).2.1).2.2.Returns := fun f hf =>
      (hsame f hf).2 ▸ hdone f (List.mem_cons_of_mem e hf)
    obtain ⟨s', hpass, hlimits, hmembers, hothers⟩ := ih (h.tail (pass e.2 r).1) hdone'
    have hfailures : failuresOf pass (pass e.2 r).2.1 rest = failuresOf pass r rest :=
      List.filterMap_congr fun f hf => by simp only [(hsame f hf).2]
    have hnames := (List.pairwise_cons.mp h.apart).1
    refine ⟨s', ?_, hlimits, fun f hf => ?_, fun n hn => ?_⟩
    · rw [List.map_cons, passOver_cons (h.members e List.mem_cons_self), hpass, hfailures]
      cases houtcome : (pass e.2 r).2.2 with
      | abort why => exact absurd (houtcome ▸ hdone e List.mem_cons_self) (Attempt.not_returns_abort why)
      | failed error =>
        simp only [failuresOf, List.filterMap_cons, houtcome]
        rfl
      | done k =>
        simp only [failuresOf, List.filterMap_cons, houtcome]
        rfl
    · rcases List.mem_cons.mp hf with rfl | hf
      · rw [hothers f.1 fun g hg => (hnames g hg).1.symm, find?_put, if_pos rfl]
      · rw [hmembers f hf, (hsame f hf).1]
    · obtain ⟨he, hrest⟩ := List.forall_mem_cons.mp hn
      rw [hothers n hrest, find?_put, if_neg he]

theorem returns_of_passOver {entries : List (String × Transform Session)} (h : Separable pass s entries)
    (hdone : (passOver pass s r (entries.map (·.1))).2.2.Returns) :
    ∀ e ∈ entries, (pass e.2 r).2.2.Returns := by
  induction entries generalizing s r with
  | nil => simp
  | cons e rest ih =>
    rw [List.map_cons, passOver_cons (h.members e List.mem_cons_self)] at hdone
    have hsame := h.after r
    have hrest : (passOver pass (s.put e.1 (pass e.2 r).1) (pass e.2 r).2.1 (rest.map (·.1))).2.2.Returns →
        ∀ f ∈ rest, (pass f.2 r).2.2.Returns := fun hdone f hf =>
      (hsame f hf).2 ▸ ih (h.tail (pass e.2 r).1) hdone f hf
    refine List.forall_mem_cons.mpr ?_
    cases houtcome : (pass e.2 r).2.2 with
    | abort why =>
      rw [houtcome] at hdone
      exact hdone.elim
    | failed error =>
      rw [houtcome] at hdone
      exact ⟨trivial, hrest (Attempt.returns_map.mp hdone)⟩
    | done k =>
      rw [houtcome] at hdone
      exact ⟨trivial, hrest hdone⟩

end Separable

/-- The sets that come from an empty one, while the registry changes in any way between the operations.
None of these ends the program. -/
inductive Reachable (limits : Limits) : TransformSet → Prop
  | empty : Reachable limits (TransformSet.empty limits)
  | add {u} (r : Registry) (d : Definition) : Reachable limits u → (u.add r d).2.2.Returns →
      Reachable limits (u.add r d).1
  | remove {u} (r : Registry) (name : String) : Reachable limits u → Reachable limits (u.remove r name).1
  | updateAll {u} (r : Registry) : Reachable limits u → (u.updateAll r).2.2.Returns →
      Reachable limits (u.updateAll r).1
  | rebuildAll {u} (r : Registry) : Reachable limits u → (u.rebuildAll r).2.2.Returns →
      Reachable limits (u.rebuildAll r).1
  | loadDocument {u} (r : Registry) (text : String) : Reachable limits u →
      (u.loadDocument r text).2.2.Returns → Reachable limits (u.loadDocument r text).1

theorem custody_of_custody {limits : Limits} {r₀ : Registry} {written : List String}
    (h : Custody limits r₀ written s r) (r' : Registry) : Custody limits r' written s r' :=
  ⟨h.limits_eq, h.name, h.staged, h.outputs, fun _ => .inl, fun _ _ => rfl⟩

theorem Reachable.custody {limits : Limits} (h : Reachable limits s) :
    ∃ written, ∀ r, Custody limits r written s r := by
  induction h with
  | empty => exact ⟨[], fun _ => .empty⟩
  | add r d _ hn ih =>
    obtain ⟨written, h⟩ := ih
    exact ⟨_, custody_of_custody ((h r).add rfl hn)⟩
  | remove r name _ ih =>
    obtain ⟨written, h⟩ := ih
    exact ⟨_, custody_of_custody ((h r).remove name)⟩
  | updateAll r _ hn ih =>
    obtain ⟨written, h⟩ := ih
    exact ⟨_, custody_of_custody ((h r).passOver writesOutputs_update rfl hn)⟩
  | rebuildAll r _ hn ih =>
    obtain ⟨written, h⟩ := ih
    exact ⟨_, custody_of_custody ((h r).passOver writesOutputs_rebuild rfl hn)⟩
  | loadDocument r text _ hn ih =>
    obtain ⟨written, h⟩ := ih
    exact ⟨_, custody_of_custody ((h r).loadDocument rfl hn)⟩

/-- No output of a signal is an output, the linked series or a channel of another one. -/
def Independent (s : TransformSet) : Prop :=
  ∀ m n t u, s.find? m = some t → s.find? n = some u → m ≠ n →
    ∀ q ∈ t.outputs, q ∉ u.outputs ∧ q ∉ u.inputs

theorem independent_of_entries
    (h : ∀ e ∈ s.transforms.entries, ∀ f ∈ s.transforms.entries, e.1 ≠ f.1 →
      ∀ q ∈ e.2.outputs, q ∉ f.2.outputs ∧ q ∉ f.2.inputs) : s.Independent := by
  intro m n t u ht hu hne
  exact h (m, t) (NameMap.mem_of_lookup ht) (n, u) (NameMap.mem_of_lookup hu) hne

theorem Independent.separable (h : s.Independent)
    (hacts : ∀ n t, s.find? n = some t → ActsWithin pass t) :
    Separable pass s s.transforms.entries := by
  have hmembers : ∀ e ∈ s.transforms.entries, s.find? e.1 = some e.2 := fun e he =>
    NameMap.find?_of_mem he
  refine ⟨hmembers, fun e he => hacts e.1 e.2 (hmembers e he), ?_⟩
  refine s.transforms.sorted.imp_of_mem fun {e f} he hf hlt => ?_
  have hne := String.ne_of_lt hlt
  exact ⟨hne, h _ _ _ _ (hmembers e he) (hmembers f hf) hne,
    h _ _ _ _ (hmembers f hf) (hmembers e he) hne.symm⟩

/-- The result of a pass over a set is what passes over the signals one by one lead to, in any order, and
what they lead to where the series of the other signals are missing or different. -/
structure PassesSeparately (pass : PassOne) (s : TransformSet) (r : Registry)
    (result : TransformSet × Registry × Attempt Failures) : Prop where
  signals : result.1 = { s with transforms := s.transforms.mapValues fun t => (pass t r).1 }
  failures : ∃ failures, result.2.2 = .done failures ∧ (failures.map (·.1)).Pairwise (· < ·) ∧
    ∀ n e, (n, e) ∈ failures ↔ ∃ t, s.find? n = some t ∧ (pass t r).2.2 = .failed e
  anyOrder : ∀ ts, ts.Perm s.transforms.values →
    passEach pass r ts = (result.2.1, ts.map fun t => ((pass t r).1, (pass t r).2.2))
  alone : ∀ n t, s.find? n = some t → ∀ r', AgreeOn t.inputs r r' → AgreeOn t.outputs r r' →
    (pass t r').1 = (pass t r).1 ∧ (pass t r').2.2 = (pass t r).2.2 ∧
      AgreeOn t.outputs result.2.1 (pass t r').2.1
  others : ∀ q, (∀ n t, s.find? n = some t → q ∉ t.outputs) → result.2.1.find? q = r.find? q

theorem mem_values_iff {t : Transform Session} : t ∈ s.transforms.values ↔ ∃ n, s.find? n = some t := by
  constructor
  · intro h
    obtain ⟨e, he, rfl⟩ := List.mem_map.mp h
    exact ⟨e.1, NameMap.find?_of_mem he⟩
  · rintro ⟨n, h⟩
    exact List.mem_map_of_mem (f := (·.2)) (NameMap.mem_of_lookup h)

theorem eq_mapValues {f : Transform Session → Transform Session} (hlimits : s'.limits = s.limits)
    (hmembers : ∀ e ∈ s.transforms.entries, s'.find? e.1 = some (f e.2))
    (hothers : ∀ n, (∀ e ∈ s.transforms.entries, e.1 ≠ n) → s'.find? n = s.find? n) :
    s' = { s with transforms := s.transforms.mapValues f } := by
  have htransforms : s'.transforms = s.transforms.mapValues f := by
    refine NameMap.ext_find? fun n => ?_
    rw [NameMap.find?_mapValues]
    change s'.find? n = (s.find? n).map f
    cases hn : s.find? n with
    | some t => exact hmembers (n, t) (NameMap.mem_of_lookup hn)
    | none =>
      rw [hothers n, hn, Option.map_none]
      rintro e he rfl
      rw [find?, NameMap.find?_of_mem he] at hn
      cases hn
  rw [← hlimits, ← htransforms]

theorem Separable.passesSeparately (h : Separable pass s s.transforms.entries)
    (hdone : ∀ e ∈ s.transforms.entries, (pass e.2 r).2.2.Returns) :
    PassesSeparately pass s r (passOver pass s r s.transforms.names) := by
  obtain ⟨s', hpass, hlimits, hmembers, hothers⟩ := h.passOver_eq hdone
  have hacts : ∀ t ∈ s.transforms.values, ActsWithin pass t := fun t ht => by
    obtain ⟨e, he, rfl⟩ := List.mem_map.mp ht
    exact h.acts e he
  have hapart : s.transforms.values.Pairwise Apart := List.pairwise_map.mpr (h.apart.imp And.right)
  obtain ⟨-, houtputs, hrest⟩ := passEach_of_apart hacts hapart r
  rw [NameMap.names, hpass]
  refine ⟨eq_mapValues hlimits hmembers hothers, ⟨_, rfl, ?_, fun n e => ?_⟩, fun ts hperm => ?_,
    fun n t ht r' hin hout => ?_, fun q hq => ?_⟩
  · have hsorted : (s.transforms.entries.map (·.1)).Pairwise (· < ·) :=
      List.pairwise_map.mpr s.transforms.sorted
    exact hsorted.sublist (names_failuresOf pass r _)
  · rw [mem_failuresOf]
    refine exists_congr fun t => and_congr_left fun _ => ?_
    exact ⟨fun hmem => NameMap.find?_of_mem hmem, fun hfind => NameMap.mem_of_lookup hfind⟩
  · have hacts' : ∀ t ∈ ts, ActsWithin pass t := fun t ht => hacts t (hperm.mem_iff.mp ht)
    obtain ⟨hresults, -, -⟩ := passEach_of_apart hacts' (hapart.perm hperm.symm Apart.symm) r
    exact Prod.ext (passEach_perm hperm hacts hapart r) hresults
  · have hmem := mem_values_iff.mpr ⟨n, ht⟩
    obtain ⟨hsignal, houtcome, hfind⟩ := (hacts t hmem).congr r r' hin
    exact ⟨hsignal.symm, houtcome.symm, fun q hq => (houtputs t hmem q hq).trans (hfind q (hout q hq))⟩
  · refine hrest q fun t ht => ?_
    obtain ⟨n, hn⟩ := mem_values_iff.mp ht
    exact hq n t hn

theorem Separable.returns_iff (h : Separable pass s s.transforms.entries) :
    (passOver pass s r s.transforms.names).2.2.Returns ↔
      ∀ n t, s.find? n = some t → (pass t r).2.2.Returns := by
  constructor
  · intro hdone n t hfind
    exact h.returns_of_passOver hdone (n, t) (NameMap.mem_of_lookup hfind)
  · intro hdone
    obtain ⟨failures, hfailures, -⟩ := (h.passesSeparately fun e he =>
      hdone e.1 e.2 (h.members e he)).failures
    exact Attempt.returns_of_done hfailures

end TransformSet

open TransformSet

/-- Signals that are independent of each other do not interfere. Updating or rebuilding all of them leaves
the registry, the signals and the failures that updating or rebuilding them one by one leads to, in any
order; each ends as it does without the others, and stays in the set if it fails. There is no outcome only
if one of the passes has none. -/
theorem independent_signals_do_not_interfere {limits : Limits} {s : TransformSet}
    (h : Reachable limits s) (hi : s.Independent) (r : Registry) :
    (((s.updateAll r).2.2.Returns ↔ ∀ n t, s.find? n = some t → (t.update r).2.2.Returns) ∧
      ((s.updateAll r).2.2.Returns → PassesSeparately update s r (s.updateAll r))) ∧
    ((s.rebuildAll r).2.2.Returns ↔ ∀ n t, s.find? n = some t → (t.rebuild r).2.2.Returns) ∧
      ((s.rebuildAll r).2.2.Returns → PassesSeparately rebuild s r (s.rebuildAll r)) := by
  obtain ⟨written, hcustody⟩ := h.custody
  have hstaged : ∀ n t, s.find? n = some t → ∀ q ∈ t.staged, q ∈ t.outputs := fun n t ht => by
    simp [(hcustody r).staged n t ht]
  have hupdate := hi.separable fun n t ht => actsWithin_update (hstaged n t ht)
  have hrebuild := hi.separable fun n t ht => actsWithin_rebuild (hstaged n t ht)
  refine ⟨⟨hupdate.returns_iff, fun hn => hupdate.passesSeparately fun e he => ?_⟩,
    hrebuild.returns_iff, fun hn => hrebuild.passesSeparately fun e he => ?_⟩
  · exact hupdate.returns_iff.mp hn e.1 e.2 (hupdate.members e he)
  · exact hrebuild.returns_iff.mp hn e.1 e.2 (hrebuild.members e he)

/-- Of two signals the second fails because its channel is gone: the first goes on, also if it comes after
the second. -/
theorem independent_signals_do_not_interfere_missing_channel :
    ∃ (s : TransformSet) (r : Registry), Reachable {} s ∧ s.Independent ∧
      s.transforms.names = ["a", "b"] ∧
      (s.updateAll r).2.2 = .done [("b", .missingChannel "y")] ∧
      times ((s.updateAll r).2.1.getD "a").points = [0, 2] ∧
      (passEach update r s.transforms.values.reverse).1 = (s.updateAll r).2.1 ∧
      PassesSeparately update s r (s.updateAll r) := by
  let r₀ : Registry := (NameMap.empty.insert "x" ⟨[⟨0, 1⟩], none⟩).insert "y" ⟨[⟨0, 5⟩], none⟩
  let first : Definition := ⟨"a", "x", "", "value"⟩
  let second : Definition := ⟨"b", "x", "", "$$y$$"⟩
  let changed (r : Registry) : Registry := (r.erase "y").insert "x" ⟨[⟨0, 1⟩, ⟨2, 3⟩], none⟩
  obtain ⟨one, two, hone, htwo, hdone, hdone', hnames, hapart, houtcome, htimes⟩ : ∃ one two,
      one = (TransformSet.empty {}).add r₀ first ∧ two = one.1.add one.2.1 second ∧
      one.2.2.map (·.outputs) = .done ["a"] ∧ two.2.2.map (·.outputs) = .done ["b"] ∧
      two.1.transforms.names = ["a", "b"] ∧
      (∀ e ∈ two.1.transforms.entries, ∀ f ∈ two.1.transforms.entries, e.1 ≠ f.1 →
        ∀ q ∈ e.2.outputs, q ∉ f.2.outputs ∧ q ∉ f.2.inputs) ∧
      (two.1.updateAll (changed two.2.1)).2.2 = .done [("b", .missingChannel "y")] ∧
      times ((two.1.updateAll (changed two.2.1)).2.1.getD "a").points = [0, 2] :=
    ⟨_, _, rfl, rfl, by decide +kernel⟩
  have h₁ := @Reachable.add {} _ r₀ first .empty
  rw [← hone] at h₁
  have h₂ := (h₁ (Attempt.returns_of_map hdone (by simp))).add one.2.1 second
  rw [← htwo] at h₂
  have hreachable := h₂ (Attempt.returns_of_map hdone' (by simp))
  have hindependent := independent_of_entries hapart
  obtain ⟨⟨-, hseparately⟩, -⟩ :=
    independent_signals_do_not_interfere hreachable hindependent (changed two.2.1)
  have hpasses := hseparately (Attempt.returns_of_done houtcome)
  have hreverse := congrArg Prod.fst (hpasses.anyOrder _ (List.reverse_perm _))
  exact ⟨two.1, changed two.2.1, hreachable, hindependent, hnames, houtcome, htimes, hreverse, hpasses⟩

end DerivedSignal
