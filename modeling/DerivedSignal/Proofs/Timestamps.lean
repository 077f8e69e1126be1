import DerivedSignal.Proofs.OutputSeries
import DerivedSignal.Proofs.SeriesOrder

namespace DerivedSignal

/-- The timestamps of some samples. -/
def times (ps : List Point) : List Float := ps.map (·.x)

@[simp] theorem times_append (ps qs : List Point) : times (ps ++ qs) = times ps ++ times qs :=
  List.map_append

theorem times_cons_eq {p : Point} {ps qs : List Point} (h : times (p :: ps) = times qs) :
    ∃ q rest, qs = q :: rest ∧ p.x = q.x ∧ times ps = times rest := by
  obtain ⟨q, rest, rfl, hq, hrest⟩ := List.map_eq_cons_iff.mp h.symm
  exact ⟨q, rest, rfl, hq.symm, hrest.symm⟩

theorem times_dropWhile (f : Float → Bool) (ps : List Point) :
    times (ps.dropWhile fun p => f p.x) = (times ps).dropWhile f :=
  (List.dropWhile_map ..).symm

theorem times_insertIdx (ps : List Point) (i : Nat) (p : Point) :
    times (ps.insertIdx i p) = (times ps).insertIdx i p.x :=
  List.map_insertIdx Point.x ps i p

/-- Where a sample goes depends on the timestamps only. -/
theorem indexAfter_of_times {ps qs : List Point} (h : times ps = times qs) (x : Float) :
    Series.indexAfter x ps = Series.indexAfter x qs := by
  have hlength : ps.length = qs.length := by simpa [times] using congrArg List.length h
  have hat : ∀ i : Nat, ps[i]?.any (fun p => decide (p.x ≤ x)) = qs[i]?.any (fun q => decide (q.x ≤ x)) := by
    intro i
    have hx : (times ps)[i]?.any (fun x' => decide (x' ≤ x)) = (times qs)[i]?.any (fun x' => decide (x' ≤ x)) := by
      rw [h]
    simpa only [times, List.getElem?_map, Option.any_map] using hx
  rw [Series.indexAfter, Series.indexAfter, hlength]
  exact bisect_congr hat _ _

/-- Lists with the same timestamps are both empty, or their last samples have the same timestamp. -/
theorem getLast?_of_times_eq {ps qs : List Point} (h : times ps = times qs) :
    ps.getLast? = none ∧ qs.getLast? = none ∨
      ∃ p q, ps.getLast? = some p ∧ qs.getLast? = some q ∧ p.x = q.x := by
  have hlast : ps.getLast?.map (·.x) = qs.getLast?.map (·.x) := by
    rw [← List.getLast?_map, ← List.getLast?_map]
    exact congrArg List.getLast? h
  cases hp : ps.getLast? with
  | none =>
    rw [hp] at hlast
    exact .inl ⟨rfl, Option.map_eq_none_iff.mp hlast.symm⟩
  | some p =>
    rw [hp] at hlast
    obtain ⟨q, hq, hpq⟩ := Option.map_eq_some_iff.mp hlast.symm
    exact .inr ⟨p, q, rfl, hq, hpq.symm⟩

/-- Series with the same bound and the same timestamps. -/
structure SameTimes (s s' : Series) : Prop where
  bound : s.bound = s'.bound
  points : times s.points = times s'.points

namespace SameTimes

variable {s s' : Series} {p q : Point} {ps qs : List Point}

theorem refl (s : Series) : SameTimes s s := ⟨rfl, rfl⟩

theorem evict (h : times ps = times qs) (bound : Option Float) :
    times (Series.evict bound ps) = times (Series.evict bound qs) := by
  cases bound with
  | none => exact h
  | some b =>
    unfold Series.evict
    rcases getLast?_of_times_eq h with ⟨hp, hq⟩ | ⟨back, back', hp, hq, hx⟩
    · rw [hp, hq]
      exact h
    · rw [hp, hq]
      simp only [hx, times_dropWhile fun x => decide (x < back'.x - b), h]

theorem place (hx : p.x = q.x) (h : times ps = times qs) :
    times (Series.place p ps) = times (Series.place q qs) := by
  have hsingle : times [p] = times [q] := congrArg ([·]) hx
  unfold Series.place
  rcases getLast?_of_times_eq h with ⟨hp, hq⟩ | ⟨back, back', hp, hq, hback⟩
  · rw [hp, hq]
    exact hsingle
  · rw [hp, hq]
    simp only [hx, hback]
    split
    next => rw [times_insertIdx, times_insertIdx, indexAfter_of_times h, h, hx]
    next => rw [times_append, times_append, h, hsingle]

theorem push (h : SameTimes s s') (hx : p.x = q.x) : SameTimes (s.push p) (s'.push q) := by
  refine ⟨h.bound, ?_⟩
  simp only [Series.push, h.bound]
  exact evict (place hx h.points) s'.bound

theorem pushAll (h : SameTimes s s') (hx : times ps = times qs) :
    SameTimes (s.pushAll ps) (s'.pushAll qs) := by
  induction ps generalizing s s' qs with
  | nil =>
    cases List.map_eq_nil_iff.mp hx.symm
    exact h
  | cons p ps ih =>
    obtain ⟨q, rest, rfl, hp, hrest⟩ := times_cons_eq hx
    have hpushed := ih (h.push hp) hrest
    exact hpushed

theorem writeOutput (h : SameTimes s s') (hx : times ps = times qs)
    (replace : Bool) (bound : Option Float) :
    SameTimes (Transform.writeOutput replace bound ps s) (Transform.writeOutput replace bound qs s') := by
  cases replace with
  | true =>
    rw [Transform.writeOutput_replacing, Transform.writeOutput_replacing]
    exact (refl _).pushAll hx
  | false => exact pushAll ⟨rfl, evict h.points bound⟩ hx

end SameTimes

/-- All these series are there and in step with one. -/
def HoldsTimes (names : List String) (s₀ : Series) (r : Registry) : Prop :=
  ∀ q ∈ names, ∃ s, r.find? q = some s ∧ SameTimes s s₀

theorem HoldsTimes.congr {names : List String} {s₀ : Series} {r r' : Registry}
    (h : HoldsTimes names s₀ r) (hr : ∀ q ∈ names, r'.find? q = r.find? q) :
    HoldsTimes names s₀ r' := by
  intro q hq
  rw [hr q hq]
  exact h q hq

/-- A pass keeps its outputs in step, with the series that gets a sample for each of its rows. -/
theorem holdsTimes_writeOutputs {names : List String} (hn : names.Nodup)
    {rows : List (Float × List Float)} (hlen : ∀ row ∈ rows, row.2.length = names.length)
    {more : List Point} (hx : rows.map (·.1) = times more) {replace : Bool} {s₀ : Series} {r : Registry}
    (hold : replace = false → HoldsTimes names s₀ r) (bound : Option Float) :
    HoldsTimes names (Transform.writeOutput replace bound more s₀)
      (Transform.writeOutputs replace ⟨rows, bound⟩ 0 names r) := by
  intro q hq
  obtain ⟨i, hi⟩ := List.mem_iff_getElem?.mp hq
  have hsize : ∀ row ∈ rows, i < row.2.length := by
    intro row hrow
    rw [hlen row hrow]
    exact (List.getElem?_eq_some_iff.mp hi).1
  have hcolumn : times (Pass.column ⟨rows, bound⟩ i) = times more := (Pass.xs_column hsize bound).trans hx
  refine ⟨_, Transform.find?_writeOutputs hn hi, ?_⟩
  rw [Nat.zero_add]
  cases replace with
  | true =>
    rw [Transform.writeOutput_replacing, Transform.writeOutput_replacing]
    exact (SameTimes.refl _).pushAll hcolumn
  | false =>
    obtain ⟨s, hs, hsame⟩ := hold rfl q hq
    rw [Registry.getD_of_find? hs]
    exact hsame.writeOutput hcolumn false bound

end DerivedSignal
