import DerivedSignal.Proofs.SortedWindow

namespace DerivedSignal

open FloatOrder

/-- The series that come from an empty one by pushing samples at any timestamp but NaN, by clearing and by
setting any bound. `pushed` are all samples on the way, in the order of the pushes. -/
inductive SeriesRun : List Point → Series → Prop
  | new : SeriesRun [] Series.empty
  | push {pushed s p} : SeriesRun pushed s → p.x.isNaN = false → SeriesRun (pushed ++ [p]) (s.push p)
  | clear {pushed s} : SeriesRun pushed s → SeriesRun pushed s.clear
  | setBound {pushed s} (bound : Option Float) : SeriesRun pushed s →
      SeriesRun pushed (s.setBound bound)

namespace Series

variable {bound : Option Float} {pushed ps : List Point} {p back : Point} {s : Series}

theorem evict_suffix (bound : Option Float) (ps : List Point) : evict bound ps <:+ ps := by
  unfold evict
  split
  next => exact List.dropWhile_suffix _
  next => exact List.suffix_refl ps

theorem getLast?_of_suffix {qs : List Point} (h : qs <:+ ps) (hlast : qs.getLast? = some back) :
    ps.getLast? = some back := by
  obtain ⟨front, rfl⟩ := h
  rw [List.getLast?_append, hlast, Option.some_or]

/-- What an eviction leaves lies in the window, whatever the bound is. -/
theorem not_lt_of_mem_evict (h : Ascending ps) {b : Float}
    (hlast : (evict (some b) ps).getLast? = some back) :
    ∀ p ∈ evict (some b) ps, ¬ p.x < back.x - b := by
  intro p hp
  rw [evict_eq_filter h (getLast?_of_suffix (evict_suffix _ ps) hlast)] at hp
  have hstays := (List.mem_filter.mp hp).2
  simpa [stays] using hstays

/-- What runs of a series keep: the samples ascend and lie in the window, and those at one timestamp are the
last ones that were pushed there. -/
structure WellKept (pushed : List Point) (s : Series) : Prop where
  ascending : Ascending s.points
  window : ∀ b back, s.bound = some b → s.points.getLast? = some back →
    ∀ p ∈ s.points, ¬ p.x < back.x - b
  newest : ∀ x, s.points.filter (standsAt x) <:+ pushed.filter (standsAt x)

namespace WellKept

theorem evicted (hps : Ascending ps)
    (hnewest : ∀ x, ps.filter (standsAt x) <:+ pushed.filter (standsAt x)) (bound : Option Float) :
    WellKept pushed ⟨evict bound ps, bound⟩ := by
  have hsuffix := evict_suffix bound ps
  refine ⟨ascending_sublist hsuffix.sublist hps, ?_, fun x => (hsuffix.filter _).trans (hnewest x)⟩
  intro b back hb hlast
  cases hb
  exact not_lt_of_mem_evict hps hlast

theorem empty : WellKept [] Series.empty :=
  ⟨ascending_nil, (fun b back hb => by cases hb), fun x => List.suffix_refl _⟩

theorem push (h : WellKept pushed s) (hp : IsNumber p.x) : WellKept (pushed ++ [p]) (s.push p) := by
  refine evicted (ascending_place h.ascending hp) (fun x => ?_) s.bound
  rw [filter_standsAt_place h.ascending hp, List.filter_append]
  obtain ⟨front, hfront⟩ := h.newest x
  exact ⟨front, by rw [← hfront, List.append_assoc]⟩

theorem clear (pushed : List Point) (s : Series) : WellKept pushed s.clear :=
  ⟨ascending_nil, (fun b back _ hlast => by cases hlast), fun x => List.nil_suffix⟩

theorem setBound (h : WellKept pushed s) (bound : Option Float) : WellKept pushed (s.setBound bound) :=
  evicted h.ascending h.newest bound

theorem of_run (h : SeriesRun pushed s) : WellKept pushed s := by
  induction h with
  | new => exact empty
  | push _ hp ih => exact ih.push (isNumber_iff.mpr hp)
  | clear => exact clear _ _
  | setBound bound _ ih => exact ih.setBound bound

end WellKept

/-- The samples up to a timestamp are those before the index of the first later one. -/
theorem le_iff_lt_firstAfter (h : Ascending s.points) {x : Float} {i : Nat} (hp : s.at? i = some p) :
    p.x ≤ x ↔ i < s.firstAfter x := by
  have hat : (s.points.takeWhile (fun q => q.x ≤ x) ++ s.points.dropWhile fun q => q.x ≤ x)[i]? =
      some p := by
    rw [List.takeWhile_append_dropWhile]
    exact hp
  rw [firstAfter, indexAfter_eq h]
  constructor
  · intro hle
    by_contra hnot
    rw [List.getElem?_append_right (Nat.le_of_not_lt hnot)] at hat
    exact not_le_of_mem_dropWhile h (List.mem_of_getElem? hat) hle
  · intro hlt
    rw [List.getElem?_append_left hlt] at hat
    exact not_later_of_mem_takeWhile (List.mem_of_getElem? hat)

theorem firstAfter_le_size (s : Series) (x : Float) : s.firstAfter x ≤ s.size := indexAfter_le x s.points

theorem firstAfter_eq_countP (h : Ascending s.points) (x : Float) :
    s.firstAfter x = s.points.countP fun p => p.x ≤ x := by
  rw [firstAfter, indexAfter_eq h, takeWhile_eq_filter h, List.countP_eq_length_filter]

/-- A sample is put behind all that are not later than it, also where it goes to the end. -/
theorem place_eq_insertIdx (h : Ascending s.points) (hp : IsNumber p.x) :
    place p s.points = s.points.insertIdx (s.firstAfter p.x) p := by
  rw [place_eq h hp]
  exact (insertIdx_indexAfter h p).symm

/-- Of the samples at one timestamp the last one is that which was pushed last. -/
theorem WellKept.newest_at (h : WellKept pushed s) {i : Nat} (hp : s.at? i = some p)
    (hlater : ∀ j q, i < j → s.at? j = some q → ¬ q.x ≤ p.x) :
    (pushed.filter (standsAt p.x)).getLast? = some p := by
  obtain ⟨hi, hget⟩ := List.getElem?_eq_some_iff.mp hp
  have hnumber : IsNumber p.x := h.ascending.numbers p (List.mem_of_getElem? hp)
  have hsplit : s.points = s.points.take i ++ p :: s.points.drop (i + 1) := by
    rw [← hget, ← List.drop_eq_getElem_cons hi, List.take_append_drop]
  have hrest : (s.points.drop (i + 1)).filter (standsAt p.x) = [] := by
    apply List.filter_eq_nil_iff.mpr
    intro q hq hstands
    obtain ⟨k, hk⟩ := List.mem_iff_getElem?.mp hq
    rw [List.getElem?_drop] at hk
    exact hlater (i + 1 + k) q (by omega) hk (standsAt_iff.mp hstands).1
  refine getLast?_of_suffix (h.newest p.x) ?_
  rw [hsplit, List.filter_append, List.filter_cons_of_pos (standsAt_iff.mpr ⟨hnumber, hnumber⟩), hrest]
  exact List.getLast?_concat

theorem nearest_spec (h : WellKept pushed s) (x : Float) :
    match s.nearest? x with
    | some i => ∃ p, s.at? i = some p ∧ p.x ≤ x ∧ s.valueAt x = p.y ∧
        (∀ j q, i < j → s.at? j = some q → ¬ q.x ≤ x) ∧
        (pushed.filter (standsAt p.x)).getLast? = some p
    | none => (∀ p ∈ s.points, ¬ p.x ≤ x) ∧ s.valueAt x = FloatMath.nan := by
  have hsize := s.firstAfter_le_size x
  rw [Series.valueAt, nearest?]
  cases hfirst : s.firstAfter x with
  | zero =>
    refine ⟨fun p hp hle => ?_, rfl⟩
    obtain ⟨i, hi⟩ := List.mem_iff_getElem?.mp hp
    have hlt := (le_iff_lt_firstAfter h.ascending hi).mp hle
    omega
  | succ i =>
    have hi : i < s.points.length := by
      rw [hfirst] at hsize
      exact hsize
    have hat : s.at? i = some s.points[i] := List.getElem?_eq_getElem hi
    have hle : s.points[i].x ≤ x := (le_iff_lt_firstAfter h.ascending hat).mpr (by omega)
    have hlater : ∀ j q, i < j → s.at? j = some q → ¬ q.x ≤ x := by
      intro j q hj hq hqx
      have hlt := (le_iff_lt_firstAfter h.ascending hq).mp hqx
      omega
    have hlater' : ∀ j q, i < j → s.at? j = some q → ¬ q.x ≤ s.points[i].x :=
      fun j q hj hq hqp => hlater j q hj hq (FloatOrder.le_trans hqp hle)
    simp only [Option.bind_some, hat]
    exact ⟨_, rfl, hle, rfl, hlater, h.newest_at hat hlater'⟩

end Series

open Series

/-- However a series was filled, cleared and bounded, its samples are in ascending order, and none is out of
the window behind the last one. At every timestamp, NaN and the infinities included, the samples up to it are
the first ones, as many as `firstAfter` says, which is where a search by halving ends and where a push puts
a sample. A look-up finds the last of them, which of those at its timestamp was pushed last, and its value;
if there is none, it finds none and NaN. -/
theorem series_stays_searchable {pushed : List Point} {s : Series} (h : SeriesRun pushed s) :
    (s.points.Pairwise fun p q => p.x ≤ q.x) ∧
    (∀ b back, s.bound = some b → s.back? = some back → ∀ p ∈ s.points, ¬ p.x < back.x - b) ∧
    (∀ p : Point, p.x.isNaN = false →
      (s.push p).points = evict s.bound
        (s.points.insertIdx (bisect (fun q => decide (q.x ≤ p.x)) s.points 0 s.size) p)) ∧
    ∀ x : Float,
      s.firstAfter x = (s.points.countP fun p => p.x ≤ x) ∧
      (∀ i p, s.at? i = some p → (p.x ≤ x ↔ i < s.firstAfter x)) ∧
      bisect (fun p => decide (p.x ≤ x)) s.points 0 s.size = s.firstAfter x ∧
      match s.nearest? x with
      | some i => ∃ p, s.at? i = some p ∧ p.x ≤ x ∧ s.valueAt x = p.y ∧
          (∀ j q, i < j → s.at? j = some q → ¬ q.x ≤ x) ∧
          (pushed.filter (standsAt p.x)).getLast? = some p
      | none => (∀ p ∈ s.points, ¬ p.x ≤ x) ∧ s.valueAt x = FloatMath.nan := by
  have hkept := WellKept.of_run h
  have hascending := hkept.ascending
  refine ⟨hascending.sorted, hkept.window, fun p hp => ?_, fun x => ⟨firstAfter_eq_countP hascending x,
    fun i p => le_iff_lt_firstAfter hascending, rfl, nearest_spec hkept x⟩⟩
  have hplace := place_eq_insertIdx hascending (isNumber_iff.mpr hp)
  exact congrArg (evict s.bound) hplace

/-- A negative bound drops the first sample and NaN as a bound drops none. The last sample comes out of order
and stands at the timestamp of an earlier one; a look-up after it finds the last one. -/
theorem series_stays_searchable_tie :
    ∃ (pushed : List Point) (s : Series), SeriesRun pushed s ∧
      pushed = [⟨0, 9⟩, ⟨1, 1⟩, ⟨3, 2⟩, ⟨1, 4⟩] ∧ s.points = [⟨1, 1⟩, ⟨1, 4⟩, ⟨3, 2⟩] ∧
      s.bound = some FloatMath.nan ∧ s.nearest? 2 = some 1 ∧ s.valueAt 2 = 4 ∧
      (pushed.filter (standsAt 1)).getLast? = some ⟨1, 4⟩ := by
  have hdropped : SeriesRun [⟨0, 9⟩] ((Series.empty.push ⟨0, 9⟩).setBound (some (-1))) :=
    (SeriesRun.new.push (p := ⟨0, 9⟩) (by decide +kernel)).setBound (some (-1))
  have hfirst := (hdropped.setBound (some FloatMath.nan)).push (p := ⟨1, 1⟩) (by decide +kernel)
  have hsecond := hfirst.push (p := ⟨3, 2⟩) (by decide +kernel)
  have hlast := hsecond.push (p := ⟨1, 4⟩) (by decide +kernel)
  generalize hs : ((((Series.empty.push ⟨0, 9⟩).setBound (some (-1))).setBound
    (some FloatMath.nan)).push ⟨1, 1⟩ |>.push ⟨3, 2⟩).push ⟨1, 4⟩ = s at hlast
  obtain ⟨hpoints, hbound, hnearest⟩ : s.points = [⟨1, 1⟩, ⟨1, 4⟩, ⟨3, 2⟩] ∧
      s.bound = some FloatMath.nan ∧ s.nearest? 2 = some 1 := by
    rw [← hs]
    decide +kernel
  obtain ⟨-, -, -, hlookup⟩ := series_stays_searchable hlast
  obtain ⟨-, -, -, hfound⟩ := hlookup 2
  rw [hnearest] at hfound
  obtain ⟨p, hp, -, hvalue, -, hnewest⟩ := hfound
  have hpoint : p = ⟨1, 4⟩ := by
    rw [at?, hpoints] at hp
    exact (Option.some.inj hp).symm
  subst hpoint
  exact ⟨_, s, hlast, rfl, hpoints, hbound, hnearest, hvalue, hnewest⟩

end DerivedSignal
