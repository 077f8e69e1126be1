import DerivedSignal.Proofs.FloatOrder
import DerivedSignal.Series

namespace DerivedSignal

open FloatOrder

/-- Samples in ascending order, none of them at NaN. -/
structure Ascending (ps : List Point) : Prop where
  sorted : ps.Pairwise fun p q => p.x ≤ q.x
  numbers : ∀ p ∈ ps, IsNumber p.x

instance (ps : List Point) : Decidable (Ascending ps) :=
  decidable_of_iff ((ps.Pairwise fun p q => p.x ≤ q.x) ∧ ∀ p ∈ ps, p.x ≤ p.x)
    ⟨fun h => ⟨h.1, h.2⟩, fun h => ⟨h.sorted, h.numbers⟩⟩

theorem ascending_append_left {ps qs : List Point} (h : Ascending (ps ++ qs)) : Ascending ps :=
  ⟨(List.pairwise_append.mp h.sorted).1, fun p hp => h.numbers p (List.mem_append_left qs hp)⟩

theorem ascending_append_right {ps qs : List Point} (h : Ascending (ps ++ qs)) : Ascending qs :=
  ⟨(List.pairwise_append.mp h.sorted).2.1, fun q hq => h.numbers q (List.mem_append_right ps hq)⟩

theorem ascending_of_xs {ps qs : List Point} (hx : ps.map (·.x) = qs.map (·.x))
    (h : Ascending qs) : Ascending ps := by
  refine ⟨?_, fun p hp => ?_⟩
  · have hs : (qs.map (·.x)).Pairwise (· ≤ ·) := List.pairwise_map.mpr h.sorted
    rw [← hx] at hs
    exact List.pairwise_map.mp hs
  · have hm : p.x ∈ qs.map (·.x) := hx ▸ List.mem_map_of_mem hp
    obtain ⟨q, hq, he⟩ := List.mem_map.mp hm
    exact he ▸ h.numbers q hq

theorem ascending_sublist {ps qs : List Point} (h : ps.Sublist qs) (hs : Ascending qs) :
    Ascending ps :=
  ⟨hs.sorted.sublist h, fun p hp => hs.numbers p (h.subset hp)⟩

theorem ascending_concat {ps : List Point} {p : Point} (h : Ascending ps) (hp : IsNumber p.x)
    (hle : ∀ q ∈ ps, q.x ≤ p.x) : Ascending (ps ++ [p]) := by
  refine ⟨List.pairwise_append.mpr ⟨h.sorted, List.pairwise_singleton _ _, ?_⟩, ?_⟩
  · intro q hq p' hp'
    cases List.mem_singleton.mp hp'
    exact hle q hq
  · intro q hq
    rcases List.mem_append.mp hq with hq | hq
    · exact h.numbers q hq
    · cases List.mem_singleton.mp hq
      exact hp

theorem le_of_getLast? {ps : List Point} {back : Point} (h : Ascending ps)
    (hb : ps.getLast? = some back) : ∀ p ∈ ps, p.x ≤ back.x := by
  obtain ⟨front, rfl⟩ := List.getLast?_eq_some_iff.mp hb
  intro p hp
  rcases List.mem_append.mp hp with hp | hp
  · exact (List.pairwise_append.mp h.sorted).2.2 p hp back (by simp)
  · cases List.mem_singleton.mp hp
    exact h.numbers back (by simp)

/-- The last timestamp; −∞ if there are no samples. -/
def lastX (ps : List Point) : Float := (ps.getLast?.map (·.x)).getD FloatMath.negInfinity

theorem le_lastX {ps : List Point} (h : Ascending ps) : ∀ p ∈ ps, p.x ≤ lastX ps := by
  intro p hp
  cases hb : ps.getLast? with
  | none =>
    cases List.getLast?_eq_none_iff.mp hb
    cases hp
  | some back => simpa [lastX, hb] using le_of_getLast? h hb p hp

theorem lastX_le {ps : List Point} {x : Float} (hx : FloatMath.negInfinity ≤ x)
    (hle : ∀ p ∈ ps, p.x ≤ x) : lastX ps ≤ x := by
  unfold lastX
  cases hb : ps.getLast? with
  | none => exact hx
  | some back => exact hle back (List.mem_of_getLast? hb)

theorem lastX_append (ps qs : List Point) :
    lastX (ps ++ qs) = ((qs.getLast?.map (·.x)).getD (lastX ps)) := by
  cases hb : qs.getLast? with
  | none =>
    cases List.getLast?_eq_none_iff.mp hb
    simp
  | some back => simp [lastX, List.getLast?_append, hb]

section Search

variable {α β : Type} {f : α → Bool} {g : β → Bool} {xs : List α} {ys : List β} {low high n : Nat}

/-- If a first part of the list has the property and the rest has not, the search ends between them. -/
theorem bisect_eq (h : ∀ i : Nat, xs[i]?.any f = true ↔ i < n) (hlow : low ≤ n) (hhigh : n ≤ high) :
    bisect f xs low high = n := by
  fun_induction bisect f xs low high with
  | case1 low high hlt hmid ih =>
    have hn := (h _).mp hmid
    exact ih (by omega) hhigh
  | case2 low high hlt hmid ih =>
    have hn := mt (h _).mpr hmid
    exact ih hlow (by omega)
  | case3 low high hlt => omega

/-- Whatever the list is, the search ends between the two indices. -/
theorem bisect_le (f : α → Bool) (xs : List α) (h : low ≤ high) : bisect f xs low high ≤ high := by
  fun_induction bisect f xs low high with
  | case1 low high hlt hmid ih => exact ih (by omega)
  | case2 low high hlt hmid ih => exact (ih (by omega)).trans (by omega)
  | case3 low high hlt => exact h

/-- A search depends on nothing but where the property holds. -/
theorem bisect_congr (h : ∀ i : Nat, xs[i]?.any f = ys[i]?.any g) (low high : Nat) :
    bisect f xs low high = bisect g ys low high := by
  fun_induction bisect f xs low high with
  | case1 low high hlt hmid ih => rw [bisect.eq_def g, if_pos hlt, if_pos (h _ ▸ hmid), ih]
  | case2 low high hlt hmid ih => rw [bisect.eq_def g, if_pos hlt, if_neg (h _ ▸ hmid), ih]
  | case3 low high hlt => rw [bisect.eq_def g, if_neg hlt]

theorem insertIdx_length_append (front rest : List α) (a : α) :
    (front ++ rest).insertIdx front.length a = front ++ a :: rest := by
  induction front with
  | nil => rfl
  | cons b front ih => simp [ih]

end Search

namespace Series

theorem evict_none (ps : List Point) : evict none ps = ps := rfl

theorem later_of_mem_dropWhile {x : Float} {q : Point} {ps : List Point} (h : Ascending ps)
    (hx : IsNumber x) (hq : q ∈ ps.dropWhile fun r => r.x ≤ x) : x < q.x := by
  induction ps with
  | nil => simp at hq
  | cons r rest ih =>
    have hr : Ascending rest := ascending_append_right (show Ascending ([r] ++ rest) from h)
    rw [List.dropWhile_cons] at hq
    split at hq
    next => exact ih hr hq
    next hn =>
      have hlt : x < r.x := (lt_or_le hx (h.numbers r (by simp))).resolve_right (by simpa using hn)
      rcases List.mem_cons.mp hq with rfl | hq
      · exact hlt
      · exact lt_of_lt_of_le hlt ((List.pairwise_cons.mp h.sorted).1 q hq)

theorem not_later_of_mem_takeWhile {x : Float} {q : Point} {ps : List Point}
    (hq : q ∈ ps.takeWhile fun r => r.x ≤ x) : q.x ≤ x := by
  have h := List.mem_takeWhile_imp hq
  exact of_decide_eq_true h

theorem not_le_of_mem_dropWhile {x : Float} {q : Point} {ps : List Point} (h : Ascending ps)
    (hq : q ∈ ps.dropWhile fun r => r.x ≤ x) : ¬ q.x ≤ x :=
  fun hle => FloatOrder.not_le_of_lt (later_of_mem_dropWhile h (isNumber_right hle) hq) hle

/-- The index after a timestamp parts the samples up to it from those that are not. -/
theorem indexAfter_append {x : Float} {front rest : List Point} (hfront : ∀ p ∈ front, p.x ≤ x)
    (hrest : ∀ p ∈ rest, ¬ p.x ≤ x) : indexAfter x (front ++ rest) = front.length := by
  refine bisect_eq (fun i => ?_) (Nat.zero_le _) (by simp)
  rcases lt_or_ge i front.length with hi | hi
  · rw [List.getElem?_append_left hi, List.getElem?_eq_getElem hi]
    simpa [hi] using hfront _ (List.getElem_mem hi)
  · rw [List.getElem?_append_right hi]
    refine iff_of_false (fun hany => ?_) (by omega)
    obtain ⟨p, hp, hle⟩ := (Option.any_eq_true _ _).mp hany
    exact hrest p (List.mem_of_getElem? hp) (of_decide_eq_true hle)

/-- In an ascending list the index after a timestamp is the number of samples up to it. -/
theorem indexAfter_eq {ps : List Point} (h : Ascending ps) (x : Float) :
    indexAfter x ps = (ps.takeWhile fun p => p.x ≤ x).length := by
  have hparts : indexAfter x ((ps.takeWhile fun p => p.x ≤ x) ++ ps.dropWhile fun p => p.x ≤ x) = _ :=
    indexAfter_append (fun p hp => not_later_of_mem_takeWhile hp) fun p hp => not_le_of_mem_dropWhile h hp
  rwa [List.takeWhile_append_dropWhile] at hparts

/-- Where a sample lies at NaN the index need not be that number. -/
example : indexAfter FloatMath.negInfinity [⟨FloatMath.nan, 7⟩, ⟨FloatMath.negInfinity, 8⟩] = 2 := by decide +kernel

theorem indexAfter_le (x : Float) (ps : List Point) : indexAfter x ps ≤ ps.length :=
  bisect_le _ _ (Nat.zero_le _)

theorem insertIdx_indexAfter {ps : List Point} (h : Ascending ps) (p : Point) :
    ps.insertIdx (indexAfter p.x ps) p =
      ps.takeWhile (fun q => q.x ≤ p.x) ++ p :: ps.dropWhile (fun q => q.x ≤ p.x) := by
  have hinsert := insertIdx_length_append (ps.takeWhile fun q => q.x ≤ p.x) (ps.dropWhile fun q => q.x ≤ p.x) p
  rwa [List.takeWhile_append_dropWhile, ← indexAfter_eq h] at hinsert

/-- In an ascending list a sample goes behind all that are not later than it. -/
theorem place_eq {p : Point} {ps : List Point} (h : Ascending ps) (hp : IsNumber p.x) :
    place p ps = ps.takeWhile (fun q => q.x ≤ p.x) ++ p :: ps.dropWhile (fun q => q.x ≤ p.x) := by
  unfold place
  split
  next back hb =>
    split
    next => exact insertIdx_indexAfter h p
    next hlt =>
      have hle := le_of_getLast? h hb
      have hback : back.x ≤ p.x := (lt_or_le hp (h.numbers back (List.mem_of_getLast? hb))).resolve_left hlt
      have hall : ∀ q ∈ ps, q.x ≤ p.x := fun q hq => FloatOrder.le_trans (hle q hq) hback
      rw [List.takeWhile_eq_self_iff.mpr (fun q hq => decide_eq_true (hall q hq)),
        List.dropWhile_eq_nil_iff.mpr (fun q hq => decide_eq_true (hall q hq))]
  next hb =>
    cases List.getLast?_eq_none_iff.mp hb
    rfl

theorem mem_place {p q : Point} {ps : List Point} (h : Ascending ps) (hp : IsNumber p.x) :
    q ∈ place p ps ↔ q = p ∨ q ∈ ps := by
  have hs := List.takeWhile_append_dropWhile (p := fun r : Point => decide (r.x ≤ p.x)) (l := ps)
  rw [place_eq h hp]
  conv_rhs => rw [← hs]
  simp only [List.mem_append, List.mem_cons]
  tauto

theorem ascending_place {p : Point} {ps : List Point} (h : Ascending ps) (hp : IsNumber p.x) :
    Ascending (place p ps) := by
  refine ⟨?_, fun q hq => ?_⟩
  · have hs : (ps.takeWhile (fun q => q.x ≤ p.x) ++ ps.dropWhile fun q => q.x ≤ p.x).Pairwise
        fun q r => q.x ≤ r.x := by
      rw [List.takeWhile_append_dropWhile]
      exact h.sorted
    obtain ⟨ht, hd, htd⟩ := List.pairwise_append.mp hs
    rw [place_eq h hp]
    refine List.pairwise_append.mpr ⟨ht, List.pairwise_cons.mpr ⟨?_, hd⟩, ?_⟩
    · intro q hq
      exact FloatOrder.le_of_lt (later_of_mem_dropWhile h hp hq)
    · intro q hq r hr
      rcases List.mem_cons.mp hr with rfl | hr
      · exact not_later_of_mem_takeWhile hq
      · exact htd q hq r hr
  · rcases (mem_place h hp).mp hq with rfl | hq
    · exact hp
    · exact h.numbers q hq

/-- A sample that is later than a first part of the list lands in the second part. -/
theorem place_append {p : Point} {done pending : List Point} (h : Ascending (done ++ pending))
    (hp : IsNumber p.x) (hd : ∀ q ∈ done, q.x ≤ p.x) :
    place p (done ++ pending) = done ++ place p pending := by
  have hall : ∀ q ∈ done, decide (q.x ≤ p.x) = true := fun q hq => decide_eq_true (hd q hq)
  rw [place_eq h hp, place_eq (ascending_append_right h) hp, List.takeWhile_append_of_pos hall,
    List.dropWhile_append_of_pos hall, List.append_assoc]

theorem place_last {p : Point} {ps : List Point} (h : Ascending (ps ++ [p])) :
    place p ps = ps ++ [p] := by
  have hall : ∀ q ∈ ps, q.x ≤ p.x := fun q hq =>
    (List.pairwise_append.mp h.sorted).2.2 q hq p (by simp)
  have hps : Ascending (ps ++ []) := by simpa using ascending_append_left h
  have hplace := place_append hps (h.numbers p (by simp)) hall
  rw [List.append_nil] at hplace
  exact hplace

theorem evict_eq_self {bound : Option Float} {ps : List Point}
    (h : ∀ b back, bound = some b → ps.getLast? = some back → ∀ p ∈ ps, ¬ p.x < back.x - b) :
    evict bound ps = ps := by
  unfold evict
  split
  next b back hlast =>
    rw [List.dropWhile_eq_self_iff]
    intro hlength
    simpa using h b back rfl hlast _ (List.getElem_mem hlength)
  next => rfl

/-- Ascending samples that all lie in the window of each of them are kept as they are pushed. -/
theorem pushAll_eq_append {bound : Option Float} {ps qs : List Point} (h : Ascending (ps ++ qs))
    (hw : ∀ b, bound = some b → ∀ p ∈ ps ++ qs, ∀ q ∈ ps ++ qs, ¬ p.x < q.x - b) :
    pushAll ⟨ps, bound⟩ qs = ⟨ps ++ qs, bound⟩ := by
  induction qs generalizing ps with
  | nil => simp [pushAll]
  | cons q qs ih =>
    have hsplit : ps ++ q :: qs = (ps ++ [q]) ++ qs := by simp
    rw [hsplit] at h hw ⊢
    have hkept : evict bound (ps ++ [q]) = ps ++ [q] := evict_eq_self fun b back hb hlast p hp =>
      hw b hb p (List.mem_append_left qs hp) back (List.mem_append_left qs (List.mem_of_getLast? hlast))
    have hpush : push ⟨ps, bound⟩ q = ⟨ps ++ [q], bound⟩ := by
      simp only [push, place_last (ascending_append_left h), hkept]
    rw [← ih h hw, ← hpush]
    rfl

/-- Ascending samples that are not earlier than a series are put behind it as they are. -/
theorem points_pushAll {ps qs : List Point} (h : Ascending (ps ++ qs)) :
    (pushAll ⟨ps, none⟩ qs) = ⟨ps ++ qs, none⟩ :=
  pushAll_eq_append h nofun

theorem after_eq_dropWhile {s : Series} (h : Ascending s.points) (x : Float) :
    s.after x = s.points.dropWhile fun p => p.x ≤ x := by
  have hd := @List.drop_left Point (s.points.takeWhile fun p => p.x ≤ x)
    (s.points.dropWhile fun p => p.x ≤ x)
  rwa [List.takeWhile_append_dropWhile, ← indexAfter_eq h] at hd

theorem takeWhile_eq_filter {ps : List Point} (h : Ascending ps) (x : Float) :
    ps.takeWhile (fun p => p.x ≤ x) = ps.filter fun p => p.x ≤ x := by
  induction ps with
  | nil => rfl
  | cons p rest ih =>
    obtain ⟨hp, -⟩ := List.pairwise_cons.mp h.sorted
    have hrest : Ascending rest := ascending_append_right (show Ascending ([p] ++ rest) from h)
    by_cases hle : p.x ≤ x
    · simp [hle, ih hrest]
    · have hnone : ∀ q ∈ rest, ¬ q.x ≤ x := fun q hq hqx => hle (FloatOrder.le_trans (hp q hq) hqx)
      have hfilter : (rest.filter fun q => q.x ≤ x) = [] := by
        apply List.filter_eq_nil_iff.mpr
        intro q hq
        simp [hnone q hq]
      simp [hle, hfilter]

theorem dropWhile_eq_filter {ps : List Point} (h : Ascending ps) {x : Float} (hx : IsNumber x) :
    ps.dropWhile (fun p => p.x ≤ x) = ps.filter fun p => x < p.x := by
  induction ps with
  | nil => rfl
  | cons p rest ih =>
    obtain ⟨hp, -⟩ := List.pairwise_cons.mp h.sorted
    have hrest : Ascending rest := ascending_append_right (show Ascending ([p] ++ rest) from h)
    rcases lt_or_le hx (h.numbers p (by simp)) with hlt | hle
    · have hall : ∀ q ∈ rest, x < q.x := fun q hq => lt_of_lt_of_le hlt (hp q hq)
      have hfilter : (rest.filter fun q => x < q.x) = rest := by
        apply List.filter_eq_self.mpr
        intro q hq
        simp [hall q hq]
      simp [FloatOrder.not_le_of_lt hlt, hlt, hfilter]
    · have hnlt : ¬ x < p.x := fun hlt => FloatOrder.not_le_of_lt hlt hle
      simp [hle, hnlt, ih hrest]

/-- The samples later than `x` are those behind a first part that reaches up to `x`. -/
theorem after_eq {s : Series} {x : Float} {done pending : List Point}
    (hs : s.points = done ++ pending) (hd : ∀ p ∈ done, p.x ≤ x)
    (hp : ∀ p ∈ pending, x < p.x) : s.after x = pending := by
  have hindex : indexAfter x (done ++ pending) = done.length :=
    indexAfter_append hd fun p hmem => FloatOrder.not_le_of_lt (hp p hmem)
  rw [after, firstAfter, hs, hindex, List.drop_left]

theorem valueAt_eq {s : Series} (h : Ascending s.points) (x : Float) :
    s.valueAt x =
      ((s.points.takeWhile fun p => p.x ≤ x).getLast?.map (·.y)).getD FloatMath.nan := by
  have hprefix := List.takeWhile_prefix (fun p : Point => decide (p.x ≤ x)) (l := s.points)
  unfold valueAt nearest? firstAfter at?
  rw [indexAfter_eq h]
  generalize s.points.takeWhile (fun p => decide (p.x ≤ x)) = found at *
  cases hn : found.length with
  | zero => simp [List.length_eq_zero_iff.mp hn]
  | succ n =>
    obtain ⟨rest, hrest⟩ := hprefix
    have hlast : s.points[n]? = found.getLast? := by
      rw [List.getLast?_eq_getElem?, ← hrest, List.getElem?_append_left (by omega), hn,
        Nat.add_sub_cancel]
    simp only [Option.bind_some, hlast]
    cases found.getLast? <;> rfl

theorem takeWhile_insert {f : Point → Bool} {a : Point} (ha : f a = false) (bs : List Point)
    (hb : ∀ b, bs.head? = some b → f b = false) (as : List Point) :
    (as ++ a :: bs).takeWhile f = (as ++ bs).takeWhile f := by
  induction as with
  | nil =>
    cases bs with
    | nil => simp [ha]
    | cons b rest => simp [ha, hb b rfl]
  | cons c rest ih =>
    simp only [List.cons_append, List.takeWhile_cons, ih]

theorem takeWhile_place {p : Point} {x : Float} {ps : List Point} (h : Ascending ps) (hx : x < p.x) :
    (place p ps).takeWhile (fun q => q.x ≤ x) = ps.takeWhile (fun q => q.x ≤ x) := by
  have hp : decide (p.x ≤ x) = false := decide_eq_false (FloatOrder.not_le_of_lt hx)
  have hhead : ∀ q, (ps.dropWhile fun q => q.x ≤ p.x).head? = some q → decide (q.x ≤ x) = false := by
    intro q hq
    have hlater : ¬ q.x ≤ p.x := not_le_of_mem_dropWhile h (List.mem_of_head? hq)
    exact decide_eq_false fun hle => hlater (FloatOrder.le_of_lt (FloatOrder.lt_of_le_of_lt hle hx))
  rw [place_eq h (isNumber_right (FloatOrder.le_of_lt hx)), takeWhile_insert hp _ hhead, List.takeWhile_append_dropWhile]

/-- A look-up does not see samples that are pushed later than the place where it looks. -/
theorem valueAt_push {s : Series} {p : Point} {x : Float} (h : Ascending s.points) (hb : s.bound = none)
    (hx : x < p.x) : (s.push p).valueAt x = s.valueAt x := by
  have hpushed : Ascending (s.push p).points := by
    simp only [push, hb, evict_none]
    exact ascending_place h (isNumber_right (FloatOrder.le_of_lt hx))
  rw [valueAt_eq hpushed, valueAt_eq h]
  simp only [push, hb, evict_none, takeWhile_place h hx]

end Series

end DerivedSignal
