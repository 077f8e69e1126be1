import DerivedSignal.Proofs.FloatSubtraction
import DerivedSignal.Proofs.SeriesOrder

namespace DerivedSignal

open FloatOrder

/-- Samples in ascending order at finite timestamps. -/
structure FiniteAscending (ps : List Point) : Prop extends Ascending ps where
  finite : ∀ p ∈ ps, p.x.isFinite = true

instance (ps : List Point) : Decidable (FiniteAscending ps) :=
  decidable_of_iff (Ascending ps ∧ ∀ p ∈ ps, p.x.isFinite = true)
    ⟨fun h => ⟨h.1, h.2⟩, fun h => ⟨h.toAscending, h.finite⟩⟩

namespace FiniteAscending

variable {ps qs : List Point}

theorem sublist (h : FiniteAscending qs) (hsub : ps.Sublist qs) : FiniteAscending ps :=
  ⟨ascending_sublist hsub h.toAscending, fun p hp => h.finite p (hsub.subset hp)⟩

theorem left (h : FiniteAscending (ps ++ qs)) : FiniteAscending ps :=
  h.sublist (List.sublist_append_left ps qs)

theorem place (h : FiniteAscending ps) {p : Point} (hp : p.x.isFinite = true) :
    FiniteAscending (Series.place p ps) := by
  have hnumber := isNumber_of_isFinite hp
  refine ⟨Series.ascending_place h.toAscending hnumber, fun q hq => ?_⟩
  rcases (Series.mem_place h.toAscending hnumber).mp hq with rfl | hq
  · exact hp
  · exact h.finite q hq

end FiniteAscending

/-- A bound that is absent or not negative. -/
def ValidBound (bound : Option Float) : Prop := ∀ b, bound = some b → 0 ≤ b

namespace Series

variable {bound : Option Float} {ps qs : List Point} {p back : Point}

/-- Whether a sample lies in the window that ends at `back`. -/
def stays (bound : Option Float) (back : Float) (p : Point) : Bool :=
  match bound with
  | some b => !(p.x < back - b)
  | none => true

theorem stays_of_le (hb : ValidBound bound) {x : Float} (hx : x.isFinite = true) (h : x ≤ p.x) :
    stays bound x p = true := by
  cases bound with
  | none => rfl
  | some b =>
    have hnot : ¬ p.x < x - b := fun hlt =>
      not_le_of_lt (lt_of_lt_of_le hlt (FloatOrder.sub_le_self hx (hb b rfl))) h
    simp [stays, hnot]

/-- What stays in a window stays in one that ends earlier. -/
theorem stays_of_stays (hb : ValidBound bound) {x y : Float} (hx : x.isFinite = true)
    (hy : y.isFinite = true) (hxy : x ≤ y) (h : stays bound y p = true) : stays bound x p = true := by
  cases bound with
  | none => rfl
  | some b =>
    have hsub := FloatOrder.sub_le_sub_right hx hy (hb b rfl) hxy
    have hnot : ¬ p.x < y - b := by simpa [stays] using h
    have hnot' : ¬ p.x < x - b := fun hlt => hnot (lt_of_lt_of_le hlt hsub)
    simp [stays, hnot']

theorem dropWhile_lt_eq_filter (h : Ascending ps) (x : Float) :
    ps.dropWhile (fun p => p.x < x) = ps.filter fun p => !(p.x < x) := by
  induction ps with
  | nil => rfl
  | cons p rest ih =>
    obtain ⟨hp, -⟩ := List.pairwise_cons.mp h.sorted
    have hrest : Ascending rest := ascending_append_right (show Ascending ([p] ++ rest) from h)
    by_cases hlt : p.x < x
    · simp [hlt, ih hrest]
    · have hall : (rest.filter fun q => !(q.x < x)) = rest := by
        apply List.filter_eq_self.mpr
        intro q hq
        have hnot : ¬ q.x < x := fun hqx => hlt (lt_of_le_of_lt (hp q hq) hqx)
        simp [hnot]
      simp [hlt, hall]

theorem evict_nil (bound : Option Float) : evict bound [] = [] := by
  cases bound <;> rfl

theorem evict_eq_filter (h : Ascending ps) (hlast : ps.getLast? = some back) :
    evict bound ps = ps.filter (stays bound back.x) := by
  cases bound with
  | none =>
    have hall : ps.filter (stays none back.x) = ps := List.filter_eq_self.mpr fun _ _ => rfl
    rw [evict_none, hall]
  | some b =>
    simp only [evict, hlast]
    exact dropWhile_lt_eq_filter h (back.x - b)

theorem getLast?_filter {f : Point → Bool} (hlast : ps.getLast? = some back) (hf : f back = true) :
    (ps.filter f).getLast? = some back := by
  obtain ⟨front, rfl⟩ := List.getLast?_eq_some_iff.mp hlast
  rw [List.filter_append, List.filter_singleton, hf]
  exact List.getLast?_concat

theorem evict_sublist (h : Ascending ps) (bound : Option Float) : (evict bound ps).Sublist ps := by
  cases hlast : ps.getLast? with
  | none =>
    cases List.getLast?_eq_none_iff.mp hlast
    rw [evict_nil]
  | some back =>
    rw [evict_eq_filter h hlast]
    exact List.filter_sublist

theorem getLast?_evict (hb : ValidBound bound) (h : FiniteAscending ps) :
    (evict bound ps).getLast? = ps.getLast? := by
  cases hlast : ps.getLast? with
  | none =>
    cases List.getLast?_eq_none_iff.mp hlast
    rw [evict_nil]
    rfl
  | some back =>
    have hback := List.mem_of_getLast? hlast
    rw [evict_eq_filter h.toAscending hlast]
    exact getLast?_filter hlast (stays_of_le hb (h.finite back hback) (h.numbers back hback))

/-- Lists with the same last sample, and with the same samples in its window, are the same after
eviction. -/
theorem evict_eq_evict (hp : Ascending ps) (hq : Ascending qs) (hlast : ps.getLast? = qs.getLast?)
    (h : ∀ back, qs.getLast? = some back →
      ps.filter (stays bound back.x) = qs.filter (stays bound back.x)) :
    evict bound ps = evict bound qs := by
  cases hback : qs.getLast? with
  | none =>
    rw [hback] at hlast
    cases List.getLast?_eq_none_iff.mp hback
    cases List.getLast?_eq_none_iff.mp hlast
    rfl
  | some back =>
    rw [hback] at hlast
    rw [evict_eq_filter hp hlast, evict_eq_filter hq hback, h back hback]

/-- What an earlier eviction has dropped, a later one would have dropped too. -/
theorem filter_evict (hb : ValidBound bound) (h : FiniteAscending ps) {x : Float}
    (hx : x.isFinite = true) (hle : ∀ p ∈ ps, p.x ≤ x) :
    (evict bound ps).filter (stays bound x) = ps.filter (stays bound x) := by
  cases hlast : ps.getLast? with
  | none =>
    cases List.getLast?_eq_none_iff.mp hlast
    rw [evict_nil]
  | some back =>
    have hback := List.mem_of_getLast? hlast
    -- The window moves forward, so that the earlier eviction has dropped nothing that is still in it.
    rw [evict_eq_filter h.toAscending hlast, List.filter_filter]
    refine List.filter_congr fun p _ => ?_
    rw [Bool.and_eq_left_iff_imp]
    exact stays_of_stays hb (h.finite back hback) hx (hle back hback)

/-- Evicting before samples are put behind a list changes nothing. -/
theorem evict_append (hb : ValidBound bound) (h : FiniteAscending (ps ++ qs)) :
    evict bound (evict bound ps ++ qs) = evict bound (ps ++ qs) := by
  have hsub := (evict_sublist h.left.toAscending bound).append_right qs
  refine evict_eq_evict (h.sublist hsub).toAscending h.toAscending ?_ fun back hback => ?_
  · rw [List.getLast?_append, List.getLast?_append, getLast?_evict hb h.left]
  · have hmem := List.mem_of_getLast? hback
    have hle : ∀ p ∈ ps, p.x ≤ back.x := fun p hp =>
      le_of_getLast? h.toAscending hback p (List.mem_append_left qs hp)
    rw [List.filter_append, List.filter_append, filter_evict hb h.left (h.finite back hmem) hle]

theorem evict_append_filter (hb : ValidBound bound) (h : FiniteAscending (ps ++ qs))
    (hlast : (ps ++ qs).getLast? = some back) :
    evict bound (ps ++ qs.filter (stays bound back.x)) = evict bound (ps ++ qs) := by
  have hsub := (List.Sublist.refl ps).append (List.filter_sublist (p := stays bound back.x) (l := qs))
  refine evict_eq_evict (h.sublist hsub).toAscending h.toAscending ?_ fun back' hback => ?_
  · cases hq : qs.getLast? with
    | none =>
      cases List.getLast?_eq_none_iff.mp hq
      rfl
    | some last =>
      have hsame : back = last := by simpa [List.getLast?_append, hq] using hlast.symm
      subst hsame
      have hmem : back ∈ ps ++ qs := List.mem_of_getLast? hlast
      have hstays := stays_of_le hb (h.finite back hmem) (h.numbers back hmem)
      rw [List.getLast?_append, List.getLast?_append, getLast?_filter hq hstays, hq]
  · cases hlast.symm.trans hback
    simp only [List.filter_append, List.filter_filter, Bool.and_self]

theorem evict_evict (hb : ValidBound bound) (h : FiniteAscending ps) :
    evict bound (evict bound ps) = evict bound ps := by
  have hnil : FiniteAscending (ps ++ []) := by rwa [List.append_nil]
  have happend := evict_append hb hnil
  rwa [List.append_nil, List.append_nil] at happend

theorem getLast?_place (h : Ascending ps) (hp : IsNumber p.x) :
    (place p ps).getLast? = match ps.getLast? with
      | some back => if p.x < back.x then some back else some p
      | none => some p := by
  cases hlast : ps.getLast? with
  | none =>
    cases List.getLast?_eq_none_iff.mp hlast
    rfl
  | some back =>
    simp only
    split
    next hlt =>
      obtain ⟨front, rfl⟩ := List.getLast?_eq_some_iff.mp hlast
      have hnot : ¬ back.x ≤ p.x := not_le_of_lt hlt
      rw [place_eq h hp, List.dropWhile_append]
      split <;> simp [hnot, List.getLast?_cons]
    next hlt =>
      unfold place
      simp only [hlast, if_neg hlt, List.getLast?_concat]

theorem filter_place (h : Ascending ps) (hp : IsNumber p.x) (f : Point → Bool) :
    (place p ps).filter f = (ps.filter f).filter (fun q => q.x ≤ p.x) ++
      ([p].filter f ++ (ps.filter f).filter fun q => p.x < q.x) := by
  rw [place_eq h hp, takeWhile_eq_filter h, dropWhile_eq_filter h hp, ← List.singleton_append,
    List.filter_append, List.filter_append, List.filter_comm f, List.filter_comm f]

/-- Evicting before a sample is put in its place changes nothing. -/
theorem evict_place (hb : ValidBound bound) (h : FiniteAscending ps) (hp : p.x.isFinite = true) :
    evict bound (place p (evict bound ps)) = evict bound (place p ps) := by
  have hkept := h.sublist (evict_sublist h.toAscending bound)
  have hplaced := h.place hp
  have hnumber := isNumber_of_isFinite hp
  refine evict_eq_evict (hkept.place hp).toAscending hplaced.toAscending ?_ fun back hback => ?_
  · rw [getLast?_place hkept.toAscending hnumber, getLast?_place h.toAscending hnumber, getLast?_evict hb h]
  · have hle : ∀ q ∈ ps, q.x ≤ back.x := fun q hq =>
      le_of_getLast? hplaced.toAscending hback q ((mem_place h.toAscending hnumber).mpr (.inr hq))
    rw [filter_place hkept.toAscending hnumber, filter_place h.toAscending hnumber,
      filter_evict hb h (hplaced.finite back (List.mem_of_getLast? hback)) hle]

/-- Pushing ascending samples one after another leaves what a single eviction leaves of all of them. -/
theorem pushAll_evict (hb : ValidBound bound) (h : FiniteAscending (ps ++ qs)) :
    pushAll ⟨evict bound ps, bound⟩ qs = ⟨evict bound (ps ++ qs), bound⟩ := by
  induction qs generalizing ps with
  | nil => simp [pushAll]
  | cons q qs ih =>
    have hsplit : ps ++ q :: qs = (ps ++ [q]) ++ qs := by simp
    rw [hsplit] at h ⊢
    have hpush : push ⟨evict bound ps, bound⟩ q = ⟨evict bound (ps ++ [q]), bound⟩ := by
      have hq : q.x.isFinite = true := h.finite q (by simp)
      simp only [push, evict_place hb h.left.left hq, place_last h.left.toAscending]
    rw [← ih h, ← hpush]
    rfl

end Series

end DerivedSignal
