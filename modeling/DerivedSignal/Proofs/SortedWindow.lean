import DerivedSignal.Proofs.Eviction

namespace DerivedSignal

open FloatOrder

/-- Whether a sample stands at a timestamp; the two zeros are one timestamp. -/
def standsAt (x : Float) (p : Point) : Bool := p.x ≤ x && x ≤ p.x

theorem standsAt_iff {x : Float} {p : Point} : standsAt x p = true ↔ p.x ≤ x ∧ x ≤ p.x := by
  rw [standsAt, Bool.and_eq_true, decide_eq_true_iff, decide_eq_true_iff]

/-- The timestamp `x` is the greatest of some samples. -/
def IsLatest (ps : List Point) (x : Float) : Prop := (∃ p ∈ ps, p.x = x) ∧ ∀ p ∈ ps, p.x ≤ x

/-- Whether a sample lies in the window of a series whose greatest timestamp is `latest`. -/
def inside (bound : Option Float) (latest : Float) (p : Point) : Bool :=
  match bound with
  | some b => latest - b ≤ p.x
  | none => true

section Sorting

variable {ps qs : List Point}

/-- Ascending samples are determined by what stands at each timestamp. -/
theorem eq_of_filter_standsAt (hp : Ascending ps) (hq : Ascending qs)
    (h : ∀ x, ps.filter (standsAt x) = qs.filter (standsAt x)) : ps = qs := by
  have here : ∀ {p : Point}, IsNumber p.x → standsAt p.x p = true := fun hp => standsAt_iff.mpr ⟨hp, hp⟩
  induction ps generalizing qs with
  | nil =>
    cases qs with
    | nil => rfl
    | cons q qs =>
      have hq' := h q.x
      rw [List.filter_nil, List.filter_cons_of_pos (here (hq.numbers q (by simp)))] at hq'
      cases hq'
  | cons p ps ih =>
    have hpp := here (hp.numbers p (by simp))
    cases qs with
    | nil =>
      have hp' := h p.x
      rw [List.filter_nil, List.filter_cons_of_pos hpp] at hp'
      cases hp'
    | cons q qs =>
      have hqq := here (hq.numbers q (by simp))
      -- Each list begins with a sample that the other one holds, and that is not earlier there.
      have hle : q.x ≤ p.x := by
        have hmem : p ∈ (q :: qs).filter (standsAt p.x) := by
          rw [← h p.x]
          exact List.mem_filter.mpr ⟨List.mem_cons_self, hpp⟩
        rcases List.mem_cons.mp (List.mem_filter.mp hmem).1 with rfl | hmem
        · exact hp.numbers p (by simp)
        · exact (List.pairwise_cons.mp hq.sorted).1 p hmem
      have hge : p.x ≤ q.x := by
        have hmem : q ∈ (p :: ps).filter (standsAt q.x) := by
          rw [h q.x]
          exact List.mem_filter.mpr ⟨List.mem_cons_self, hqq⟩
        rcases List.mem_cons.mp (List.mem_filter.mp hmem).1 with rfl | hmem
        · exact hq.numbers q (by simp)
        · exact (List.pairwise_cons.mp hp.sorted).1 q hmem
      have hhead := h p.x
      rw [List.filter_cons_of_pos hpp, List.filter_cons_of_pos (standsAt_iff.mpr ⟨hle, hge⟩)] at hhead
      obtain ⟨rfl, -⟩ := List.cons.inj hhead
      have hps : Ascending ps := ascending_append_right (show Ascending ([p] ++ ps) from hp)
      have hqs : Ascending qs := ascending_append_right (show Ascending ([p] ++ qs) from hq)
      refine congrArg (p :: ·) (ih hps hqs fun x => ?_)
      have hx := h x
      rw [List.filter_cons, List.filter_cons] at hx
      split at hx
      next => exact (List.cons.inj hx).2
      next => exact hx

/-- A place in a total order that is the place of a number among the doubles. -/
def sortKey (p : Point) : ℤ ×ₗ ℤ ×ₗ ℤ := (FloatOrder.place p.x).getD (toLex (0, toLex (0, 0)))

theorem le_iff_sortKey {p q : Point} (hp : IsNumber p.x) (hq : IsNumber q.x) :
    p.x ≤ q.x ↔ sortKey p ≤ sortKey q := by
  obtain ⟨a, -, ha, -, -⟩ := (le_iff p.x p.x).mp hp
  obtain ⟨b, -, hb, -, -⟩ := (le_iff q.x q.x).mp hq
  simp [le_iff, sortKey, ha, hb]

/-- Samples in the order of their timestamps; those at one timestamp keep their order. -/
def inOrder (ps : List Point) : List Point := ps.mergeSort fun p q => p.x ≤ q.x

/-- Sorting compares numbers only, so that the order is as good as total. -/
theorem inOrder_eq (h : ∀ p ∈ ps, IsNumber p.x) :
    inOrder ps = ps.mergeSort fun p q => sortKey p ≤ sortKey q := by
  have hmap := List.map_mergeSort (f := fun p : Point => p) (l := ps)
    (r := fun p q => decide (p.x ≤ q.x)) (s := fun p q => decide (sortKey p ≤ sortKey q))
    fun p hp q hq => decide_eq_decide.mpr (le_iff_sortKey (h p hp) (h q hq))
  rwa [List.map_id', List.map_id'] at hmap

theorem inOrder_perm (ps : List Point) : (inOrder ps).Perm ps := List.mergeSort_perm ps _

theorem sortKey_trans (p q r : Point) (h : decide (sortKey p ≤ sortKey q) = true)
    (h' : decide (sortKey q ≤ sortKey r) = true) : decide (sortKey p ≤ sortKey r) = true :=
  decide_eq_true ((of_decide_eq_true h).trans (of_decide_eq_true h'))

theorem sortKey_total (p q : Point) :
    (decide (sortKey p ≤ sortKey q) || decide (sortKey q ≤ sortKey p)) = true := by
  simpa using le_total (sortKey p) (sortKey q)

theorem ascending_inOrder (h : ∀ p ∈ ps, IsNumber p.x) : Ascending (inOrder ps) := by
  have hnumbers : ∀ p ∈ inOrder ps, IsNumber p.x := fun p hp => h p ((inOrder_perm ps).mem_iff.mp hp)
  have hsorted := List.pairwise_mergeSort sortKey_trans sortKey_total ps
  rw [← inOrder_eq h] at hsorted
  refine ⟨hsorted.imp_of_mem fun hp hq hle => ?_, hnumbers⟩
  exact (le_iff_sortKey (hnumbers _ hp) (hnumbers _ hq)).mpr (of_decide_eq_true hle)

theorem filter_inOrder (h : ∀ p ∈ ps, IsNumber p.x) (x : Float) :
    (inOrder ps).filter (standsAt x) = ps.filter (standsAt x) := by
  have hperm := (inOrder_perm ps).filter (standsAt x)
  have hsame : (ps.filter (standsAt x)).Pairwise fun p q => decide (sortKey p ≤ sortKey q) = true := by
    refine List.pairwise_of_forall_mem_list fun p hp q hq => ?_
    obtain ⟨hp, hpx⟩ := List.mem_filter.mp hp
    obtain ⟨hq, hqx⟩ := List.mem_filter.mp hq
    have hle : p.x ≤ q.x := FloatOrder.le_trans (standsAt_iff.mp hpx).1 (standsAt_iff.mp hqx).2
    exact decide_eq_true ((le_iff_sortKey (h p hp) (h q hq)).mp hle)
  have hsub : (ps.filter (standsAt x)).Sublist (inOrder ps) := by
    rw [inOrder_eq h]
    exact List.sublist_mergeSort sortKey_trans sortKey_total hsame List.filter_sublist
  have hstand := hsub.filter (standsAt x)
  simp only [List.filter_filter, Bool.and_self] at hstand
  exact (hstand.eq_of_length hperm.length_eq.symm).symm

/-- Samples at different timestamps come in one order only. -/
theorem inOrder_congr (h : ∀ p ∈ ps, IsNumber p.x) (hperm : qs.Perm ps)
    (hdistinct : ps.Pairwise fun p q => p.x < q.x ∨ q.x < p.x) : inOrder qs = inOrder ps := by
  have hqs : ∀ q ∈ qs, IsNumber q.x := fun q hq => h q (hperm.mem_iff.mp hq)
  have hperm' : (inOrder qs).Perm (inOrder ps) :=
    (inOrder_perm qs).trans (hperm.trans (inOrder_perm ps).symm)
  have : Std.Symm fun p q : Point => p.x < q.x ∨ q.x < p.x := ⟨fun _ _ => Or.symm⟩
  have hapart := hdistinct.forall
  refine hperm'.eq_of_pairwise ?_ (ascending_inOrder hqs).sorted (ascending_inOrder h).sorted
  intro p q hp hq hpq hqp
  by_contra hne
  have hp' : p ∈ ps := hperm.mem_iff.mp ((inOrder_perm qs).mem_iff.mp hp)
  rcases hapart hp' ((inOrder_perm ps).mem_iff.mp hq) hne with hlt | hlt
  · exact not_le_of_lt hlt hqp
  · exact not_le_of_lt hlt hpq

end Sorting

namespace Series

variable {bound : Option Float} {ps qs : List Point} {p : Point}

/-- The samples of a list after others have been put in their places one after another. -/
def placeAll (qs ps : List Point) : List Point := ps.foldl (fun qs p => place p qs) qs

/-- A sample goes behind those that stand at its timestamp already. -/
theorem filter_standsAt_place (h : Ascending ps) (hp : IsNumber p.x) (x : Float) :
    (place p ps).filter (standsAt x) = ps.filter (standsAt x) ++ [p].filter (standsAt x) := by
  rw [filter_place h hp]
  by_cases hlt : p.x < x
  · have hnone : [p].filter (standsAt x) = [] := by
      have hnot : ¬ standsAt x p = true := fun hs => not_le_of_lt hlt (standsAt_iff.mp hs).2
      exact List.filter_cons_of_neg hnot
    have hbefore : (ps.filter (standsAt x)).filter (fun q => q.x ≤ p.x) = [] := by
      apply List.filter_eq_nil_iff.mpr
      intro q hq
      have hx := (standsAt_iff.mp (List.mem_filter.mp hq).2).2
      simpa using not_le_of_lt (lt_of_lt_of_le hlt hx)
    have hbehind : (ps.filter (standsAt x)).filter (fun q => p.x < q.x) = ps.filter (standsAt x) := by
      apply List.filter_eq_self.mpr
      intro q hq
      have hx := (standsAt_iff.mp (List.mem_filter.mp hq).2).2
      simpa using lt_of_lt_of_le hlt hx
    rw [hnone, hbefore, hbehind, List.nil_append, List.nil_append, List.append_nil]
  · have hle : ∀ q ∈ ps.filter (standsAt x), q.x ≤ p.x := by
      intro q hq
      obtain ⟨hqx, hxq⟩ := standsAt_iff.mp (List.mem_filter.mp hq).2
      exact FloatOrder.le_trans hqx ((lt_or_le hp (isNumber_right hqx)).resolve_left hlt)
    have hbefore : (ps.filter (standsAt x)).filter (fun q => q.x ≤ p.x) = ps.filter (standsAt x) := by
      apply List.filter_eq_self.mpr
      intro q hq
      simpa using hle q hq
    have hbehind : (ps.filter (standsAt x)).filter (fun q => p.x < q.x) = [] := by
      apply List.filter_eq_nil_iff.mpr
      intro q hq hlt
      exact not_le_of_lt (of_decide_eq_true hlt) (hle q hq)
    rw [hbefore, hbehind, List.append_nil]

theorem placeAll_spec (h : FiniteAscending qs) (hps : ∀ p ∈ ps, p.x.isFinite = true) :
    FiniteAscending (placeAll qs ps) ∧ ∀ x, (placeAll qs ps).filter (standsAt x) =
      qs.filter (standsAt x) ++ ps.filter (standsAt x) := by
  induction ps generalizing qs with
  | nil => exact ⟨h, fun x => (List.append_nil _).symm⟩
  | cons p ps ih =>
    have hp := hps p List.mem_cons_self
    obtain ⟨hfinite, hstand⟩ := ih (h.place hp) fun q hq => hps q (List.mem_cons_of_mem p hq)
    refine ⟨hfinite, fun x => (hstand x).trans ?_⟩
    rw [filter_standsAt_place h.toAscending (isNumber_of_isFinite hp), List.append_assoc,
      ← List.filter_append, List.singleton_append]

theorem ascending_nil : Ascending [] := ⟨List.Pairwise.nil, by simp⟩

theorem finiteAscending_nil : FiniteAscending [] := ⟨ascending_nil, by simp⟩

/-- Putting samples in their places one after another sorts them. -/
theorem placeAll_eq_inOrder (hps : ∀ p ∈ ps, p.x.isFinite = true) : placeAll [] ps = inOrder ps := by
  have hnumbers : ∀ p ∈ ps, IsNumber p.x := fun p hp => isNumber_of_isFinite (hps p hp)
  obtain ⟨hfinite, hstand⟩ := placeAll_spec finiteAscending_nil hps
  refine eq_of_filter_standsAt hfinite.toAscending (ascending_inOrder hnumbers) fun x => ?_
  rw [hstand, filter_inOrder hnumbers, List.filter_nil, List.nil_append]

/-- It does not matter whether samples are evicted after each push or once at the end. -/
theorem pushAll_eq_evict (hb : ValidBound bound) (h : FiniteAscending qs)
    (hps : ∀ p ∈ ps, p.x.isFinite = true) :
    pushAll ⟨evict bound qs, bound⟩ ps = ⟨evict bound (placeAll qs ps), bound⟩ := by
  induction ps generalizing qs with
  | nil => rfl
  | cons p ps ih =>
    have hp := hps p List.mem_cons_self
    have hpush : push ⟨evict bound qs, bound⟩ p = ⟨evict bound (place p qs), bound⟩ := by
      simp only [push, evict_place hb h hp]
    have hrest := ih (h.place hp) fun q hq => hps q (List.mem_cons_of_mem p hq)
    rw [← hpush] at hrest
    exact hrest

theorem pushAll_setBound (hb : ValidBound bound) (hps : ∀ p ∈ ps, p.x.isFinite = true) :
    (empty.setBound bound).pushAll ps = ⟨evict bound (inOrder ps), bound⟩ := by
  rw [← placeAll_eq_inOrder hps, ← pushAll_eq_evict hb finiteAscending_nil hps]
  rfl

theorem stays_eq_inside (hb : ValidBound bound) {x : Float} (hx : x.isFinite = true)
    (hp : IsNumber p.x) : stays bound x p = inside bound x p := by
  cases bound with
  | none => rfl
  | some b =>
    have hle : x - b ≤ x := FloatOrder.sub_le_self hx (hb b rfl)
    have hnumber : IsNumber (x - b) := isNumber_left hle
    rw [stays, inside, Bool.eq_iff_iff, Bool.not_eq_true', decide_eq_false_iff_not, decide_eq_true_iff]
    constructor
    · exact (lt_or_le hp hnumber).resolve_left
    · intro h hlt
      exact not_le_of_lt hlt h

/-- Evicting once at the end leaves the window behind the greatest timestamp. -/
theorem evict_inOrder (hb : ValidBound bound) (hps : ∀ p ∈ ps, p.x.isFinite = true) :
    ∃ latest, (ps ≠ [] → IsLatest ps latest) ∧
      evict bound (inOrder ps) = (inOrder ps).filter (inside bound latest) := by
  have hascending := ascending_inOrder fun p hp => isNumber_of_isFinite (hps p hp)
  have hmem : ∀ p, p ∈ inOrder ps ↔ p ∈ ps := fun p => (inOrder_perm ps).mem_iff
  cases hlast : (inOrder ps).getLast? with
  | none =>
    have hnil := List.getLast?_eq_none_iff.mp hlast
    have hempty : ps = [] := by simpa [hnil] using inOrder_perm ps
    refine ⟨0, fun hne => absurd hempty hne, ?_⟩
    rw [hnil, evict_nil, List.filter_nil]
  | some back =>
    have hback := (hmem back).mp (List.mem_of_getLast? hlast)
    refine ⟨back.x, fun _ => ⟨⟨back, hback, rfl⟩, fun p hp => ?_⟩, ?_⟩
    · exact le_of_getLast? hascending hlast p ((hmem p).mpr hp)
    · rw [evict_eq_filter hascending hlast]
      exact List.filter_congr fun p hp =>
        stays_eq_inside hb (hps back hback) (hascending.numbers p hp)

end Series

/-- Samples pushed in any order to a series with a bound that is set before: it holds them in the order of
their timestamps, those at one timestamp in the order of their pushes, as far as they lie in the window
behind the greatest timestamp. So each sample of the window is there once and no other is, and if no two
timestamps are the same, the order of the pushes does not matter. -/
theorem pushes_leave_sorted_window {bound : Option Float} {ps : List Point} (hb : ValidBound bound)
    (hps : ∀ p ∈ ps, p.x.isFinite = true) :
    let s := (Series.empty.setBound bound).pushAll ps
    s.bound = bound ∧
    (∃ latest, (ps ≠ [] → IsLatest ps latest) ∧
      s.points = (ps.mergeSort fun p q => p.x ≤ q.x).filter (inside bound latest) ∧
      s.points.Perm (ps.filter (inside bound latest)) ∧
      ∀ x, s.points.filter (standsAt x) = (ps.filter (inside bound latest)).filter (standsAt x)) ∧
    ((ps.Pairwise fun p q => p.x < q.x ∨ q.x < p.x) →
      ∀ qs, qs.Perm ps → (Series.empty.setBound bound).pushAll qs = s) := by
  have hnumbers : ∀ p ∈ ps, IsNumber p.x := fun p hp => isNumber_of_isFinite (hps p hp)
  have hpoints := Series.pushAll_setBound hb hps
  intro s
  refine ⟨congrArg Series.bound hpoints, ?_, fun hdistinct qs hperm => ?_⟩
  · obtain ⟨latest, hlatest, hwindow⟩ := Series.evict_inOrder hb hps
    have hfilter : s.points = (inOrder ps).filter (inside bound latest) :=
      (congrArg Series.points hpoints).trans hwindow
    refine ⟨latest, hlatest, hfilter, ?_, fun x => ?_⟩
    · rw [hfilter]
      exact (inOrder_perm ps).filter _
    · rw [hfilter, List.filter_comm, filter_inOrder hnumbers, List.filter_comm]
  · have hqs : ∀ q ∈ qs, q.x.isFinite = true := fun q hq => hps q (hperm.mem_iff.mp hq)
    rw [Series.pushAll_setBound hb hqs, inOrder_congr hnumbers hperm hdistinct]
    exact hpoints.symm

/-- The window is four seconds wide. The second sample leaves it, the fifth one comes too late for it, and the
fourth one goes behind the first, which stands at the same timestamp. -/
theorem pushes_leave_sorted_window_ties :
    let ps : List Point := [⟨3, 1⟩, ⟨0, 2⟩, ⟨7, 3⟩, ⟨3, 4⟩, ⟨1, 5⟩, ⟨7, 6⟩]
    let s := (Series.empty.setBound (some 4)).pushAll ps
    ValidBound (some 4) ∧ (∀ p ∈ ps, p.x.isFinite = true) ∧
      s.points = [⟨3, 1⟩, ⟨3, 4⟩, ⟨7, 3⟩, ⟨7, 6⟩] ∧
      ∃ latest, IsLatest ps latest ∧
        s.points = (ps.mergeSort fun p q => p.x ≤ q.x).filter (inside (some 4) latest) := by
  intro ps s
  have hb : ValidBound (some 4) := by
    intro b hb
    cases hb
    decide +kernel
  have hps : ∀ p ∈ ps, p.x.isFinite = true := by decide +kernel
  obtain ⟨-, ⟨latest, hlatest, hpoints, -⟩, -⟩ := pushes_leave_sorted_window hb hps
  exact ⟨hb, hps, by decide +kernel, latest, hlatest (by simp [ps]), hpoints⟩

end DerivedSignal
