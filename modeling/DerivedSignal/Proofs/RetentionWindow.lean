import DerivedSignal.Proofs.Eviction
import DerivedSignal.Proofs.Lifecycle
import DerivedSignal.Proofs.OutputNames
import DerivedSignal.Proofs.Timestamps

namespace DerivedSignal

open FloatOrder Transform

/-- The runs of a compiled signal, with registering, pushes to its linked series of samples that are later
than its mark, and updates. The linked series has the same bound throughout, to which it is held already at
the start; the outputs are left alone. -/
inductive WindowRun (d : Definition) (limits : Limits) (bound : Option Float) :
    Transform Session → Registry → Prop
  | compiled {s t} {r : Registry} {points : List Point} :
      compile d (Session.new limits) = (s, .done t) → r.find? d.linked = some ⟨points, bound⟩ →
      FiniteAscending points → Series.evict bound points = points → WindowRun d limits bound t r
  | register {t r} : WindowRun d limits bound t r →
      WindowRun d limits bound (t.register r).1 (t.register r).2
  | push {t r} {p : Point} : WindowRun d limits bound t r → p.x.isFinite = true → t.mark < p.x →
      WindowRun d limits bound t (r.insert d.linked ((r.getD d.linked).push p))
  | elsewhere {t r} (r' : Registry) : WindowRun d limits bound t r →
      r'.find? d.linked = r.find? d.linked → (∀ q ∈ t.outputs, r'.find? q = r.find? q) →
      WindowRun d limits bound t r'
  | updated {t r t' r' n} : WindowRun d limits bound t r → t.update r = (t', r', .done n) →
      WindowRun d limits bound t' r'
  | failed {t r t' r' e} : WindowRun d limits bound t r → t.update r = (t', r', .failed e) →
      WindowRun d limits bound t' r'

/-- A signal that has been given the samples `done`, up to its mark, while `pending` have come since. The
linked series has what the window leaves of all of them, the outputs what it leaves of `done`. -/
structure InWindow (d : Definition) (bound : Option Float) (t : Transform Session) (r : Registry)
    (done pending : List Point) : Prop where
  definition : t.definition = d
  distinct : t.outputs.Nodup
  linked : r.find? d.linked = some ⟨Series.evict bound (done ++ pending), bound⟩
  ascending : FiniteAscending (done ++ pending)
  done_le : ∀ p ∈ done, p.x ≤ t.mark
  mark_lt : ∀ p ∈ pending, t.mark < p.x
  staged : ∀ q ∈ t.staged, q ∈ t.outputs
  replacing : t.replaces = true → done = []
  appending : t.replaces = false →
    t.staged = [] ∧ HoldsTimes t.outputs ⟨Series.evict bound done, bound⟩ r

namespace InWindow

variable {d : Definition} {limits : Limits} {bound : Option Float} {t t' : Transform Session}
  {r r' : Registry} {done pending : List Point}

theorem of_compile {s : Session} {points : List Point}
    (hc : compile d (Session.new limits) = (s, .done t))
    (hl : r.find? d.linked = some ⟨points, bound⟩) (hs : FiniteAscending points)
    (hkept : Series.evict bound points = points) : InWindow d bound t r [] points := by
  have hcompiles := compiles_of_done hc
  exact
    { definition := hcompiles.definition
      distinct := outputs_nodup hcompiles
      linked := by rw [List.nil_append, hkept, hl]
      ascending := hs
      done_le := by simp
      mark_lt := fun p hp => hcompiles.mark ▸ negInfinity_lt_of_isFinite (hs.finite p hp)
      staged := by simp [hcompiles.staged]
      replacing := fun _ => rfl
      appending := fun hr => by rw [hcompiles.replaces] at hr; cases hr }

theorem register (h : InWindow d bound t r done pending) (hb : ValidBound bound)
    (apart : d.linked ∉ t.outputs) :
    InWindow d bound (t.register r).1 (t.register r).2 []
      (Series.evict bound (done ++ pending)) := by
  have hkept := h.ascending.sublist (Series.evict_sublist h.ascending.toAscending bound)
  refine
    { definition := h.definition
      distinct := h.distinct
      linked := ?_
      ascending := hkept
      done_le := by simp
      mark_lt := fun p hp => negInfinity_lt_of_isFinite (hkept.finite p hp)
      staged := staged_register_outputs h.staged r
      replacing := fun _ => rfl
      appending := fun hr => by cases hr }
  rw [List.nil_append, Series.evict_evict hb h.ascending, find?_register, if_neg fun hm => apart hm.1]
  exact h.linked

theorem push (h : InWindow d bound t r done pending) (hb : ValidBound bound)
    (apart : d.linked ∉ t.outputs) {p : Point} (hp : p.x.isFinite = true) (hmark : t.mark < p.x) :
    InWindow d bound t (r.insert d.linked ((r.getD d.linked).push p)) done
      (Series.place p pending) := by
  have hnumber := isNumber_of_isFinite hp
  have hbefore : ∀ q ∈ done, q.x ≤ p.x := fun q hq =>
    FloatOrder.le_of_lt (lt_of_le_of_lt (h.done_le q hq) hmark)
  have hplace : Series.place p (done ++ pending) = done ++ Series.place p pending :=
    Series.place_append h.ascending.toAscending hnumber hbefore
  refine { h with
    linked := ?_
    ascending := hplace ▸ h.ascending.place hp
    mark_lt := fun q hq => ?_
    appending := fun hr => ⟨(h.appending hr).1, (h.appending hr).2.congr fun q hq => ?_⟩ }
  · rw [NameMap.find?_insert, if_pos rfl, Registry.getD_of_find? h.linked, ← hplace,
      ← Series.evict_place hb h.ascending hp]
    rfl
  · rcases (Series.mem_place (ascending_append_right h.ascending.toAscending) hnumber).mp hq with
      rfl | hq
    · exact hmark
    · exact h.mark_lt q hq
  · have hne : d.linked ≠ q := fun he => apart (he ▸ hq)
    rw [NameMap.find?_insert, if_neg hne]

theorem elsewhere (h : InWindow d bound t r done pending) (hin : r'.find? d.linked = r.find? d.linked)
    (hout : ∀ q ∈ t.outputs, r'.find? q = r.find? q) : InWindow d bound t r' done pending :=
  { h with
    linked := hin.trans h.linked
    appending := fun hr => ⟨(h.appending hr).1, (h.appending hr).2.congr hout⟩ }

theorem failed (h : InWindow d bound t r done pending) (apart : d.linked ∉ t.outputs) {e : Error}
    (hu : t.update r = (t', r', .failed e)) : InWindow d bound t' r' done pending := by
  obtain ⟨s, -, rfl, rfl⟩ := of_failed_isPass (hu ▸ isPass_update t r)
  refine { h with
    linked := ?_
    staged := fun q hq => by cases hq
    appending := fun hr => ?_ }
  · rw [Registry.find?_eraseAll, if_neg fun hm => apart (h.staged _ hm)]
    exact h.linked
  · obtain ⟨hstaged, hholds⟩ := h.appending hr
    rw [hstaged]
    exact ⟨rfl, hholds⟩

theorem exists_after (h : InWindow d bound t r done pending) (hb : ValidBound bound) :
    ∃ more, Series.after ⟨Series.evict bound (done ++ pending), bound⟩ t.mark = more ∧
      FiniteAscending (done ++ more) ∧
      Series.evict bound (done ++ more) = Series.evict bound (done ++ pending) := by
  cases hlast : (done ++ pending).getLast? with
  | none =>
    obtain ⟨rfl, rfl⟩ := List.append_eq_nil_iff.mp (List.getLast?_eq_none_iff.mp hlast)
    exact ⟨[], by simp [Series.evict_nil, Series.after], h.ascending, rfl⟩
  | some back =>
    -- The window may have closed over samples before they were evaluated.
    let inside := Series.stays bound back.x
    have hkept : Series.evict bound (done ++ pending) = done.filter inside ++ pending.filter inside := by
      rw [Series.evict_eq_filter h.ascending.toAscending hlast, List.filter_append]
    refine ⟨pending.filter inside, ?_, ?_, Series.evict_append_filter hb h.ascending hlast⟩
    · refine Series.after_eq hkept (fun p hp => ?_) fun p hp => ?_
      · exact h.done_le p (List.mem_filter.mp hp).1
      · exact h.mark_lt p (List.mem_filter.mp hp).1
    · exact h.ascending.sublist ((List.Sublist.refl done).append List.filter_sublist)

theorem written (h : InWindow d bound t r done pending) (hb : ValidBound bound) {more : List Point}
    (hmore : FiniteAscending (done ++ more)) :
    writeOutput t.replaces bound more ⟨Series.evict bound done, bound⟩ =
      ⟨Series.evict bound (done ++ more), bound⟩ := by
  rw [← Series.pushAll_evict hb hmore]
  cases hr : t.replaces with
  | true => rw [h.replacing hr, writeOutput_replacing, Series.evict_nil]
  | false =>
    have hbounded : Series.setBound ⟨Series.evict bound done, bound⟩ bound =
        ⟨Series.evict bound done, bound⟩ := by
      rw [Series.setBound, Series.evict_evict hb hmore.left]
    exact congrArg (Series.pushAll · more) hbounded

theorem le_mark_after (h : InWindow d bound t r done pending) {more : List Point}
    (hmore : FiniteAscending (done ++ more)) :
    ∀ p ∈ done ++ more, p.x ≤ (more.getLast?.map (·.x)).getD
      (if t.replaces then FloatMath.negInfinity else t.mark) := by
  intro p hp
  cases hlast : more.getLast? with
  | none =>
    cases List.getLast?_eq_none_iff.mp hlast
    rw [List.append_nil] at hp
    rw [Option.map_none, Option.getD_none]
    split
    next hr =>
      rw [h.replacing hr] at hp
      cases hp
    next => exact h.done_le p hp
  | some back =>
    have hback : (done ++ more).getLast? = some back := by
      rw [List.getLast?_append, hlast, Option.some_or]
    exact le_of_getLast? hmore.toAscending hback p hp

theorem updated (h : InWindow d bound t r done pending) (hb : ValidBound bound)
    (apart : d.linked ∉ t.outputs) {n : Nat} (hu : t.update r = (t', r', .done n)) :
    ∃ done', InWindow d bound t' r' done' [] ∧ t'.replaces = false ∧
      r'.find? d.linked = r.find? d.linked := by
  obtain ⟨more, hafter, hmore, hevict⟩ := h.exists_after hb
  have hfound : r.find? t.definition.linked = some ⟨Series.evict bound (done ++ pending), bound⟩ := by
    rw [h.definition, h.linked]
  obtain ⟨channels, s, rows, hc, hrows⟩ := evaluateAll_of_update hfound hu
  have hupdate := update_of_evaluateAll hfound hc hrows
  rw [hafter] at hrows
  rw [hu, hafter] at hupdate
  cases hupdate
  obtain ⟨hx, hlen⟩ := rows_of_evaluateAll hrows
  have hkept : (writeOutputs t.replaces ⟨rows, bound⟩ 0 t.outputs r).find? d.linked =
      r.find? d.linked := find?_writeOutputs_of_not_mem apart
  have hholds := holdsTimes_writeOutputs h.distinct
    (fun row hrow => (hlen row hrow).trans t.length_outputs.symm) hx (fun hr => (h.appending hr).2) bound
  rw [h.written hb hmore] at hholds
  exact ⟨done ++ more,
    { definition := h.definition
      distinct := h.distinct
      linked := by rw [hkept, h.linked, List.append_nil, hevict]
      ascending := by rw [List.append_nil]; exact hmore
      done_le := h.le_mark_after hmore
      mark_lt := by simp
      staged := by simp
      replacing := fun hr => by cases hr
      appending := fun _ => ⟨rfl, hholds⟩ }, rfl, hkept⟩

theorem of_run (hb : ValidBound bound) (h : WindowRun d limits bound t r)
    (apart : d.linked ∉ t.outputs) : ∃ done pending, InWindow d bound t r done pending := by
  induction h with
  | compiled hc hl hs hkept => exact ⟨_, _, of_compile hc hl hs hkept⟩
  | register _ ih =>
    obtain ⟨done, pending, h⟩ := ih apart
    exact ⟨_, _, h.register hb apart⟩
  | push _ hp hmark ih =>
    obtain ⟨done, pending, h⟩ := ih apart
    exact ⟨_, _, h.push hb apart hp hmark⟩
  | elsewhere r' _ hin hout ih =>
    obtain ⟨done, pending, h⟩ := ih apart
    exact ⟨_, _, h.elsewhere hin hout⟩
  | @updated t r t' r' n _ hu ih =>
    rw [(sameSignal_of_update hu).outputs] at apart
    obtain ⟨done, pending, h⟩ := ih apart
    obtain ⟨done', h', -, -⟩ := h.updated hb apart hu
    exact ⟨_, _, h'⟩
  | @failed t r t' r' e _ hu ih =>
    rw [(sameSignal_of_update hu).outputs] at apart
    obtain ⟨done, pending, h⟩ := ih apart
    exact ⟨_, _, h.failed apart hu⟩

end InWindow

/-- After a successful update every output has the bound of the linked series and its timestamps, however
the samples were pushed and whenever the linked series dropped some of them. -/
theorem outputs_follow_window {d : Definition} {limits : Limits} {bound : Option Float}
    {t t' : Transform Session} {r r' : Registry} {n : Nat} (hb : ValidBound bound)
    (h : WindowRun d limits bound t r) (apart : d.linked ∉ t.outputs)
    (hu : t.update r = (t', r', .done n)) :
    ∃ linked, r.find? d.linked = some linked ∧ r'.find? d.linked = some linked ∧
      linked.bound = bound ∧ t'.outputs = t.outputs ∧ HoldsTimes t'.outputs linked r' := by
  obtain ⟨done, pending, hwindow⟩ := InWindow.of_run hb h apart
  obtain ⟨done', hwindow', hr, hkept⟩ := hwindow.updated hb apart hu
  have hlinked := hwindow'.linked
  rw [List.append_nil] at hlinked
  exact ⟨_, hkept.symm.trans hlinked, hlinked, rfl, (sameSignal_of_update hu).outputs,
    (hwindow'.appending hr).2⟩

/-- The window is two seconds wide. The first sample leaves it before it can be evaluated, because the first
update fails; the sample at 3 leaves it between two updates, and the next one comes out of order. -/
theorem outputs_follow_window_failure :
    ∃ (t t' : Transform Session) (r r' : Registry) (linked : Series),
      let d : Definition := ⟨"f", "x", "", "[value, $$a$$]"⟩
      WindowRun d {} (some 2) t r ∧ d.linked ∉ t.outputs ∧ t.update r = (t', r', .done 2) ∧
      r'.find? d.linked = some linked ∧ times linked.points = [4.5, 6] ∧
      t'.outputs = ["f.0", "f.1"] ∧ HoldsTimes t'.outputs linked r' := by
  let d : Definition := ⟨"f", "x", "", "[value, $$a$$]"⟩
  let r₀ : Registry := NameMap.empty.insert "x" ⟨[⟨0, 1⟩], some 2⟩
  let pushed (r : Registry) (p : Point) : Registry := r.insert "x" ((r.getD "x").push p)
  let failed (t : Transform Session) := (t.register r₀).1.update (t.register r₀).2
  let ready (t : Transform Session) : Registry := (failed t).2.1.insert "a" ⟨[⟨0, 7⟩], none⟩
  let one (t : Transform Session) := (failed t).1.update (pushed (ready t) ⟨3, 1⟩)
  let late (t : Transform Session) := pushed (pushed (one t).2.1 ⟨6, 1⟩) ⟨4.5, 1⟩
  obtain ⟨s, t, hc, hfailed, hlinked, hothers, hmark, hone, hmark', apart, htwo, houtputs, htimes⟩ :
      ∃ s t, compile d (Session.new {}) = (s, .done t) ∧
        (failed t).2.2 = .failed (.missingChannel "a") ∧
        (ready t).find? "x" = (failed t).2.1.find? "x" ∧
        (∀ q ∈ (failed t).1.outputs, (ready t).find? q = (failed t).2.1.find? q) ∧
        (failed t).1.mark < 3 ∧ (one t).2.2 = .done 1 ∧
        ((one t).1.mark < 6 ∧ (one t).1.mark < 4.5) ∧ "x" ∉ (one t).1.outputs ∧
        ((one t).1.update (late t)).2.2 = .done 2 ∧ ((one t).1.update (late t)).1.outputs = ["f.0", "f.1"] ∧
        times (((one t).1.update (late t)).2.1.getD "x").points = [4.5, 6] :=
    exists_compile_of_any (by decide +kernel)
  have hb : ValidBound (some 2) := fun b hb => by
    cases hb
    decide +kernel
  have hstart : WindowRun d {} (some 2) t r₀ :=
    .compiled hc (show r₀.find? "x" = some ⟨[⟨0, 1⟩], some 2⟩ from rfl) (by decide +kernel)
      (by decide +kernel)
  have hready := (hstart.register.failed (eq_of_outcome hfailed)).elsewhere (ready t) hlinked hothers
  have hpushed : WindowRun d {} (some 2) (failed t).1 (pushed (ready t) ⟨3, 1⟩) :=
    hready.push (by decide +kernel) hmark
  have hupdated : WindowRun d {} (some 2) (one t).1 (one t).2.1 := hpushed.updated (eq_of_outcome hone)
  have hnext : WindowRun d {} (some 2) (one t).1 (pushed (one t).2.1 ⟨6, 1⟩) :=
    hupdated.push (by decide +kernel) hmark'.1
  have hrun : WindowRun d {} (some 2) (one t).1 (late t) := hnext.push (by decide +kernel) hmark'.2
  have hupdate := eq_of_outcome htwo
  obtain ⟨linked, -, hl, -, -, hholds⟩ := outputs_follow_window hb hrun apart hupdate
  have hpoints : times linked.points = [4.5, 6] := by
    rw [← htimes, ← Registry.getD_of_find? hl]
  exact ⟨_, _, _, _, linked, hrun, apart, hupdate, hl, hpoints, houtputs, hholds⟩

end DerivedSignal
