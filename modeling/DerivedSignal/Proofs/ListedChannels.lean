import DerivedSignal.Proofs.Restart
import DerivedSignal.Proofs.SlotAssignment

namespace DerivedSignal

open Transform

theorem find?_eraseDups {α : Type} [BEq α] [LawfulBEq α] (p : α → Bool) (xs : List α) :
    xs.eraseDups.find? p = xs.find? p := by
  induction hn : xs.length using Nat.strong_induction_on generalizing xs with
  | _ n ih =>
    cases xs with
    | nil => rfl
    | cons x xs =>
      have hlength := List.length_filter_le (fun y => !y == x) xs
      simp only [List.length_cons] at hn
      rw [List.eraseDups_cons]
      cases hx : p x with
      | true => rw [List.find?_cons_of_pos hx, List.find?_cons_of_pos hx]
      | false =>
        -- what is dropped later is what has been passed over here
        have hother : (fun y => decide ((!y == x) = true ∧ p y = true)) = p := by
          funext y
          by_cases hy : y = x <;> simp [hy, hx]
        rw [List.find?_cons_of_neg (by simp [hx]), List.find?_cons_of_neg (by simp [hx]),
          ih _ (by omega) _ rfl, List.find?_filter, hother]

namespace Alignment

/-- Resolving channels fails on the first that a registry does not hold. -/
theorem resolve_eq_error {r : Registry} {names : List String} {e : Error} :
    resolve r names = .error e ↔
      ∃ name, e = .missingChannel name ∧ names.find? (fun q => !r.contains q) = some name := by
  induction names with
  | nil => simp [resolve]
  | cons name names ih =>
    unfold resolve
    split
    next hnone =>
      have hcontains := (Registry.contains_eq_false_iff r name).mpr hnone
      simp [hcontains, eq_comm]
    next s hsome =>
      have hcontains := (Registry.contains_eq_true_iff r name).mpr ⟨s, hsome⟩
      rw [List.find?_cons_of_neg (by simp [hcontains]), ← ih]
      cases resolve r names <;> simp [Except.map]

end Alignment

namespace Transform

variable {t : Transform Session} {r : Registry} {name : String}

theorem contains_of_find? {names : List String} (h : names.find? (fun q => !r.contains q) = some name) :
    r.contains name = false := by
  have habsent := List.find?_eq_some_iff_append.mp h
  simpa using habsent.1

theorem finish_eq_failed {s : Session} {replace : Bool} {found : Attempt (Option Pass)} {e : Error} :
    ({ t with evaluator := s }.finish r replace found).2.2 = .failed e ↔ found = .failed e := by
  cases found with
  | abort why => simp [finish]
  | failed e' => simp [finish]
  | done p => cases p <;> simp [finish]

/-- An evaluation comes upon a missing channel before it calls the script, which has no such error. -/
theorem evaluate_eq_missing (hl : r.contains t.definition.linked = true) (mark : Float) (s : Session) :
    (t.evaluate r mark s).2 = .failed (.missingChannel name) ↔
      t.slotted.channels.find? (fun q => !r.contains q) = some name := by
  obtain ⟨linked, hl⟩ := (Registry.contains_eq_true_iff r t.definition.linked).mp hl
  cases hc : Alignment.resolve r t.slotted.channels with
  | error e =>
    rw [evaluate_of_unresolved hl hc]
    obtain ⟨missing, rfl, hmissing⟩ := Alignment.resolve_eq_error.mp hc
    simp [hmissing]
  | ok channels =>
    have hpresent : t.slotted.channels.find? (fun q => !r.contains q) ≠ some name := fun hmissing => by
      rw [Alignment.resolve_eq_error.mpr ⟨name, rfl, hmissing⟩] at hc
      cases hc
    rw [evaluate_of_found hl hc]
    refine iff_of_false (fun hfailed => ?_) hpresent
    cases hr : (t.evaluateAll channels s (linked.after mark)).2 with
    | abort why => simp [hr, Attempt.map] at hfailed
    | done rows => simp [hr, Attempt.map] at hfailed
    | failed e =>
      simp only [hr, Attempt.map, Attempt.failed.injEq] at hfailed
      subst hfailed
      rcases Session.error_of_evaluateAll (Prod.ext rfl hr) with ⟨message, h⟩ | ⟨x, actual, h⟩ <;> cases h

theorem update_eq_missing (hl : r.contains t.definition.linked = true) :
    (t.update r).2.2 = .failed (.missingChannel name) ↔
      t.slotted.channels.find? (fun q => !r.contains q) = some name :=
  finish_eq_failed.trans (evaluate_eq_missing hl _ _)

end Transform

namespace Lifecycle

variable {d : Definition} {start : Session} {outside : Registry → Registry → Prop} {t : Transform Session}
  {r₀ r : Registry} {created : List String} {name : String}

theorem exists_compile (h : Lifecycle d start outside t r₀ created) :
    ∃ s fresh, compile d start = (s, .done fresh) := by
  induction h with
  | compiled r hc => exact ⟨_, _, hc⟩
  | elsewhere _ _ ih => exact ih
  | register _ ih => exact ih
  | update _ _ _ ih => exact ih
  | rebuild _ _ _ ih => exact ih

/-- The preamble has run before, so that a rebuild gets to the channels as an update does. -/
theorem rebuild_eq_missing (h : Lifecycle d start outside t r₀ created)
    (hl : r.contains t.definition.linked = true) :
    (t.rebuild r).2.2 = .failed (.missingChannel name) ↔
      t.slotted.channels.find? (fun q => !r.contains q) = some name := by
  obtain ⟨s, fresh, hc⟩ := h.exists_compile
  have hreset := h.reset_eq hc (u := t.evaluator.checkpoint) ⟨rfl, rfl, rfl⟩
  obtain ⟨linked, hfound⟩ := (Registry.contains_eq_true_iff r t.definition.linked).mp hl
  rw [rebuild_of_reset hfound hreset]
  exact finish_eq_failed.trans (evaluate_eq_missing hl _ _)

/-- With the linked series in place, the first channel that a pass misses is the first listed one that is not
there. -/
theorem find?_missing (h : Lifecycle d start outside t r₀ created) (hl : r.contains d.linked = true) :
    r.contains t.definition.linked = true ∧
      t.slotted.channels.find? (fun q => !r.contains q) =
        (Template.channelsIn d.expression).find? fun q => !r.contains q := by
  obtain ⟨s, fresh, hc⟩ := h.exists_compile
  have hcompiles := compiles_of_done hc
  have hsame := h.sameSignal hc
  have hother : (fun q => decide (decide (q ≠ d.linked) = true ∧ (!r.contains q) = true)) =
      fun q => !r.contains q := by
    funext q
    by_cases hq : q = d.linked <;> simp [hq, hl]
  rw [hsame.definition, hcompiles.definition, hsame.slotted,
    Template.channels_of_assignSlots hcompiles.slots, find?_eraseDups, List.find?_filter, hother]
  exact ⟨hl, rfl⟩

end Lifecycle

/-- The listed channels are the references of an expression in order, and the slots are those without the linked
series and without repetitions. Nothing is listed for an expression that has no slots. Once a definition has
compiled, the list foretells how a pass ends over a registry that has the linked series: nothing is reported as
missing if every listed channel is there, and otherwise one is that is listed and not there. -/
theorem listed_channels_foretell_missing :
    (∀ expression linked slotted, Template.assignSlots expression linked = .ok slotted →
      slotted.channels = ((Template.channelsIn expression).filter (· ≠ linked)).eraseDups ∧
      ∃ segments, Template.Canonical segments ∧
        segments.flatMap Template.Segment.written = expression.toList ∧
        Template.channelsIn expression = Template.channelNames segments) ∧
    (∀ expression linked e, Template.assignSlots expression linked = .error e →
      Template.channelsIn expression = []) ∧
    ∀ d limits outside t r created, Lifecycle d (Session.new limits) outside t r created →
      r.contains d.linked = true →
      ((∀ q ∈ Template.channelsIn d.expression, r.contains q = true) → ∀ name,
        (t.update r).2.2 ≠ .failed (.missingChannel name) ∧
        (t.rebuild r).2.2 ≠ .failed (.missingChannel name)) ∧
      ∀ q ∈ Template.channelsIn d.expression, r.contains q = false →
        ∃ name ∈ Template.channelsIn d.expression, r.contains name = false ∧
          (t.update r).2.2 = .failed (.missingChannel name) ∧
          (t.rebuild r).2.2 = .failed (.missingChannel name) := by
  refine ⟨fun expression linked slotted hslots => ?_, fun expression linked e hslots => ?_,
    fun d limits outside t r created h hl => ?_⟩
  · obtain ⟨segments, hscan, -⟩ := Template.pieces_of_assignSlots hslots
    obtain ⟨hcanonical, hwritten⟩ := Template.scan_eq_some_iff.mp hscan
    refine ⟨Template.channels_of_assignSlots hslots, segments, hcanonical, hwritten, ?_⟩
    rw [Template.channelsIn, hscan]
  · unfold Template.assignSlots at hslots
    split at hslots
    next => cases hslots
    next hscan => rw [Template.channelsIn, hscan]
  · obtain ⟨hlinked, hmissing⟩ := h.find?_missing hl
    have hupdate (name) : (t.update r).2.2 = .failed (.missingChannel name) ↔
        (Template.channelsIn d.expression).find? (fun q => !r.contains q) = some name :=
      hmissing ▸ update_eq_missing hlinked
    have hrebuild (name) : (t.rebuild r).2.2 = .failed (.missingChannel name) ↔
        (Template.channelsIn d.expression).find? (fun q => !r.contains q) = some name :=
      hmissing ▸ h.rebuild_eq_missing hlinked
    constructor
    · intro hall name
      have hnone : (Template.channelsIn d.expression).find? (fun q => !r.contains q) ≠ some name := by
        intro hfound
        have habsent := contains_of_find? hfound
        rw [hall name (List.mem_of_find?_eq_some hfound)] at habsent
        cases habsent
      exact ⟨mt (hupdate name).mp hnone, mt (hrebuild name).mp hnone⟩
    · intro q hq hcontains
      have hsome : ((Template.channelsIn d.expression).find? fun q => !r.contains q).isSome = true := by
        rw [List.find?_isSome]
        exact ⟨q, hq, by rw [hcontains, Bool.not_false]⟩
      obtain ⟨name, hname⟩ := Option.isSome_iff_exists.mp hsome
      exact ⟨name, List.mem_of_find?_eq_some hname, contains_of_find? hname, (hupdate name).mpr hname,
        (hrebuild name).mpr hname⟩

/-- Two of three channels are not there, then all are. The linked series is among the references, and one of them
is repeated. -/
theorem listed_channels_foretell_missing_two :
    let d : Definition := ⟨"f", "x", "", "$$b$$ + $$x$$ + $$a$$ + $$b$$ + $$c$$"⟩
    let r : Registry := (NameMap.empty.insert "b" Series.empty).insert "x" ⟨[⟨0, 1⟩], none⟩
    let r' := (r.insert "a" Series.empty).insert "c" Series.empty
    ["b", "a", "c"] = ((Template.channelsIn d.expression).filter (· ≠ "x")).eraseDups ∧
    Template.channelsIn (d.expression ++ "$$") = [] ∧
    ∃ t : Transform Session, Lifecycle d (Session.new {}) (fun _ _ => True) t r [] ∧
      Lifecycle d (Session.new {}) (fun _ _ => True) t r' [] ∧
      (∃ name, (t.update r).2.2 = .failed (.missingChannel name) ∧
        (t.rebuild r).2.2 = .failed (.missingChannel name)) ∧
      ∀ name, (t.update r').2.2 ≠ .failed (.missingChannel name) ∧
        (t.rebuild r').2.2 ≠ .failed (.missingChannel name) := by
  intro d r r'
  obtain ⟨hlisted, hnothing, hforetold⟩ := listed_channels_foretell_missing
  have hslots : Template.assignSlots d.expression d.linked = .ok
      ⟨"CHANNEL_VALUES[0] + value + CHANNEL_VALUES[1] + CHANNEL_VALUES[0] + CHANNEL_VALUES[2]",
        ["b", "a", "c"]⟩ := by decide +kernel
  have hopen : Template.assignSlots (d.expression ++ "$$") d.linked =
      .error (.malformed "invalid use of $$ macro") := by decide +kernel
  obtain ⟨s, t, hc, -⟩ : ∃ s t, Transform.compile d (Session.new {}) = (s, .done t) ∧ True :=
    exists_compile_of_any (by decide +kernel)
  have hlife : Lifecycle d (Session.new {}) (fun _ _ => True) t r [] := .compiled r hc
  have hlife' : Lifecycle d (Session.new {}) (fun _ _ => True) t r' [] := hlife.elsewhere trivial
  obtain ⟨-, hmissing⟩ := hforetold d {} _ t r [] hlife (by decide +kernel)
  obtain ⟨hpresent, -⟩ := hforetold d {} _ t r' [] hlife' (by decide +kernel)
  obtain ⟨name, -, -, hfails⟩ := hmissing "c" (by decide +kernel) (by decide +kernel)
  exact ⟨(hlisted _ _ _ hslots).1, hnothing _ _ _ hopen, t, hlife, hlife', ⟨name, hfails⟩,
    hpresent (by decide +kernel)⟩

end DerivedSignal
