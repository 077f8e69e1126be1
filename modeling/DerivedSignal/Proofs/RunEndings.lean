import DerivedSignal.Proofs.HostDomain
import DerivedSignal.Proofs.ScopeKeeping

namespace DerivedSignal

namespace Script

/-- How a computation can end from a machine: with a scope that relates to the one before by `R`, with a
value that satisfies `Q` if it has one, and outside the domain of a function only if that is one of `N`. -/
structure Ends {α : Type} (N : String → Prop) (R : List Slot → List Slot → Prop) (Q : α → Prop)
    (r : Run α) (m : Machine) : Prop where
  scope : R m.scope (r m).2.scope
  value : ∀ a, (r m).1 = .ok a → Q a
  abort : ∀ f arguments, (r m).1 = .error (.abort f arguments) →
    N f ∧ Builtin.call? f arguments = some .abort

/-- A computation that leaves the scope as it is and is never outside the domain of a function. -/
abbrev Quiet {α : Type} (Q : α → Prop) (r : Run α) (m : Machine) : Prop :=
  Ends (fun _ => False) Eq Q r m

namespace Ends

variable {α β : Type} {N : String → Prop} {R : List Slot → List Slot → Prop} {Q : α → Prop}
  {P : β → Prop} {r : Run α} {k : α → Run β} {m : Machine}

theorem bind_of_ok {m' : Machine} {a : α} (h : r m = (.ok a, m')) : (r >>= k) m = k a m' := by
  change (ExceptT.bind r k) m = _
  simp only [ExceptT.bind, ExceptT.mk, Bind.bind, StateT.bind, h, ExceptT.bindCont]

theorem bind_of_error {m' : Machine} {e : Interrupt} (h : r m = (.error e, m')) :
    (r >>= k) m = (.error e, m') := by
  change (ExceptT.bind r k) m = _
  simp only [ExceptT.bind, ExceptT.mk, Bind.bind, StateT.bind, h, ExceptT.bindCont]
  rfl

/-- One computation after another: the second one starts where the first one ends. -/
theorem comp {S T : List Slot → List Slot → Prop} (h : Ends N S Q r m) (hS : ∀ l, S m.scope l → R m.scope l)
    (hT : ∀ l l', S m.scope l → T l l' → R m.scope l')
    (hk : ∀ a m', S m.scope m'.scope → Q a → Ends N T P (k a) m') : Ends N R P (r >>= k) m := by
  obtain ⟨hscope, hvalue, habort⟩ := h
  rcases hr : r m with ⟨e | a, m'⟩ <;> simp only [hr] at hscope hvalue habort
  · have hends := bind_of_error (k := k) hr
    exact ⟨by rw [hends]; exact hS _ hscope, by simp [hends], by simpa [hends] using habort⟩
  · have hnext := hk a m' hscope (hvalue a rfl)
    refine ⟨?_, ?_, ?_⟩ <;> rw [bind_of_ok hr]
    · exact hT _ _ hscope hnext.scope
    · exact hnext.value
    · exact hnext.abort

theorem bind [IsPreorder _ R] (h : Ends N R Q r m)
    (hk : ∀ a m', R m.scope m'.scope → Q a → Ends N R P (k a) m') : Ends N R P (r >>= k) m :=
  h.comp (fun _ hR => hR) (fun _ _ => trans_of R) hk

theorem mono {N' : String → Prop} {R' : List Slot → List Slot → Prop} {Q' : α → Prop}
    (h : Ends N R Q r m) (hN : ∀ f, N f → N' f) (hR : ∀ l, R m.scope l → R' m.scope l)
    (hQ : ∀ a, Q a → Q' a) : Ends N' R' Q' r m where
  scope := hR _ h.scope
  value a ha := hQ a (h.value a ha)
  abort f arguments hf := (h.abort f arguments hf).imp (hN f) id

theorem any (h : Ends N R Q r m) : Ends N R (fun _ => True) r m :=
  h.mono (fun _ hf => hf) (fun _ hR => hR) fun _ _ => trivial

theorem quiet [IsPreorder _ R] (h : Quiet Q r m) : Ends N R Q r m :=
  h.mono (fun _ => False.elim) (fun _ hl => hl ▸ refl_of R _) fun _ hQ => hQ

/-- After a quiet computation another one starts with the same scope. -/
theorem after [IsPreorder _ R] (h : Quiet Q r m)
    (hk : ∀ a m', m'.scope = m.scope → Q a → Ends N R P (k a) m') : Ends N R P (r >>= k) m :=
  (h.mono (fun _ => False.elim) (fun _ hl => hl) fun _ hQ => hQ).comp (fun _ hl => hl ▸ refl_of R _)
    (fun _ _ hl hR => hl ▸ hR) fun a m' hm hQ => hk a m' hm.symm hQ

theorem pure [IsPreorder _ R] {a : α} (h : Q a) : Ends N R Q (Pure.pure a : Run α) m where
  scope := refl_of R _
  value _ ha := by
    cases ha
    exact h
  abort _ _ hf := by cases hf

theorem throw [IsPreorder _ R] {e : Interrupt}
    (h : ∀ f arguments, e = .abort f arguments → N f ∧ Builtin.call? f arguments = some .abort) :
    Ends N R Q (MonadExcept.throw e : Run α) m where
  scope := refl_of R _
  value _ ha := by cases ha
  abort f arguments hf := by
    cases hf
    exact h f arguments rfl

theorem fail [IsPreorder _ R] (f : Fault) (p : Position) : Ends N R Q (Script.fail f p : Run α) m :=
  throw fun _ _ h => by cases h

theorem fail_bind [IsPreorder _ R] (f : Fault) (p : Position) : Ends N R P (Script.fail f p >>= k) m :=
  bind (Q := fun _ => False) (fail f p) fun _ _ _ h => h.elim

end Ends

section Quiet

variable (c : Setting) (p : Position) (m : Machine)

theorem quiet_get : Quiet (· = m) (get : Run Machine) m where
  scope := rfl
  value a ha := by
    cases ha
    rfl
  abort _ _ hf := by cases hf

theorem quiet_tick : Quiet (fun _ => True) (tick c p) m := by
  refine (quiet_get m).after fun a m' hm ha => ?_
  have hset : Quiet (fun _ => True) (set { a with steps := a.steps + 1 } : Run PUnit) m' :=
    ⟨by rw [hm, ← ha]; rfl, fun _ _ => trivial, fun _ _ hf => by (cases hf)⟩
  refine hset.after fun _ _ _ _ => ?_
  split
  · exact .fail _ _
  · exact .pure trivial

theorem quiet_checkExtent (e : Value.Extent) : Quiet (fun _ => True) (checkExtent c e p) m := by
  unfold checkExtent
  split_ifs
  · exact .fail _ _
  · exact .fail _ _
  · exact .fail _ _
  · exact .pure trivial

theorem quiet_checkSize (v : Value) : Quiet (fun _ => True) (checkSize c v p) m :=
  quiet_checkExtent c p m v.extent

theorem newest_of_findIdx? {name : String} {scope : List Slot} {i : Nat}
    (h : scope.findIdx? (fun s => s.name == name) = some i) : Newest (scope.map Slot.label) i := by
  obtain ⟨hi, hname, hothers⟩ := List.findIdx?_eq_some_iff_getElem.mp h
  intro l hl k hk
  simp only [List.getElem?_map, List.getElem?_eq_getElem hi, Option.map_some, Option.some.injEq] at hl
  obtain ⟨j, hj, rfl⟩ := List.mem_take_iff_getElem.mp hk
  subst hl
  have hother := hothers j (by omega)
  simp only [beq_iff_eq] at hname hother
  simp [Slot.label, hname, hother]

theorem quiet_slotOf (name : String) :
    Quiet (Newest (m.scope.map Slot.label)) (slotOf name p) m := by
  refine (quiet_get m).after fun a m' hm ha => ?_
  subst ha
  split
  next i hi => exact .pure (newest_of_findIdx? hi)
  next => exact .fail _ _

theorem quiet_readSlot (i : Nat) : Quiet (· = (m.scope[i]?).getD default) (readSlot i) m := by
  refine (quiet_get m).after fun a m' hm ha => ?_
  subst ha
  exact .pure rfl

theorem quiet_combine (operator : Option String) (old new : Value) :
    Quiet (fun _ => True) (combine operator old new p) m := by
  unfold combine
  split
  next => exact .pure trivial
  next operator =>
    split
    next => exact .pure trivial
    next => exact .pure trivial
    next => exact .fail _ _
    next h => exact absurd h (Builtin.assign?_ne_abort operator old new)
    next => exact .fail _ _

end Quiet

/-- A computation that changes no variable but by giving it a new value. -/
abbrev Steady {α : Type} (N : String → Prop) (r : Run α) (m : Machine) : Prop :=
  Ends N Keeps (fun _ => True) r m

/-- A computation that stays above the `base` oldest variables, but for new values. -/
abbrev Confined {α : Type} (N : String → Prop) (base : Nat) (r : Run α) (m : Machine) : Prop :=
  Ends N (Below base) (fun _ => True) r m

theorem Ends.confined {α : Type} {N : String → Prop} {Q : α → Prop} {r : Run α} {m : Machine}
    (h : Ends N Keeps Q r m) (base : Nat) : Ends N (Below base) Q r m :=
  h.mono (fun _ hf => hf) (fun _ hkeeps => hkeeps.below base) fun _ hQ => hQ

namespace Target

/-- The variable of a target, if it has one, satisfies `P`. -/
def Rooted (P : Nat → Prop) : Target → Prop
  | part i _ => P i
  | loose _ => True

theorem Rooted.imp {P P' : Nat → Prop} {t : Target} (h : t.Rooted P) (hP : ∀ i, P i → P' i) :
    t.Rooted P' := by
  cases t with
  | part i path => exact hP i h
  | loose v => trivial

theorem Rooted.enter {P : Nat → Prop} {t : Target} (h : t.Rooted P) (k : Key) (v : Value) :
    (t.enter k v).Rooted P := by
  cases t with
  | part i path => exact h
  | loose v => trivial

/-- A target that can be changed: its variable is neither a constant nor hidden. -/
abbrev Writable (scope : List Slot) (t : Target) : Prop :=
  t.Rooted fun i => ¬ Fixed (scope.map Slot.label) i

/-- A target in a variable that is not hidden. -/
abbrev Visible (scope : List Slot) (t : Target) : Prop := t.Rooted (Newest (scope.map Slot.label))

end Target

theorem not_fixed_of_newest {scope : List Slot} {i : Nat} (h : Newest (scope.map Slot.label) i)
    (hconstant : ((scope[i]?).getD default).constant = false) : ¬ Fixed (scope.map Slot.label) i := by
  rintro ⟨l, hl, hfixed⟩
  rcases hfixed with hfixed | ⟨k, hk, hname⟩
  · rw [List.getElem?_map] at hl
    cases hs : scope[i]? with
    | none => simp [hs] at hl
    | some s =>
      rw [hs] at hl hconstant
      cases hl
      exact absurd hfixed (by simpa [Slot.label] using hconstant)
  · exact h l hl k hk hname

theorem newest_of_not_fixed {labels : List (String × Bool)} {i : Nat} (h : ¬ Fixed labels i) :
    Newest labels i :=
  fun l hl k hk hname => h ⟨l, hl, .inr ⟨k, hk, hname⟩⟩

section Targets

variable {N : String → Prop} (t : Target) (p : Position) (m : Machine)

theorem quiet_read : Quiet (fun _ => True) t.read m := by
  cases t with
  | part i path => exact (quiet_readSlot m i).after fun _ _ _ _ => .pure trivial
  | loose v => exact .pure trivial

theorem quiet_isConstant {scope : List Slot} (hscope : m.scope = scope) (h : t.Visible scope) :
    Quiet (fun b => b = false → t.Writable scope) t.isConstant m := by
  subst hscope
  cases t with
  | part i path =>
    refine (quiet_readSlot m i).after fun s m' hm hs => .pure fun hconstant => ?_
    subst hs
    exact not_fixed_of_newest h hconstant
  | loose v => exact .pure fun _ => trivial

/-- Every part of a target is in the same variable. -/
theorem quiet_enterIndex (key : Value) (bracket : Position) {P : Nat → Prop} (h : t.Rooted P) :
    Quiet (Target.Rooted P) (enterIndex t key p bracket) m := by
  refine (quiet_read t m).after fun v m' hm _ => ?_
  split
  next =>
    split
    next => exact .pure (h.enter _ _)
    next => exact .fail _ _
  next =>
    split
    next => exact .pure (h.enter _ _)
    next => exact .pure trivial
  next =>
    split
    next => exact .pure trivial
    next => exact .fail _ _
  next =>
    split
    next => exact .pure trivial
    next => exact .fail _ _
  all_goals exact .fail _ _

theorem quiet_enterProperty (name : String) {P : Nat → Prop} (h : t.Rooted P) :
    Quiet (Target.Rooted P) (enterProperty t name p) m := by
  refine (quiet_read t m).after fun v m' hm _ => ?_
  split
  next =>
    split
    next => exact .pure (h.enter _ _)
    next => exact .pure trivial
  next =>
    split
    next => exact .pure trivial
    next => exact .fail _ _
  next =>
    split
    next => exact .pure trivial
    next => exact .fail _ _
  next => exact .fail _ _

theorem steady_writeSlot {i : Nat} (h : ¬ Fixed (m.scope.map Slot.label) i) (v : Value) :
    Steady N (writeSlot i v) m where
  scope := keeps_modify h v
  value _ _ := trivial
  abort _ _ hf := by cases hf

theorem steady_write (h : t.Writable m.scope) (v : Value) : Steady N (t.write v) m := by
  cases t with
  | part i path =>
    refine (quiet_readSlot m i).after fun s m' hm _ => ?_
    exact steady_writeSlot m' (by rw [hm]; exact h) _
  | loose v => exact .pure trivial

theorem Keeps.writable {before after : List Slot} (h : Keeps before after) {t : Target}
    (ht : t.Writable before) : t.Writable after := by
  rwa [Target.Writable, h.labels]

theorem Keeps.visible {before after : List Slot} (h : Keeps before after) {t : Target}
    (ht : t.Visible before) : t.Visible after := by
  rwa [Target.Visible, h.labels]

variable (c : Setting)

theorem steady_assignPart (operator : Option String) {t : Target} (h : t.Writable m.scope) (k : Key)
    (old : Option Value) (new : Value) : Steady N (assignPart c operator t k old new p) m := by
  have hrest : ∀ m' : Machine, t.Writable m'.scope → Steady N (do
      let v ← combine operator (old.getD .unit) new p
      (t.enter k (old.getD .unit)).write v
      if operator.isSome then checkSize c v p else checkSize c (← t.read) p) m' := by
    intro m' h'
    refine (quiet_combine p m' operator _ new).after fun v m'' hm _ => ?_
    have hwritable : t.Writable m''.scope := by rwa [hm]
    refine (steady_write _ m'' (hwritable.enter k _) v).bind fun _ m₃ hkeeps _ => ?_
    split
    · exact (quiet_checkSize c p m₃ v).quiet
    · exact (quiet_read t m₃).after fun _ m₄ _ _ => (quiet_checkSize c p m₄ _).quiet
  unfold assignPart
  dsimp only
  split
  next =>
    exact (steady_write _ m (h.enter k _) .unit).bind fun _ m' hkeeps _ => hrest m' (hkeeps.writable h)
  next => exact hrest m h

theorem steady_assignStep (operator : Option String) {t : Target} (h : t.Writable m.scope) (s : Step)
    (new : Value) : Steady N (assignStep c operator t s new p) m := by
  refine (quiet_read t m).after fun container m' hm _ => ?_
  have h : t.Writable m'.scope := by rwa [hm]
  split
  next =>
    split
    next => exact steady_assignPart p m' c operator h _ _ new
    next => exact .fail _ _
  next => exact steady_assignPart p m' c operator h _ _ new
  next =>
    split
    next =>
      refine (quiet_combine p m' operator _ new).after fun v m'' hm' _ => ?_
      split
      next => exact steady_write t m'' (by rwa [hm']) _
      next => exact .fail _ _
    next => exact .fail _ _
  next =>
    split
    next =>
      refine (quiet_combine p m' operator _ new).after fun v m'' hm' _ => ?_
      split
      next => exact steady_write t m'' (by rwa [hm']) _
      next => exact .fail _ _
    next => exact .fail _ _
  next => exact .fail _ _
  next => exact .fail _ _
  next => exact .fail _ _
  next => exact .fail _ _
  next => exact .fail _ _
  next => exact steady_assignPart p m' c operator h _ _ new
  next =>
    split
    next => exact .fail _ _
    next => exact .fail _ _
  next => exact .pure trivial

theorem steady_callBuiltin {name : String} (hname : N name) (arguments : List Value) {first : Option Target}
    (h : ∀ t ∈ first, t.Visible m.scope) : Steady N (callBuiltin c name arguments first p) m := by
  unfold callBuiltin
  split
  next => exact .fail _ _
  next => exact .fail _ _
  next hcall =>
    refine .throw fun f xs hf => ?_
    cases hf
    exact ⟨hname, hcall⟩
  next => exact (quiet_checkSize c p m _).after fun _ _ _ _ => .pure trivial
  next => exact (quiet_checkSize c p m _).after fun _ _ _ _ => .pure trivial
  next t _ =>
    refine (quiet_read t m).after fun _ m' _ _ => ?_
    refine (quiet_checkSize c p m' _).after fun _ m'' _ _ => ?_
    exact (quiet_checkSize c p m'' _).after fun _ _ _ _ => .pure trivial
  next v new t _ =>
    refine (quiet_isConstant t m rfl (h t rfl)).after fun constant m' hm hwritable => ?_
    split
    next => exact .fail_bind _ _
    next hvariable =>
      have hwritable : t.Writable m'.scope := by
        rw [hm]
        exact hwritable (by simpa using hvariable)
      refine (steady_write t m' hwritable new).bind fun _ m₂ _ _ => ?_
      refine (quiet_checkSize c p m₂ _).after fun _ m₃ _ _ => ?_
      exact (quiet_checkSize c p m₃ _).after fun _ _ _ _ => .pure trivial

end Targets

section Blocks

variable {N : String → Prop} {m : Machine}

theorem confined_pushSlot (base : Nat) (s : Slot) (m : Machine) : Confined N base (pushSlot s) m where
  scope := below_cons s m.scope
  value _ _ := trivial
  abort _ _ hf := by cases hf

theorem modify_apply (f : Machine → Machine) (m : Machine) : (modify f : Run Unit) m = (.ok (), f m) :=
  rfl

theorem confined_declare (base : Nat) (s : Slot) (m : Machine) : Confined N base (declare base s) m where
  scope := by
    rw [declare, modify_apply]
    split
    next i hi =>
      obtain ⟨hi, -⟩ := List.findIdx?_eq_some_iff_getElem.mp hi
      exact below_set (by rw [List.length_take] at hi; omega) s
    next => exact below_cons s m.scope
  value _ _ := trivial
  abort _ _ hf := by cases hf

/-- The variables of a block go with it. -/
theorem steady_within {α : Type} {r : Run α} (h : Confined N m.scope.length r m) : Steady N (within r) m where
  scope := h.scope.keeps
  value _ _ := trivial
  abort := h.abort

/-- A computation on a scope of its own leaves the other one as it is. -/
theorem steady_apart {α : Type} {r : Run α} {scope : List Slot} {base : Nat}
    (h : Confined N base r { m with scope }) : Steady N (apart scope r) m where
  scope := Keeps.refl _
  value _ _ := trivial
  abort := h.abort

theorem steady_called {r : Run Value} (h : Steady N r m) (name : String) (p : Position) :
    Steady N (called name p r) m := by
  obtain ⟨hscope, -, habort⟩ := h
  refine ⟨?_, fun _ _ => trivial, ?_⟩ <;> unfold called <;> split <;> simp_all

theorem steady_once {r : Run Value} (h : Steady N r m) : Steady N (once r) m := by
  obtain ⟨hscope, -, habort⟩ := h
  refine ⟨?_, fun _ _ => trivial, ?_⟩ <;> unfold once <;> split <;> simp_all

theorem steady_handling {r : Run Value} (h : Steady N r m) (f : Failure) : Steady N (handling f r) m := by
  obtain ⟨hscope, -, habort⟩ := h
  refine ⟨?_, fun _ _ => trivial, ?_⟩ <;> unfold handling <;> split <;> simp_all

theorem steady_rescue {r : Run Value} {handler : Failure → Run Value} (h : Steady N r m)
    (hhandler : ∀ f m', Steady N (handler f) m') : Steady N (rescue r handler) m := by
  obtain ⟨hscope, -, habort⟩ := h
  refine ⟨?_, fun _ _ => trivial, ?_⟩ <;> unfold rescue <;> split
  next f m' hr =>
    rw [hr] at hscope
    split
    next => exact hscope
    next => exact hscope.trans (hhandler f m').scope
  next => exact hscope
  next f m' hr =>
    split
    next => exact fun _ _ hf => by cases hf
    next => exact (hhandler f m').abort
  next => exact habort

end Blocks

end Script

end DerivedSignal
