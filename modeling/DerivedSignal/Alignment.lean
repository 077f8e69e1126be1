import DerivedSignal.Error
import DerivedSignal.Registry

namespace DerivedSignal

namespace Alignment

/-- The series of the named channels, or the first name that has none. -/
def resolve (r : Registry) : List String → Except Error (List Series)
  | [] => .ok []
  | name :: names =>
    match r.find? name with
    | none => .error (.missingChannel name)
    | some s => (resolve r names).map (s :: ·)

theorem length_of_resolve {r : Registry} {names : List String} {channels : List Series}
    (h : resolve r names = .ok channels) : channels.length = names.length := by
  induction names generalizing channels with
  | nil =>
    cases h
    rfl
  | cons name names ih =>
    unfold resolve at h
    split at h
    next => cases h
    next =>
      cases hr : resolve r names with
      | error e => simp [hr, Except.map] at h
      | ok found =>
        simp only [hr, Except.map, Except.ok.injEq] at h
        subst h
        simp [ih hr]

/-- The last value of each channel not later than `x`, NaN where there is none yet. -/
def align (channels : List Series) (x : Float) : List Float :=
  channels.map (·.valueAt x)

theorem length_align (channels : List Series) (x : Float) :
    (align channels x).length = channels.length := by
  simp [align]

end Alignment

end DerivedSignal
