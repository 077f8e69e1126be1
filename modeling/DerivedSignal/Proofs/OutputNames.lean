import DerivedSignal.Proofs.Compilation
import Mathlib

namespace DerivedSignal

namespace OutputShape

/-- A shape without repeated keys. -/
def DistinctKeys : OutputShape → Prop
  | keyed keys => keys.Nodup
  | _ => True

theorem outputNames_nodup {shape : OutputShape} (h : shape.DistinctKeys) (base : String) :
    (shape.outputNames base).Nodup := by
  cases shape with
  | scalar => simp [outputNames]
  | vector size =>
    refine List.Nodup.map (fun i j hij => ?_) List.nodup_range
    exact Nat.repr_inj.mp ((String.append_right_inj (base ++ ".")).mp hij)
  | keyed keys =>
    refine List.Nodup.map (fun k l hkl => ?_) h
    exact (String.append_right_inj (base ++ "/")).mp hkl

end OutputShape

namespace Script

theorem keys_nodup (keys : NameMap.Keys) (values : List Value) :
    ((NameMap.zip keys values).entries.map (·.1)).Nodup := by
  refine List.Pairwise.imp (fun {a b} h => ?_) (NameMap.zip keys values).keys.property
  exact fun hab => String.lt_irrefl a (hab ▸ h)

theorem distinctKeys_of_toReading {v : Value} {shape : OutputShape}
    (h : OutputShape.ofReading v.toReading = .ok shape) : shape.DistinctKeys := by
  cases v with
  | map keys values =>
    simp only [Value.toReading, OutputShape.ofReading, Except.ok.injEq] at h
    subst h
    simpa [OutputShape.DistinctKeys, List.map_map, Function.comp_def] using keys_nodup keys values
  | int n => cases h; trivial
  | float x => cases h; trivial
  | array items => cases h; trivial
  | unit => cases h
  | bool b => cases h
  | char c => cases h
  | string s => cases h
  | range first last closed => cases h

end Script

namespace Session

theorem reading_of_call {s s' : Session} {time value : Float} {channels : List Float}
    {reading : Reading} (h : s.call time value channels = (s', .done reading)) :
    ∃ v : Script.Value, reading = v.toReading := by
  unfold call evaluate merge at h
  split at h
  next => cases h
  next p _ =>
    simp only at h
    split at h
    next v _ => exact ⟨v, by simpa using (Prod.mk.inj h).2.symm⟩
    all_goals cases h

end Session

namespace Transform

theorem outputs_nodup {d : Definition} {start : Session} {t : Transform Session}
    (h : Compiles d start t) : t.outputs.Nodup := by
  obtain ⟨loaded, bound, probed, value, -, -, hcall, hshape, -⟩ := h.steps
  obtain ⟨v, rfl⟩ := Session.reading_of_call hcall
  exact OutputShape.outputNames_nodup (Script.distinctKeys_of_toReading hshape) t.definition.name

end Transform

end DerivedSignal
