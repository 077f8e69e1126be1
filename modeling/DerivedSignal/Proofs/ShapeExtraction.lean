import DerivedSignal.Proofs.OutputNames

namespace DerivedSignal

namespace Reading

/-- The numbers of a result in their order. -/
def numbers : Reading → List Float
  | number y => [y]
  | array items => items
  | object entries => entries.map (·.2)
  | unsupported _ => []

end Reading

namespace OutputShape

theorem extract_eq (shape : OutputShape) (value : Reading) :
    shape.extract value =
      if ofReading value = .ok shape then .ok value.numbers else .error value.describe := by
  cases shape <;> cases value <;> simp [extract, ofReading, Reading.numbers]

theorem describe_of_ofReading {shape : OutputShape} {value : Reading} (h : ofReading value = .ok shape) :
    shape.describe = value.describe := by
  cases value <;> cases h <;> rfl

theorem exists_extract_iff {shape : OutputShape} {value : Reading} :
    (∃ ys, shape.extract value = .ok ys) ↔ ofReading value = .ok shape := by
  rw [extract_eq]
  split <;> simp_all

end OutputShape

namespace Session

theorem keys_sorted_of_call {s s' : Session} {time value : Float} {channels : List Float}
    {entries : List (String × Float)} (h : s.call time value channels = (s', .done (.object entries))) :
    (entries.map (·.1)).Pairwise (· < ·) := by
  obtain ⟨v, hv⟩ := reading_of_call h
  cases v with
  | map keys values =>
    cases hv
    rw [List.map_map, List.pairwise_map]
    exact (NameMap.zip keys values).sorted
  | _ => cases hv

/-- Sorted keys are known from the set of them. -/
theorem keys_eq_iff {a b : List String} (ha : a.Pairwise (· < ·)) (hb : b.Pairwise (· < ·)) :
    a = b ↔ ∀ key, key ∈ a ↔ key ∈ b := by
  refine ⟨fun h key => by rw [h], fun h => ?_⟩
  have hperm : a.Perm b :=
    (List.perm_ext_iff_of_nodup (ha.imp String.ne_of_lt) (hb.imp String.ne_of_lt)).mpr h
  exact hperm.eq_of_pairwise (fun x y _ _ hxy hyx => absurd (String.lt_trans hxy hyx) (String.lt_irrefl x)) ha hb

/-- A shape takes the numbers of exactly the results that it is the shape of, as many as it names outputs,
and refuses any other by its description, which is that of its own shape if it has one. Of two objects that
calls give, whatever the sessions and scripts, the one has the shape of the other just if both have the same
set of keys. -/
theorem results_extracted_by_their_shape :
    (∀ (shape : OutputShape) (value : Reading),
      ((∃ ys, shape.extract value = .ok ys) ↔ OutputShape.ofReading value = .ok shape) ∧
      (∀ ys, shape.extract value = .ok ys →
        ys = value.numbers ∧ ys.length = shape.arity ∧
          ∀ base, ys.length = (shape.outputNames base).length) ∧
      (OutputShape.ofReading value ≠ .ok shape → shape.extract value = .error value.describe) ∧
      (OutputShape.ofReading value = .ok shape → value.describe = shape.describe)) ∧
    (∀ {s s' u u' : Session} {time value time' value' : Float} {channels channels' : List Float}
      {entries entries' : List (String × Float)},
      s.call time value channels = (s', .done (.object entries)) →
      u.call time' value' channels' = (u', .done (.object entries')) →
      ∀ shape, OutputShape.ofReading (.object entries) = .ok shape →
        ((∃ ys, shape.extract (.object entries') = .ok ys) ↔
          ∀ key, key ∈ entries.map (·.1) ↔ key ∈ entries'.map (·.1))) := by
  refine ⟨fun shape value => ⟨OutputShape.exists_extract_iff, fun ys hys => ?_, fun h => ?_, fun h => ?_⟩,
    fun hcall hcall' shape hshape => ?_⟩
  · have hlength := OutputShape.length_of_extract hys
    rw [OutputShape.extract_eq] at hys
    split at hys
    next => exact ⟨(Except.ok.inj hys).symm, hlength, fun base => by rw [OutputShape.length_outputNames, hlength]⟩
    next => cases hys
  · rw [OutputShape.extract_eq, if_neg h]
  · exact (OutputShape.describe_of_ofReading h).symm
  · cases hshape
    rw [OutputShape.exists_extract_iff, ← keys_eq_iff (keys_sorted_of_call hcall) (keys_sorted_of_call hcall')]
    simp [OutputShape.ofReading, eq_comm]

/-- Two scripts that write their keys in different orders give results of one shape. -/
theorem results_extracted_by_their_shape_two_orders :
    let given (source : String) : Session := (Evaluator.bind (Session.new {}) source).1
    ∃ s' u' : Session,
      (given "#\x7bb: value, a: 1\x7d").call 0 2 [] = (s', .done (.object [("a", 1), ("b", 2)])) ∧
      (given "#\x7ba: 3, b: time\x7d").call 4 5 [] = (u', .done (.object [("a", 3), ("b", 4)])) ∧
      ∃ ys, (OutputShape.keyed ["a", "b"]).extract (.object [("a", 3), ("b", 4)]) = .ok ys := by
  intro given
  have hcall : ((given "#\x7bb: value, a: 1\x7d").call 0 2 []).2 = .done (.object [("a", 1), ("b", 2)]) := by
    decide +kernel
  have hcall' : ((given "#\x7ba: 3, b: time\x7d").call 4 5 []).2 = .done (.object [("a", 3), ("b", 4)]) := by
    decide +kernel
  have h := results_extracted_by_their_shape.2 (Prod.ext rfl hcall) (Prod.ext rfl hcall') _ rfl
  exact ⟨_, _, Prod.ext rfl hcall, Prod.ext rfl hcall', h.mpr (by simp)⟩

end Session

end DerivedSignal
