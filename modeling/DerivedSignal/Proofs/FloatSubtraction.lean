import DerivedSignal.Proofs.FloatOrder
import DerivedSignal.Proofs.FloatRounding

namespace DerivedSignal

namespace FloatRounding

open Float.Model Float.Model.UnpackedFloat

theorem unpackSign_packComponents {spec : Format} (s : Sign) (e : BitVec spec.exponentBits)
    (m : BitVec spec.mantissaBitsWithoutImplicit) :
    unpackSign (packComponents spec s e m) = s.toBitVec := by
  ext i hi
  obtain rfl : i = 0 := by omega
  simp [unpackSign, packComponents, BitVec.getLsbD_append, BitVec.getLsbD_eq_getElem, BitVec.getElem_append]

theorem sign_toBitVec (s : Sign) : Sign.ofBitVec s.toBitVec = s := by
  cases s <;> rfl

/-- A number as it comes back from its bits. -/
def stored (x : UnpackedFloat) : UnpackedFloat :=
  UnpackedFloat.unpack Format.binary64 (UnpackedFloat.pack Format.binary64 x)

theorem stored_infinity (s : Sign) : stored (.infinity s) = .infinity s := by
  cases s <;> rfl

theorem stored_zero (s : Sign) : stored (.zero s) = .zero s := by
  cases s <;> rfl

theorem biased_eq (e : ℤ) :
    (e + (Format.binary64.exponentBias : ℕ) + (52 : ℕ)).toNat = (e + 1075).toNat := by
  have hbias : Format.binary64.exponentBias = 1023 := by decide
  rw [hbias]
  omega

theorem stored_overflow {m : ℕ} {e : ℤ} (s : Sign) (hm : 0 < m) (he : 971 < e) :
    stored (.finite s m e hm) = .infinity s := by
  have hpack : UnpackedFloat.pack Format.binary64 (.finite s m e hm) = packedInfinity Format.binary64 s := by
    simp only [UnpackedFloat.pack, biased_eq]
    exact if_pos (by omega)
  rw [stored, hpack]
  exact stored_infinity s

theorem log2_normal {m : ℕ} (hlow : 2 ^ 52 ≤ m) (hhigh : m < 2 ^ 53) : m.log2 + 1 = 53 := by
  have hm : m ≠ 0 := by omega
  have h₁ := (Nat.le_log2 hm).mpr hlow
  have h₂ := (Nat.log2_lt hm).mpr hhigh
  omega

theorem bitVec_ne_of_toNat {w n : ℕ} (h : n < 2 ^ w) {b : BitVec w} (hne : n ≠ b.toNat) :
    BitVec.ofNat w n ≠ b := by
  rintro rfl
  exact hne (Nat.mod_eq_of_lt h).symm

theorem pack_normal {m : ℕ} {e : ℤ} (s : Sign) (hm : 0 < m) (hlow : 2 ^ 52 ≤ m) (hhigh : m < 2 ^ 53)
    (hmost : e ≤ 971) : UnpackedFloat.pack Format.binary64 (.finite s m e hm) =
      packComponents Format.binary64 s (BitVec.ofNat 11 (e + 1075).toNat) (BitVec.ofNat 52 m) := by
  have hbits : Format.binary64.mantissaBits = 53 := rfl
  simp only [UnpackedFloat.pack, biased_eq, hbits]
  rw [if_neg (by omega), if_pos (log2_normal hlow hhigh)]

theorem stored_normal {m : ℕ} {e : ℤ} (s : Sign) (hm : 0 < m) (hlow : 2 ^ 52 ≤ m) (hhigh : m < 2 ^ 53)
    (hleast : -1074 ≤ e) (hmost : e ≤ 971) : stored (.finite s m e hm) = .finite s m e hm := by
  have hbias : Format.binary64.exponentBias = 1023 := by decide
  have hexponent : (BitVec.ofNat 11 (e + 1075).toNat).toNat = (e + 1075).toNat :=
    Nat.mod_eq_of_lt (by omega)
  have hfinite : BitVec.ofNat 11 (e + 1075).toNat ≠ -1#11 :=
    bitVec_ne_of_toNat (by omega) (show (e + 1075).toNat ≠ 2047 by omega)
  have hnormal : BitVec.ofNat 11 (e + 1075).toNat ≠ 0#11 :=
    bitVec_ne_of_toNat (by omega) (show (e + 1075).toNat ≠ 0 by omega)
  -- The first digit is left out when the number is stored, and put back.
  have hmantissa : (1#1 ++ BitVec.ofNat 52 m).toNat = m := by
    rw [BitVec.toNat_append, ← Nat.shiftLeft_add_eq_or_of_lt (BitVec.isLt _), BitVec.toNat_ofNat]
    simp only [BitVec.toNat_ofNat, Nat.shiftLeft_eq]
    omega
  rw [stored, pack_normal s hm hlow hhigh hmost]
  simp only [UnpackedFloat.unpack, unpackMantissa_packComponents, unpackExponent_packComponents,
    unpackSign_packComponents, sign_toBitVec, hfinite, hnormal, if_false, hmantissa, hexponent, hbias]
  congr 1
  omega

theorem stored_subnormal {m : ℕ} (s : Sign) (hm : 0 < m) (hhigh : m < 2 ^ 52) :
    stored (.finite s m (-1074) hm) = .finite s m (-1074) hm := by
  have hbits : Format.binary64.mantissaBits = 53 := rfl
  have hbias : Format.binary64.exponentBias = 1023 := by decide
  have hlog : m.log2 + 1 ≠ 53 := by
    have hlt := (Nat.log2_lt hm.ne').mpr hhigh
    omega
  have hpack : UnpackedFloat.pack Format.binary64 (.finite s m (-1074) hm) =
      packComponents Format.binary64 s 0#11 (BitVec.ofNat 52 m) := by
    simp only [UnpackedFloat.pack, biased_eq, hbits]
    rw [if_neg (by omega), if_neg hlog]
  have hmantissa : (BitVec.ofNat 52 m).toNat = m := Nat.mod_eq_of_lt hhigh
  have hsome : BitVec.ofNat 52 m ≠ 0#52 := bitVec_ne_of_toNat hhigh hm.ne'
  have hfinite : 0#11 ≠ -1#11 := by decide
  rw [stored, hpack]
  simp only [UnpackedFloat.unpack, unpackMantissa_packComponents, unpackExponent_packComponents,
    unpackSign_packComponents, sign_toBitVec, hfinite, hsome, if_false, if_true, dif_neg,
    not_false_eq_true, hmantissa, hbias]
  rfl

theorem stored_finite {m : ℕ} {e : ℤ} (s : Sign) (hm : 0 < m) (hc : Canonical m e) (he : e ≤ 971) :
    stored (.finite s m e hm) = .finite s m e hm := by
  by_cases hn : 2 ^ 52 ≤ m
  · exact stored_normal s hm hn hc.mantissa hc.least he
  · obtain rfl : e = -1074 := hc.normal.resolve_right hn
    exact stored_subnormal s hm (not_le.mp hn)

/-- Where a positive double stands; it is infinite if its exponent is too great. -/
def magnitude (e : ℤ) (m : ℕ) : ℤ ×ₗ ℤ ×ₗ ℤ :=
  if e ≤ 971 then toLex (1, toLex (e, (m : ℤ))) else toLex (2, toLex (0, 0))

theorem magnitude_pos (e : ℤ) (m : ℕ) : 0 < magnitude e m := by
  have hzero : (0 : ℤ ×ₗ ℤ ×ₗ ℤ) = toLex (0, toLex (0, 0)) := rfl
  unfold magnitude
  rw [hzero]
  split <;> simp [Prod.Lex.toLex_lt_toLex]

theorem magnitude_mono {e f : ℤ} {m n : ℕ} (h : e < f ∨ e = f ∧ m ≤ n) :
    magnitude e m ≤ magnitude f n := by
  unfold magnitude
  split
  next he =>
    split
    next hf =>
      simp only [Prod.Lex.toLex_le_toLex, lt_irrefl, false_or, true_and]
      omega
    next => simp [Prod.Lex.toLex_le_toLex]
  next he =>
    rw [if_neg (by omega)]

/-- The place of a number of the given sign, from the place of its magnitude. -/
def signed (s : Sign) (p : ℤ ×ₗ ℤ ×ₗ ℤ) : ℤ ×ₗ ℤ ×ₗ ℤ :=
  match s with
  | .positive => p
  | .negative => -p

theorem rank_stored {m : ℕ} {e : ℤ} (s : Sign) (hm : 0 < m) (hc : Canonical m e) :
    FloatOrder.rank (stored (.finite s m e hm)) = some (signed s (magnitude e m)) := by
  unfold magnitude
  split
  next he =>
    rw [stored_finite s hm hc he]
    cases s <;> rfl
  next he =>
    rw [stored_overflow s hm (by omega)]
    cases s <;> rfl

/-- The place of the double nearest to `z` times the least one. -/
def nearestPlace (z : ℤ) : ℤ ×ₗ ℤ ×ₗ ℤ :=
  if 0 < z then magnitude (nearestExponent z.toNat) (nearestMantissa z.toNat)
  else if z < 0 then -magnitude (nearestExponent (-z).toNat) (nearestMantissa (-z).toNat)
  else 0

theorem nearestPlace_mono {z w : ℤ} (h : z ≤ w) : nearestPlace z ≤ nearestPlace w := by
  have hpos := fun v : ℤ => magnitude_pos (nearestExponent v.toNat) (nearestMantissa v.toNat)
  unfold nearestPlace
  rcases lt_trichotomy 0 z with hz | hz | hz
  · rw [if_pos hz, if_pos (by omega)]
    exact magnitude_mono (nearest_mono (by omega))
  · subst hz
    simp only [lt_irrefl, if_false]
    split
    next => exact (hpos w).le
    next => rw [if_neg (by omega)]
  · rw [if_neg (by omega), if_pos hz]
    have hneg : -magnitude (nearestExponent (-z).toNat) (nearestMantissa (-z).toNat) < 0 :=
      neg_lt_zero.mpr (hpos (-z))
    split
    next => exact hneg.le.trans (hpos w).le
    next =>
      split
      next => exact neg_le_neg (magnitude_mono (nearest_mono (by omega)))
      next => exact hneg.le

/-- A double that is not infinite, as a multiple of the least one. -/
inductive Multiple : UnpackedFloat → ℤ → Prop
  | zero (s : Sign) : Multiple (.zero s) 0
  | finite (s : Sign) {m : ℕ} {e : ℤ} (hm : 0 < m) : Canonical m e → e ≤ 971 →
      Multiple (.finite s m e hm) (s.apply (m * 2 ^ (e + 1074).toNat : ℕ))

theorem nearestPlace_apply {n : ℕ} (h : 0 < n) (s : Sign) :
    nearestPlace (s.apply n) = signed s (magnitude (nearestExponent n) (nearestMantissa n)) := by
  cases s with
  | positive =>
    simp only [Sign.apply, nearestPlace, signed, Int.toNat_natCast]
    exact if_pos (by omega)
  | negative =>
    simp only [Sign.apply, nearestPlace, signed, neg_neg, Int.toNat_natCast]
    rw [if_neg (by omega), if_pos (by omega)]

theorem rank_of_multiple {x : UnpackedFloat} {z : ℤ} (h : Multiple x z) :
    FloatOrder.rank x = some (nearestPlace z) := by
  cases h with
  | zero => rfl
  | @finite s m e hm hc he =>
    obtain ⟨hexponent, hmantissa⟩ := nearest_of_canonical hm hc
    rw [nearestPlace_apply (Nat.mul_pos hm (Nat.two_pow_pos _)), hexponent, hmantissa,
      ← rank_stored s hm hc, stored_finite s hm hc he]

theorem rank_normalize (z : ℤ) {e : ℤ} (he : -1074 ≤ e) :
    FloatOrder.rank (stored (UnpackedFloat.normalize Format.binary64 z e .positive)) =
      some (nearestPlace (z * 2 ^ (e + 1074).toNat)) := by
  have hround : ∀ {n : ℕ}, 0 < n → ∀ s : Sign,
      FloatOrder.rank (stored (UnpackedFloat.round Format.binary64 s n e)) =
        some (nearestPlace (s.apply (n * 2 ^ (e + 1074).toNat : ℕ))) := by
    intro n hn s
    obtain ⟨h, heq⟩ := round_eq hn s he
    rw [heq, rank_stored s h (canonical_nearest _),
      nearestPlace_apply (Nat.mul_pos hn (Nat.two_pow_pos _))]
  unfold UnpackedFloat.normalize
  rcases lt_trichotomy z 0 with hz | rfl | hz
  · have hneg : Sign.negative.apply ((-z).toNat * 2 ^ (e + 1074).toNat : ℕ) =
        z * 2 ^ (e + 1074).toNat := by
      rw [Sign.apply, Nat.cast_mul, Int.toNat_of_nonneg (by omega)]
      push_cast
      ring
    rw [compare_lt_iff_lt.mpr hz, ← hneg]
    exact hround (by omega) .negative
  · rw [Int.zero_mul, compare_eq_iff_eq.mpr rfl, stored_zero]
    rfl
  · have hpos : Sign.positive.apply (z.toNat * 2 ^ (e + 1074).toNat : ℕ) =
        z * 2 ^ (e + 1074).toNat := by
      rw [Sign.apply, Nat.cast_mul, Int.toNat_of_nonneg hz.le]
      push_cast
      ring
    rw [compare_gt_iff_gt.mpr hz, ← hpos]
    exact hround (by omega) .positive

theorem apply_neg (s : Sign) (n : ℤ) : (-s).apply n = -s.apply n := by
  cases s
  · exact (neg_neg n).symm
  · rfl

theorem apply_mul (s : Sign) (n k : ℤ) : s.apply (n * k) = s.apply n * k := by
  cases s
  · exact (neg_mul n k).symm
  · rfl

/-- Subtraction rounds the exact difference. -/
theorem rank_sub {x y : UnpackedFloat} {z w : ℤ} (hx : Multiple x z) (hy : Multiple y w) :
    FloatOrder.rank (stored (UnpackedFloat.sub Format.binary64 x y)) = some (nearestPlace (z - w)) := by
  cases hx with
  | zero s =>
    cases hy with
    | zero s' =>
      simp only [UnpackedFloat.sub]
      split <;> rw [stored_zero] <;> rfl
    | @finite s' m e hm hc he =>
      rw [zero_sub, ← apply_neg, ← rank_of_multiple (.finite (-s') hm hc he),
        ← stored_finite (-s') hm hc he]
      rfl
  | @finite s m e hm hc he =>
    cases hy with
    | zero s' =>
      rw [sub_zero, ← rank_of_multiple (.finite s hm hc he)]
      exact congrArg FloatOrder.rank (stored_finite s hm hc he)
    | @finite s' m' e' hm' hc' he' =>
      have hlow := hc.least
      have hlow' := hc'.least
      -- Both mantissas are brought to the smaller exponent, where the difference is exact.
      let least := min e e'
      have hsplit : ∀ (m : ℕ) {e : ℤ}, least ≤ e →
          m * 2 ^ (e + 1074).toNat = m <<< (e - least).toNat * 2 ^ (least + 1074).toNat := by
        intro m e h
        rw [Nat.shiftLeft_eq, mul_assoc, ← pow_add]
        congr 2
        omega
      have hdifference := rank_normalize (s.apply (m <<< (e - least).toNat : ℕ) -
        s'.apply (m' <<< (e' - least).toNat : ℕ)) (show -1074 ≤ least by omega)
      rw [hsplit m (min_le_left e e'), hsplit m' (min_le_right e e')]
      push_cast
      rw [apply_mul, apply_mul, ← sub_mul]
      exact_mod_cast hdifference

theorem multiple_unpack {b : BitVec 64} (h : (UnpackedFloat.unpack Format.binary64 b).isFinite = true) :
    ∃ z, Multiple (UnpackedFloat.unpack Format.binary64 b) z := by
  have hbias : Format.binary64.exponentBias = 1023 := by decide
  have hm : (@unpackMantissa Format.binary64 b).toNat < 2 ^ 52 := BitVec.isLt _
  have he : (@unpackExponent Format.binary64 b).toNat < 2 ^ 11 := BitVec.isLt _
  revert h
  fun_cases UnpackedFloat.unpack Format.binary64 b
  case case1 => intro h; cases h
  case case2 => intro h; cases h
  case case3 => exact fun _ => ⟨0, .zero _⟩
  case case4 mantissa exponent value sign' sign hinf hzero hnone =>
    intro _
    have hvalue : value + 1 = -1074 := by
      have hexponent : exponent.toNat = 0 := congrArg BitVec.toNat hzero
      simp only [value, hexponent, hbias]
      rfl
    have hlt : mantissa.toNat < 2 ^ 52 := hm
    exact ⟨_, .finite sign _ ⟨by omega, by omega, .inl hvalue⟩ (by omega)⟩
  case case5 mantissa exponent value sign' sign hinf hzero =>
    intro _
    have hvalue : value = exponent.toNat - 1075 := by
      simp only [value, hbias]
      rfl
    have hlt : exponent.toNat < 2 ^ 11 := he
    have hlow : exponent.toNat ≠ 0 := fun h => hzero (BitVec.eq_of_toNat_eq h)
    have hhigh : exponent.toNat ≠ 2047 := fun h => hinf (BitVec.eq_of_toNat_eq h)
    have happend : (1#1 ++ mantissa).toNat = 2 ^ 52 + mantissa.toNat := by
      rw [BitVec.toNat_append, ← Nat.shiftLeft_add_eq_or_of_lt mantissa.isLt]
      rfl
    have hmantissa : mantissa.toNat < 2 ^ 52 := hm
    exact ⟨_, .finite sign _ ⟨by omega, by omega, .inr (by omega)⟩ (by omega)⟩

theorem multiple_of_isFinite {x : Float} (h : x.isFinite = true) :
    ∃ z, Multiple x.toModel.unpack z :=
  multiple_unpack h

theorem Multiple.unique {x y : UnpackedFloat} {z w : ℤ} (hx : Multiple x z) (hy : Multiple y w)
    (h : FloatOrder.rank x = FloatOrder.rank y) : z = w := by
  cases hx with
  | zero s =>
    cases hy with
    | zero s' => rfl
    | finite s' => cases s' <;> simp [FloatOrder.rank] at h
  | finite s =>
    cases hy with
    | zero s' => cases s <;> simp [FloatOrder.rank] at h
    | finite s' =>
      cases s <;> cases s' <;> simp [FloatOrder.rank] at h <;> obtain ⟨rfl, rfl⟩ := h <;> rfl

theorem Multiple.le {x y : UnpackedFloat} {z w : ℤ} (hx : Multiple x z) (hy : Multiple y w)
    (h : nearestPlace z ≤ nearestPlace w) : z ≤ w := by
  by_contra hlt
  have heq := le_antisymm h (nearestPlace_mono (not_le.mp hlt).le)
  have hsame := hx.unique hy (by rw [rank_of_multiple hx, rank_of_multiple hy, heq])
  exact hlt hsame.le

end FloatRounding

namespace FloatOrder

open Float.Model Float.Model.UnpackedFloat FloatRounding

theorem place_of_multiple {x : Float} {z : ℤ} (h : Multiple x.toModel.unpack z) :
    place x = some (nearestPlace z) :=
  rank_of_multiple h

theorem multiple_zero : Multiple (0 : Float).toModel.unpack 0 := by
  have h : (0 : Float).toModel.unpack = .zero .positive := by rfl
  rw [h]
  exact .zero .positive

theorem place_zero : place 0 = some (nearestPlace 0) := place_of_multiple multiple_zero

theorem place_sub {x y : Float} {z w : ℤ} (hx : Multiple x.toModel.unpack z)
    (hy : Multiple y.toModel.unpack w) : place (x - y) = some (nearestPlace (z - w)) :=
  rank_sub hx hy

/-- A double is no number, infinite, or a multiple of the least one. -/
theorem unpack_cases (x : Float) : x.toModel.unpack = .notANumber ∨
    (∃ s, x.toModel.unpack = .infinity s) ∨ ∃ z, Multiple x.toModel.unpack z := by
  by_cases hf : x.isFinite = true
  · exact .inr (.inr (multiple_of_isFinite hf))
  · have hf : ¬ x.toModel.unpack.isFinite = true := hf
    cases hu : x.toModel.unpack with
    | notANumber => exact .inl rfl
    | infinity s => exact .inr (.inl ⟨s, rfl⟩)
    | zero s => exact absurd (by rw [hu]; rfl) hf
    | finite s m e hm => exact absurd (by rw [hu]; rfl) hf

/-- The place of an infinity. -/
def outermost (s : Sign) : ℤ ×ₗ ℤ ×ₗ ℤ :=
  match s with
  | .positive => toLex (2, toLex (0, 0))
  | .negative => toLex (-2, toLex (0, 0))

theorem place_of_infinity {x : Float} {s : Sign} (h : x.toModel.unpack = .infinity s) :
    place x = some (outermost s) := by
  rw [place, h]
  cases s <;> rfl

theorem place_between {x : Float} {p : ℤ ×ₗ ℤ ×ₗ ℤ} (h : place x = some p) :
    outermost .negative ≤ p ∧ p ≤ outermost .positive := by
  unfold place at h
  revert h
  rcases x.toModel.unpack with (_ | _) | _ | _ | ⟨_ | _, m, e, _⟩ <;> intro h <;> cases h <;>
    simp [outermost, Prod.Lex.toLex_le_toLex]

/-- Only an infinity stands outermost. -/
theorem infinity_of_place {x : Float} {s : Sign} (h : place x = some (outermost s)) :
    x.toModel.unpack = .infinity s := by
  unfold place at h
  revert h
  rcases x.toModel.unpack with (_ | _) | _ | _ | ⟨_ | _, m, e, _⟩ <;> cases s <;> simp [outermost, rank]

theorem infinity_of_le {x y : Float} (hx : x.toModel.unpack = .infinity .positive) (h : x ≤ y) :
    y.toModel.unpack = .infinity .positive := by
  obtain ⟨p, q, hp, hq, hpq⟩ := (le_iff x y).mp h
  cases hp.symm.trans (place_of_infinity hx)
  rw [le_antisymm (place_between hq).2 hpq] at hq
  exact infinity_of_place hq

/-- What is not less than a multiple of the least double is a greater one or infinite. -/
theorem infinity_or_multiple {x y : Float} {z : ℤ} (hx : Multiple x.toModel.unpack z) (h : x ≤ y) :
    y.toModel.unpack = .infinity .positive ∨ ∃ w, z ≤ w ∧ Multiple y.toModel.unpack w := by
  obtain ⟨p, q, hp, hq, hpq⟩ := (le_iff x y).mp h
  rcases unpack_cases y with hy | ⟨s | s, hy⟩ | ⟨w, hy⟩
  · rw [place, hy] at hq
    cases hq
  · cases hq.symm.trans (place_of_infinity hy)
    rw [le_antisymm hpq (place_between hp).1] at hp
    rw [infinity_of_place hp] at hx
    cases hx
  · exact .inl hy
  · cases hp.symm.trans (place_of_multiple hx)
    cases hq.symm.trans (place_of_multiple hy)
    exact .inr ⟨w, hx.le hy hpq, hy⟩

theorem place_sub_eq (x b : Float) : place (x - b) =
    rank (stored (UnpackedFloat.sub Format.binary64 x.toModel.unpack b.toModel.unpack)) := rfl

theorem place_sub_of_infinity {x b : Float} {s : Sign}
    (h : UnpackedFloat.sub Format.binary64 x.toModel.unpack b.toModel.unpack = .infinity s) :
    place (x - b) = some (outermost s) := by
  rw [place_sub_eq, h, stored_infinity]
  cases s <;> rfl

theorem sub_ne_notANumber {x b : Float} {p : ℤ ×ₗ ℤ ×ₗ ℤ} (h : place (x - b) = some p) :
    UnpackedFloat.sub Format.binary64 x.toModel.unpack b.toModel.unpack ≠ .notANumber := by
  intro hsub
  rw [place_sub_eq, hsub] at h
  cases h

theorem place_infinity_sub {x b : Float} {s : Sign} {w : ℤ} (hx : x.toModel.unpack = .infinity s)
    (hb : Multiple b.toModel.unpack w) : place (x - b) = some (outermost s) := by
  refine place_sub_of_infinity ?_
  rw [hx]
  generalize b.toModel.unpack = u at hb
  cases hb <;> rfl

theorem place_sub_infinity {x b : Float} {z : ℤ} {s : Sign} (hx : Multiple x.toModel.unpack z)
    (hb : b.toModel.unpack = .infinity s) : place (x - b) = some (outermost (-s)) := by
  refine place_sub_of_infinity ?_
  rw [hb]
  generalize x.toModel.unpack = u at hx
  cases hx <;> rfl

/-- Taking away the same amount keeps the order. -/
theorem sub_le_sub_right {x y b : Float} (hx : x.isFinite = true) (hy : y.isFinite = true)
    (hb : 0 ≤ b) (h : x ≤ y) : x - b ≤ y - b := by
  obtain ⟨z, hz⟩ := multiple_of_isFinite hx
  obtain ⟨w, hw⟩ := multiple_of_isFinite hy
  obtain ⟨p, q, hp, hq, hpq⟩ := (le_iff x y).mp h
  cases hp.symm.trans (place_of_multiple hz)
  cases hq.symm.trans (place_of_multiple hw)
  rw [le_iff]
  rcases infinity_or_multiple multiple_zero hb with hb | ⟨v, -, hv⟩
  · exact ⟨_, _, place_sub_infinity hz hb, place_sub_infinity hw hb, le_refl _⟩
  · have hle : z ≤ w := hz.le hw hpq
    exact ⟨_, _, place_sub hz hv, place_sub hw hv, nearestPlace_mono (by omega)⟩

/-- What is left when something is taken away is not greater. -/
theorem sub_le_self {x b : Float} (hx : x.isFinite = true) (hb : 0 ≤ b) : x - b ≤ x := by
  obtain ⟨z, hz⟩ := multiple_of_isFinite hx
  have hplace := place_of_multiple hz
  rcases infinity_or_multiple multiple_zero hb with hb | ⟨w, hw, hv⟩
  · exact (le_iff _ _).mpr ⟨_, _, place_sub_infinity hz hb, hplace, (place_between hplace).1⟩
  · exact (le_iff _ _).mpr ⟨_, _, place_sub hz hv, hplace, nearestPlace_mono (by omega)⟩

/-- What is left of an infinity is that infinity, if it is a number. -/
theorem place_of_infinity_sub {x b : Float} {s : Sign} {p : ℤ ×ₗ ℤ ×ₗ ℤ}
    (hx : x.toModel.unpack = .infinity s) (h : place (x - b) = some p) : p = outermost s := by
  have hnumber := sub_ne_notANumber h
  rw [hx] at hnumber
  refine Option.some.inj (h.symm.trans (place_sub_of_infinity ?_))
  rw [hx]
  cases hb : b.toModel.unpack with
  | notANumber => exact absurd (by rw [hb]; rfl) hnumber
  | infinity s' =>
    cases s <;> cases s'
    case negative.negative | positive.positive => exact absurd (by rw [hb]; rfl) hnumber
    case negative.positive | positive.negative => rfl
  | zero s' => rfl
  | finite s' m e hm => rfl

/-- What is less than a difference is less than what is left of a greater number. -/
theorem lt_sub_of_lt_sub {p x y b : Float} (hxy : x ≤ y) (h : p < x - b) : p < y - b := by
  obtain ⟨u, v, hu, hv, huv⟩ := (lt_iff p (x - b)).mp h
  have hbottom : v ≠ outermost .negative := ((place_between hu).1.trans_lt huv).ne'
  suffices hle : ∃ w, place (y - b) = some w ∧ v ≤ w by
    obtain ⟨w, hw, hvw⟩ := hle
    exact (lt_iff p (y - b)).mpr ⟨u, w, hu, hw, huv.trans_le hvw⟩
  rcases unpack_cases x with hx | ⟨s | s, hx⟩ | ⟨z, hx⟩
  · exact absurd (by rw [hx]; rfl) (sub_ne_notANumber hv)
  · exact absurd (place_of_infinity_sub hx hv) hbottom
  · have hy : place (y - b) = place (x - b) := by
      rw [place_sub_eq, place_sub_eq, infinity_of_le hx hxy, hx]
    exact ⟨v, hy.trans hv, le_refl v⟩
  · rcases unpack_cases b with hb | ⟨s, hb⟩ | ⟨w, hb⟩
    · refine absurd ?_ (sub_ne_notANumber hv)
      rw [hb]
      generalize x.toModel.unpack = u at hx
      cases hx <;> rfl
    · cases hv.symm.trans (place_sub_infinity hx hb)
      rcases infinity_or_multiple hx hxy with hy | ⟨_, -, hy⟩
      · cases s with
        | positive => exact absurd rfl hbottom
        | negative => exact ⟨_, place_sub_of_infinity (by rw [hy, hb]; rfl), le_refl _⟩
      · exact ⟨_, place_sub_infinity hy hb, le_refl _⟩
    · rcases infinity_or_multiple hx hxy with hy | ⟨z', hz, hy⟩
      · exact ⟨_, place_infinity_sub hy hb, (place_between hv).2⟩
      · cases hv.symm.trans (place_sub hx hb)
        exact ⟨_, place_sub hy hb, nearestPlace_mono (by omega)⟩

end FloatOrder

end DerivedSignal
