import Mathlib
import BadgeRules.Decimal.Reading
import BadgeRules.Decimal.Shortest

/-!
# Doubles by their fields

A double is told by its sign and its magnitude (`eq_of_magnitude`), and the magnitude grows with the
value (`units_strictMono`). The fields of a normal double are a sign, 53 binary digits and an exponent
(`IsNormal`). Since an integer up to `Double.maxExact` has no more digits than that, it is converted to the
one double of its value (`eq_toFloat`), and a numeral for it is read as that double
(`Numeral.toFloat?_ofInt`). Zero loses its sign on the way.
-/

namespace BadgeRules
open Float.Model Float.Model.UnpackedFloat

namespace Double

/-! ### Magnitudes -/

theorem eq_of_toBits {x y : Float} (h : x.toBits = y.toBits) : x = y := by
  obtain ⟨⟨_, _⟩⟩ := x
  obtain ⟨⟨_, _⟩⟩ := y
  cases h; rfl

theorem eq_of_magnitude {x y : Float} (hs : isNegative x = isNegative y) (hm : magnitude x = magnitude y) :
    x = y := by
  have hx := x.toBits.toNat_lt
  have hy := y.toBits.toNat_lt
  refine eq_of_toBits (UInt64.toNat_inj.1 ?_)
  have hs : signWeight ≤ x.toBits.toNat ↔ signWeight ≤ y.toBits.toNat := decide_eq_decide.1 hs
  simp only [magnitude, signWeight] at hs hm
  omega

/-- From one double to the next, the value grows by the weight of the lowest digit. -/
theorem units_succ (b : Nat) : units (b + 1) = units b + 2 ^ (b / exponentWeight - 1) := by
  have hlt : b % exponentWeight < exponentWeight := Nat.mod_lt _ (by decide)
  by_cases hf : b % exponentWeight + 1 < exponentWeight
  · have hdiv : (b + 1) / exponentWeight = b / exponentWeight := by
      simp only [exponentWeight] at *; omega
    have hmod : (b + 1) % exponentWeight = b % exponentWeight + 1 := by
      simp only [exponentWeight] at *; omega
    simp only [units, hdiv, hmod]
    split
    · next he => rw [he, Nat.zero_sub, Nat.pow_zero]
    · rw [← Nat.add_assoc, Nat.succ_mul]; rfl
  · -- the next exponent begins
    have hdiv : (b + 1) / exponentWeight = b / exponentWeight + 1 := by
      simp only [exponentWeight] at *; omega
    have hmod : (b + 1) % exponentWeight = 0 := by
      simp only [exponentWeight] at *; omega
    have hlast : b % exponentWeight + 1 = exponentWeight := by omega
    simp only [units, hdiv, hmod]
    cases he : b / exponentWeight with
    | zero =>
      have hb : b + 1 = exponentWeight := by simp only [exponentWeight] at *; omega
      simpa using hb.symm
    | succ e =>
      simp only [Nat.add_one_ne_zero, if_false, Nat.add_sub_cancel, Nat.add_zero]
      calc exponentWeight * Nat.pow 2 (e + 1) = (exponentWeight + (b % exponentWeight + 1)) * 2 ^ e := by
            rw [hlast]
            show exponentWeight * (2 ^ e * 2) = _
            ring
        _ = _ := by rw [← Nat.add_assoc, Nat.succ_mul]; rfl

theorem units_lt_succ (b : Nat) : units b < units (b + 1) := by
  rw [units_succ]
  exact Nat.lt_add_of_pos_right (Nat.pow_pos (by decide))

theorem units_strictMono : StrictMono units := strictMono_nat_of_lt_succ units_lt_succ

theorem units_eq_zero_iff {b : Nat} : units b = 0 ↔ b = 0 := units_strictMono.injective.eq_iff (a := b) (b := 0)

theorem unitsOfOne_pos : 0 < unitsOfOne := by decide +kernel

/-! ### Fields -/

section Fields

variable (b : BitVec 64)

theorem toNat_mantissa : (@unpackMantissa Format.binary64 b).toNat = b.toNat % 2 ^ 52 := by
  simp [unpackMantissa, BitVec.extractLsb_toNat]

theorem toNat_exponent : (@unpackExponent Format.binary64 b).toNat = b.toNat / 2 ^ 52 % 2 ^ 11 := by
  simp [unpackExponent, BitVec.extractLsb_toNat, Nat.shiftRight_eq_div_pow]

theorem toNat_sign : (@unpackSign Format.binary64 b).toNat = b.toNat / 2 ^ 63 := by
  have := b.isLt
  simp [unpackSign, BitVec.extractLsb_toNat, Nat.shiftRight_eq_div_pow]
  omega

end Fields

theorem toNat_packComponents (s : Sign) (e : BitVec 11) (m : BitVec 52) :
    (packComponents Format.binary64 s e m).toNat =
      s.toBitVec.toNat * signWeight + e.toNat * exponentWeight + m.toNat := by
  have he := e.isLt
  have hm := m.isLt
  rw [packComponents, BitVec.toNat_append, BitVec.toNat_append, ← Nat.shiftLeft_add_eq_or_of_lt hm,
    ← Nat.shiftLeft_add_eq_or_of_lt he]
  simp only [Nat.shiftLeft_eq, signWeight, exponentWeight]
  omega

theorem sign_packComponents (s : Sign) (e : BitVec 11) (m : BitVec 52) :
    Sign.ofBitVec (unpackSign (packComponents Format.binary64 s e m)) = s := by
  have hs : unpackSign (packComponents Format.binary64 s e m) = s.toBitVec := by
    have := e.isLt
    have := m.isLt
    refine BitVec.eq_of_toNat_eq ?_
    rw [toNat_sign, toNat_packComponents]
    simp only [signWeight, exponentWeight]
    omega
  rw [hs]
  cases s <;> rfl

/-- The digits of a normal double with the implicit one in front. -/
theorem toNat_implicit (m : BitVec 52) : (1#1 ++ m).toNat = exponentWeight + m.toNat := by
  rw [BitVec.toNat_append, ← Nat.shiftLeft_add_eq_or_of_lt m.isLt]
  rfl

theorem exponent_eq_iff (x : Float) (e : BitVec 11) :
    @unpackExponent Format.binary64 x.toModel.toBits.toBitVec = e ↔
      magnitude x / exponentWeight = e.toNat := by
  rw [← BitVec.toNat_inj, toNat_exponent]
  show x.toBits.toNat / 2 ^ 52 % 2 ^ 11 = _ ↔ _
  simp only [magnitude, signWeight, exponentWeight]
  omega

theorem mantissa_eq_zero_iff (x : Float) :
    @unpackMantissa Format.binary64 x.toModel.toBits.toBitVec = 0#_ ↔
      magnitude x % exponentWeight = 0 := by
  rw [← BitVec.toNat_inj, toNat_mantissa]
  show x.toBits.toNat % 2 ^ 52 = 0 ↔ _
  simp only [magnitude, signWeight, exponentWeight]
  omega

/-- The sign that the sign bit stands for. -/
def sign (x : Float) : Sign := if isNegative x then .negative else .positive

theorem sign_inj {x y : Float} (h : sign x = sign y) : isNegative x = isNegative y := by
  unfold sign at h
  split at h <;> split at h <;> simp_all

theorem ofBitVec_sign (x : Float) :
    Sign.ofBitVec (@unpackSign Format.binary64 x.toModel.toBits.toBitVec) = sign x := by
  have hsign : (@unpackSign Format.binary64 x.toModel.toBits.toBitVec).toNat = x.toBits.toNat / signWeight :=
    toNat_sign _
  have hbit : @unpackSign Format.binary64 x.toModel.toBits.toBitVec = 0#1 ↔ ¬ isNegative x := by
    rw [← BitVec.toNat_inj, hsign, isNegative, decide_eq_true_eq, Nat.not_le]
    show _ / _ = 0 ↔ _
    rw [Nat.div_eq_zero_iff]
    exact or_iff_right (by decide)
  simp only [Sign.ofBitVec, hbit, sign, ite_not]

/-- What a double is, by its sign and its magnitude. -/
theorem unpack_fields (x : Float) :
    (infinite < magnitude x ∧ x.toModel.unpack = .notANumber) ∨
      (magnitude x = infinite ∧ x.toModel.unpack = .infinity (sign x)) ∨
      (magnitude x = 0 ∧ x.toModel.unpack = .zero (sign x)) ∨
      (magnitude x ≠ 0 ∧ magnitude x < infinite ∧ ∃ m e h, x.toModel.unpack = .finite (sign x) m e h ∧
        magnitude x + exponentWeight = (e + 1075).toNat * exponentWeight + m) := by
  let fraction := @unpackMantissa Format.binary64 x.toModel.toBits.toBitVec
  have hlt : magnitude x < signWeight := Nat.mod_lt _ (by decide)
  have hones : _ ↔ _ = 2047 := exponent_eq_iff x (-1#11)
  have hzero : _ ↔ _ = 0 := exponent_eq_iff x 0#11
  have hexponent := (exponent_eq_iff x _).1 rfl
  have hmant := mantissa_eq_zero_iff x
  have hfraction : fraction.toNat = magnitude x % exponentWeight := by
    refine (toNat_mantissa _).trans ?_
    show x.toBits.toNat % 2 ^ 52 = _
    simp only [magnitude, signWeight, exponentWeight]
    omega
  have himplicit : (1#1 ++ fraction).toNat = exponentWeight + fraction.toNat := toNat_implicit _
  have hbias : (Format.binary64.exponentBias : Int) = 1023 := rfl
  have hsubnormal : fraction ≠ 0#52 → 0 < fraction.toNat := by
    simp [BitVec.toNat_pos, BitVec.pos_iff_ne_zero]
  have hnormal : 0 < (1#1 ++ fraction).toNat := by
    rw [himplicit]; exact Nat.add_pos_left (by decide) _
  simp only [infinite, signWeight, exponentWeight] at *
  rw [Float.Model.unpack, UnpackedFloat.unpack]
  dsimp only
  rw [ofBitVec_sign]
  split_ifs with h₁ h₂ h₃ h₄
  · exact .inr (.inl ⟨by have := hones.1 h₁; have := hmant.1 h₂; omega, rfl⟩)
  · exact .inl ⟨by have := hones.1 h₁; have := hmant.not.1 h₂; omega, rfl⟩
  · exact .inr (.inr (.inl ⟨by have := hzero.1 h₃; have := hmant.1 h₄; omega, rfl⟩))
  · have he := hzero.1 h₃
    have hm := hmant.not.1 h₄
    exact .inr (.inr (.inr ⟨by omega, by omega, _, _, hsubnormal h₄, rfl, by omega⟩))
  · have he := hzero.not.1 h₃
    have hm := hones.not.1 h₁
    exact .inr (.inr (.inr ⟨by omega, by omega, _, _, hnormal, rfl, by omega⟩))

theorem isFinite_iff {x : Float} : x.isFinite = true ↔ magnitude x < infinite := by
  show x.toModel.unpack.isFinite = true ↔ _
  rcases unpack_fields x with ⟨h, hu⟩ | ⟨h, hu⟩ | ⟨h, hu⟩ | ⟨-, h, m, e, _, hu, -⟩ <;> rw [hu]
  · exact ⟨nofun, fun h' => absurd h' h.not_gt⟩
  · exact ⟨nofun, fun h' => absurd h' h.not_lt⟩
  · exact ⟨fun _ => by rw [h]; decide, fun _ => rfl⟩
  · exact ⟨fun _ => h, fun _ => rfl⟩

theorem isNaN_iff {x : Float} : x.isNaN = true ↔ infinite < magnitude x := by
  show x.toModel.unpack.isNaN = true ↔ _
  rcases unpack_fields x with ⟨h, hu⟩ | ⟨h, hu⟩ | ⟨h, hu⟩ | ⟨-, h, m, e, _, hu, -⟩ <;> rw [hu]
  · exact ⟨fun _ => h, fun _ => rfl⟩
  · exact ⟨nofun, fun h' => absurd h h'.ne'⟩
  · exact ⟨nofun, fun h' => absurd h (Nat.ne_of_gt (Nat.zero_lt_of_lt h'))⟩
  · exact ⟨nofun, fun h' => absurd h h'.not_gt⟩

theorem isZero_iff {x : Float} : (∃ s, x.toModel.unpack = .zero s) ↔ magnitude x = 0 := by
  rcases unpack_fields x with ⟨h, hu⟩ | ⟨h, hu⟩ | ⟨h, hu⟩ | ⟨h, -, m, e, _, hu, -⟩ <;> rw [hu]
  · exact ⟨nofun, fun h' => absurd h' (Nat.ne_of_gt (Nat.zero_lt_of_lt h))⟩
  · exact ⟨nofun, fun h' => absurd (h.symm.trans h') (by decide)⟩
  · exact ⟨fun _ => h, fun _ => ⟨_, rfl⟩⟩
  · exact ⟨nofun, fun h' => absurd h' h⟩

/-! ### Equal doubles -/

/-- The sign and the magnitude of what was unpacked. -/
def packed : UnpackedFloat → Sign × Nat
  | .finite s m e _ => (s, (e + 1075).toNat * exponentWeight + m - exponentWeight)
  | .infinity s => (s, infinite)
  | .zero s => (s, 0)
  | .notANumber => (.positive, infinite + 1)

theorem unpack_inj {x y : Float} (h : x.toModel.unpack = y.toModel.unpack) (hx : x.toModel.unpack ≠ .notANumber) :
    x = y := by
  have hfields (z : Float) (hz : z.toModel.unpack ≠ .notANumber) : packed z.toModel.unpack = (sign z, magnitude z) := by
    rcases unpack_fields z with ⟨-, hu⟩ | ⟨hm, hu⟩ | ⟨hm, hu⟩ | ⟨-, -, m, e, _, hu, hm⟩
    · exact absurd hu hz
    · rw [hu, hm]; rfl
    · rw [hu, hm]; rfl
    · rw [hu, packed, Nat.sub_eq_of_eq_add hm.symm]
  obtain ⟨hs, hm⟩ := Prod.mk.inj ((hfields x hx).symm.trans (h ▸ hfields y (h ▸ hx)))
  exact eq_of_magnitude (sign_inj hs) hm

theorem compare_eq_iff {u v : UnpackedFloat} :
    (u.compare v == some .eq) = true ↔ (u = v ∧ u ≠ .notANumber) ∨ (∃ s, u = .zero s) ∧ ∃ t, v = .zero t := by
  rcases u with ⟨_ | _⟩ | _ | s | ⟨_ | _, m, e, hm⟩ <;> rcases v with ⟨_ | _⟩ | _ | t | ⟨_ | _, n, f, hn⟩ <;>
    simp [UnpackedFloat.compare, Ordering.then_eq_eq, and_comm]
  · rfl
  · rfl

/-- Doubles are equal if they are the same number, or both are zero. -/
theorem beq_iff {x y : Float} :
    (x == y) = true ↔ (x = y ∧ x.isNaN = false) ∨ magnitude x = 0 ∧ magnitude y = 0 := by
  have hnan : x.toModel.unpack ≠ .notANumber ↔ x.isNaN = false := by
    show _ ↔ x.toModel.unpack.isNaN = false
    cases x.toModel.unpack <;> simp [UnpackedFloat.isNaN]
  show (x.toModel.unpack.compare y.toModel.unpack == some .eq) = true ↔ _
  rw [compare_eq_iff, isZero_iff, isZero_iff, hnan]
  refine or_congr_left (and_congr_left fun hx => ⟨fun h => unpack_inj h (hnan.2 hx), ?_⟩)
  rintro rfl; rfl

theorem beq_zero_iff {x : Float} : (x == 0) = true ↔ magnitude x = 0 := by
  rw [beq_iff]
  refine ⟨?_, fun h => .inr ⟨h, rfl⟩⟩
  rintro (⟨rfl, -⟩ | ⟨h, -⟩)
  · rfl
  · exact h

/-- The two zeros are equal. -/
theorem zero_beq {x : Float} (h : (x == 0) = true) : (0 == x) = true :=
  beq_iff.2 (.inr ⟨rfl, beq_zero_iff.1 h⟩)

theorem beq_self_iff {x : Float} : (x == x) = true ↔ x.isNaN = false := by
  rw [beq_iff]
  refine ⟨?_, fun h => .inl ⟨rfl, h⟩⟩
  rintro (⟨-, h⟩ | ⟨h, -⟩)
  · exact h
  · exact Bool.not_eq_true _ ▸ mt isNaN_iff.1 (by rw [h]; decide)

theorem beq_self {x : Float} (h : x.isFinite) : (x == x) = true := by
  refine beq_self_iff.2 (Bool.not_eq_true _ ▸ mt isNaN_iff.1 ?_)
  exact (isFinite_iff.1 h).not_gt

/-! ### Normal doubles -/

/-- `m` has 53 binary digits, and the exponent `e` fits its field. -/
structure IsNormal (m : Nat) (e : Int) : Prop where
  lower : exponentWeight ≤ m
  upper : m < 2 * exponentWeight
  least : -1074 ≤ e
  most : e ≤ 971

namespace IsNormal

variable {m : Nat} {e : Int}

theorem pos (h : IsNormal m e) : 0 < m := Nat.lt_of_lt_of_le (by decide) h.lower

/-- The double `m * 2 ^ e` with the sign `s`. -/
def double (h : IsNormal m e) (s : Sign) : Float := .ofModel (.pack (.finite s m e h.pos))

variable (h : IsNormal m e)
include h

theorem log2_eq : m.log2 = 52 := (Nat.log2_eq_iff h.pos.ne').2 ⟨h.lower, h.upper⟩

theorem pack_eq (s : Sign) : UnpackedFloat.pack Format.binary64 (.finite s m e h.pos) =
    packComponents Format.binary64 s (BitVec.ofNat 11 (e + 1075).toNat) (BitVec.ofNat 52 m) := by
  have hmost := h.most
  have hbias : (e + Format.binary64.exponentBias + Format.binary64.mantissaBitsWithoutImplicit).toNat =
      (e + 1075).toNat := by
    simp [Format.exponentBias]; omega
  rw [UnpackedFloat.pack, hbias, h.log2_eq, if_neg (by simp; omega), if_pos (by rfl)]

theorem unpack_pack (s : Sign) : UnpackedFloat.unpack Format.binary64
    (UnpackedFloat.pack Format.binary64 (.finite s m e h.pos)) = .finite s m e h.pos := by
  obtain ⟨hlower, hupper, hleast, hmost⟩ := id h
  have hexp : (BitVec.ofNat 11 (e + 1075).toNat).toNat = (e + 1075).toNat := by
    rw [BitVec.toNat_ofNat, Nat.mod_eq_of_lt (by omega)]
  have hfield : ∀ v : BitVec 11, (e + 1075).toNat ≠ v.toNat → BitVec.ofNat 11 (e + 1075).toNat ≠ v := by
    rintro _ hne rfl
    exact hne hexp.symm
  have hones : BitVec.ofNat 11 (e + 1075).toNat ≠ -1#11 := hfield _ (by change _ ≠ 2047; omega)
  have hzero : BitVec.ofNat 11 (e + 1075).toNat ≠ 0#11 := hfield _ (by change _ ≠ 0; omega)
  have hmant : (1#1 ++ BitVec.ofNat 52 m).toNat = m := by
    rw [toNat_implicit, BitVec.toNat_ofNat]
    simp only [exponentWeight] at hlower hupper ⊢
    omega
  rw [h.pack_eq s, UnpackedFloat.unpack]
  simp only [unpackExponent_packComponents, unpackMantissa_packComponents, sign_packComponents, hones, hzero,
    if_false, hmant, hexp]
  simp [Format.exponentBias]
  omega

theorem neg_double : -h.double .positive = h.double .negative := by
  show Float.ofModel (.pack (UnpackedFloat.neg (UnpackedFloat.unpack _ (UnpackedFloat.pack _ _)))) = _
  rw [h.unpack_pack]; rfl

theorem toNat_double (s : Sign) : (h.double s).toBits.toNat =
    s.toBitVec.toNat * signWeight + (e + 1075).toNat * exponentWeight + (m - exponentWeight) := by
  obtain ⟨hlower, hupper, hleast, hmost⟩ := id h
  show (UnpackedFloat.pack Format.binary64 (.finite s m e h.pos)).toNat = _
  rw [h.pack_eq, toNat_packComponents, BitVec.toNat_ofNat, BitVec.toNat_ofNat, Nat.mod_eq_of_lt (by omega)]
  simp only [exponentWeight] at hlower hupper ⊢
  omega

theorem isNegative_double (s : Sign) : isNegative (h.double s) = (s == .negative) := by
  obtain ⟨hlower, hupper, hleast, hmost⟩ := id h
  rw [isNegative, h.toNat_double]
  simp only [exponentWeight, signWeight] at hlower hupper ⊢
  cases s with
  | negative => exact decide_eq_true (by simp [Sign.toBitVec]; omega)
  | positive => exact decide_eq_false (by simp [Sign.toBitVec]; omega)

theorem units_double (s : Sign) : units (magnitude (h.double s)) = m * 2 ^ (e + 1074).toNat := by
  obtain ⟨hlower, hupper, hleast, hmost⟩ := id h
  have hmag : magnitude (h.double s) = (e + 1075).toNat * exponentWeight + (m - exponentWeight) := by
    rw [magnitude, h.toNat_double]
    simp only [exponentWeight, signWeight] at hlower hupper ⊢
    omega
  have hdiv : magnitude (h.double s) / exponentWeight = (e + 1075).toNat := by
    rw [hmag]; simp only [exponentWeight] at hlower hupper ⊢; omega
  have hmod : magnitude (h.double s) % exponentWeight = m - exponentWeight := by
    rw [hmag]; simp only [exponentWeight] at hlower hupper ⊢; omega
  have hexp : (e + 1075).toNat - 1 = (e + 1074).toNat := by omega
  simp only [units, hdiv, hmod]
  rw [if_neg (by omega), Nat.add_sub_cancel' hlower, hexp]
  rfl

/-- Rounding leaves a normal double as it is. -/
theorem roundWithAccuracy_eq (s : Sign) :
    roundWithAccuracy Format.binary64 s m e .exact = .finite s m e h.pos := by
  have hleast := h.least
  have hshift : (Format.binary64.targetExponent (totalExponent m e) - e).toNat = 0 := by
    simp [Format.targetExponent, totalExponent, Format.mantissaBits, Format.minExponent, h.log2_eq]
    omega
  have htarget : shiftToTargetExponent Format.binary64 m e .exact = (⟨m, false, false⟩, e) := by
    simp [shiftToTargetExponent, shiftToExponent, hshift, HShiftRight.hShiftRight, Nat.repeat,
      ExtendedMantissa.ofMantissaAndAccuracy]
  simp [roundWithAccuracy, htarget, ExtendedMantissa.roundedMantissa, ExtendedMantissa.accuracy,
    Accuracy.roundToNearestEven, h.pos.ne']

end IsNormal

/-! ### Integers -/

theorem ofNat_lt {n : Nat} (hpos : 0 < n) (hn : n < maxExact) :
    ∃ m e, ∃ h : IsNormal m e, UnpackedFloat.ofNat Format.binary64 n = .finite .positive m e h.pos ∧
      m * 2 ^ (e + 1074).toNat = n * unitsOfOne := by
  have hle : n.log2 ≤ 52 := Nat.lt_succ_iff.1 ((Nat.log2_lt hpos.ne').2 hn)
  -- `n` is shifted up to 53 digits
  have hpow : 2 ^ n.log2 * 2 ^ (52 - n.log2) = exponentWeight := by
    rw [← Nat.pow_add, Nat.add_sub_cancel' hle]; rfl
  have hnormal : IsNormal (n * 2 ^ (52 - n.log2)) (n.log2 - 52) := by
    refine ⟨?_, ?_, by omega, by omega⟩
    · rw [← hpow]; exact Nat.mul_le_mul_right _ (Nat.log2_self_le hpos.ne')
    · rw [← hpow, ← Nat.mul_assoc, ← Nat.pow_succ']
      exact Nat.mul_lt_mul_of_pos_right Nat.lt_log2_self (Nat.pow_pos (by decide))
  refine ⟨_, _, hnormal, ?_, ?_⟩
  · have htarget : Format.binary64.targetExponent (totalExponent n 0) = n.log2 - 52 := by
      simp [Format.targetExponent, totalExponent, Format.mantissaBits, Format.minExponent]
      omega
    have hshift : (0 - ((n.log2 : Int) - 52)).toNat = 52 - n.log2 := by omega
    have hexp : (0 - ((52 - n.log2 : Nat) : Int)) = n.log2 - 52 := by omega
    rw [UnpackedFloat.ofNat, UnpackedFloat.ofInt, UnpackedFloat.normalize, Int.compare_eq_gt.2 (by omega)]
    simp only [UnpackedFloat.round, htarget, decreaseExponent, Int.toNat_natCast, Nat.shiftLeft_eq, hshift, hexp]
    exact hnormal.roundWithAccuracy_eq _
  · rw [Nat.mul_assoc, ← Nat.pow_add]
    congr 2
    omega

theorem ofNat_exact {n : Nat} (hpos : 0 < n) (hn : n ≤ maxExact) :
    ∃ m e, ∃ h : IsNormal m e, UnpackedFloat.ofNat Format.binary64 n = .finite .positive m e h.pos ∧
      m * 2 ^ (e + 1074).toNat = n * unitsOfOne := by
  rcases Nat.lt_or_eq_of_le hn with hn | rfl
  · exact ofNat_lt hpos hn
  · -- `maxExact` has one digit more, and ends in zero
    refine ⟨exponentWeight, 1, ⟨by decide, by decide, by decide, by decide⟩, rfl, ?_⟩
    have hexp : (1 + 1074 : Int).toNat = 1074 + 1 := rfl
    rw [hexp]
    unfold unitsOfOne
    generalize 1074 = k
    rw [Nat.pow_succ', ← Nat.mul_assoc]
    rfl

/-- The double with the value of `n` and the sign of `x` is `x`. -/
theorem eq_toFloat {x : Float} {n : Nat} (hpos : 0 < n) (hn : n ≤ maxExact)
    (hx : units (magnitude x) = n * unitsOfOne) :
    x = if isNegative x then -n.toUInt64.toFloat else n.toUInt64.toFloat := by
  obtain ⟨m, e, h, hof, hval⟩ := ofNat_exact hpos hn
  have hfloat : n.toUInt64.toFloat = h.double .positive := by
    have hsize : n.toUInt64.toNat = n := by
      simp only [maxExact] at hn
      simp; omega
    rw [IsNormal.double, ← hof, UInt64.toFloat, Float.Model.ofUInt64, UnpackedFloat.ofUInt64, hsize]
  have hmag (s : Sign) : magnitude x = magnitude (h.double s) :=
    units_strictMono.injective (by rw [h.units_double, hx, hval])
  rw [hfloat, h.neg_double]
  cases hs : isNegative x with
  | true => rw [if_pos rfl]; exact eq_of_magnitude (by rw [hs, h.isNegative_double]; rfl) (hmag _)
  | false => rw [if_neg nofun]; exact eq_of_magnitude (by rw [hs, h.isNegative_double]; rfl) (hmag _)

theorem exactInt?_eq_some_iff {x : Float} {n : Int} : exactInt? x = some n ↔
    ∃ k, k ≤ maxExact ∧ units (magnitude x) = k * unitsOfOne ∧ n = if isNegative x then -(k : Int) else k := by
  simp only [exactInt?, Option.ite_none_right_eq_some, Option.some_inj]
  constructor
  · rintro ⟨⟨hmod, hle⟩, rfl⟩
    exact ⟨_, hle, (Nat.div_mul_cancel (Nat.dvd_of_mod_eq_zero hmod)).symm, rfl⟩
  · rintro ⟨k, hk, hu, rfl⟩
    rw [hu, Nat.mul_div_cancel _ unitsOfOne_pos]
    exact ⟨⟨Nat.mul_mod_left _ _, hk⟩, rfl⟩

theorem isFinite_of_exactInt? {x : Float} {n : Int} (h : exactInt? x = some n) : x.isFinite = true := by
  obtain ⟨k, hk, hu, -⟩ := exactInt?_eq_some_iff.1 h
  have hbig : maxExact * unitsOfOne < units infinite := by decide +kernel
  rw [isFinite_iff, ← units_strictMono.lt_iff_lt, hu]
  exact Nat.lt_of_le_of_lt (Nat.mul_le_mul_right _ hk) hbig

end Double

/-! ### Numerals -/

namespace Numeral

theorem ofFloat?_isSome_iff {x : Float} : (ofFloat? x).isSome = true ↔ x.isFinite = true := by
  rw [Double.isFinite_iff, ofFloat?]
  split_ifs with hzero hfinite
  · exact ⟨fun _ => by rw [hzero]; decide, fun _ => rfl⟩
  · exact ⟨fun _ => hfinite, fun _ => rfl⟩
  · exact ⟨nofun, fun h => absurd h hfinite⟩

theorem toFloat?_whole (negative : Bool) {n : Nat} (hn : n < wordLimit) :
    (⟨negative, n, [], none⟩ : Numeral).toFloat? =
      some (if negative then -n.toUInt64.toFloat else n.toUInt64.toFloat) := by
  rw [toFloat?, shorten, if_pos hn]
  rfl

/-- An integer that is a double is read as that double. -/
theorem toFloat?_ofInt {x : Float} {n : Int} (h : Double.exactInt? x = some n) :
    (ofInt n).toFloat? = some (if x == 0 then 0 else x) := by
  obtain ⟨k, hk, hu, rfl⟩ := Double.exactInt?_eq_some_iff.1 h
  have hlimit : k < wordLimit := Nat.lt_of_le_of_lt hk (by decide)
  rcases Nat.eq_zero_or_pos k with rfl | hpos
  · have hzero : (x == 0) = true := by
      rw [Double.beq_zero_iff, ← Double.units_eq_zero_iff, hu, Nat.zero_mul]
    have hint : ofInt (if Double.isNegative x then -((0 : Nat) : Int) else (0 : Nat)) = ⟨false, 0, [], none⟩ := by
      cases Double.isNegative x <;> rfl
    rw [hzero, if_pos rfl, hint, toFloat?_whole false hlimit]
    rfl
  · have hne : ¬ (x == 0) = true := by
      rw [Double.beq_zero_iff, ← Double.units_eq_zero_iff, hu]
      exact (Nat.mul_pos hpos Double.unitsOfOne_pos).ne'
    have hint : ofInt (if Double.isNegative x then -(k : Int) else k) = ⟨Double.isNegative x, k, [], none⟩ := by
      cases Double.isNegative x <;> simp [ofInt, hpos]
    rw [if_neg hne, hint, toFloat?_whole _ hlimit, ← Double.eq_toFloat hpos hk hu]

end Numeral

end BadgeRules
