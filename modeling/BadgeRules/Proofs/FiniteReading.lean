import BadgeRules.Proofs.Doubles

/-!
# What is read for a numeral is finite

A number is packed as a finite double if its exponent fits the field (`Double.isFinite_pack`), and it does after
rounding if all digits stand below `2 ^ 1023` (`Double.fits_roundWithAccuracy`). No quotient by a double that
is `2` or larger has a digit above that, and products that become infinite are refused. So what is read
for a numeral is finite (`Numeral.isFinite_toFloat?`).
-/

namespace BadgeRules
open Float.Model Float.Model.UnpackedFloat

namespace Double

/-! ### Digits -/

theorem log2_div_pow (m k : Nat) : (m / 2 ^ k).log2 = m.log2 - k := by
  simp only [Nat.log2_eq_log_two, Nat.log_div_base_pow]

theorem log2_mono {m n : Nat} (h : m ≤ n) : m.log2 ≤ n.log2 := by
  simp only [Nat.log2_eq_log_two]
  exact Nat.log_mono_right h

theorem log2_mul_pow_le (m k : Nat) : (m * 2 ^ k).log2 ≤ m.log2 + k := by
  rcases Nat.eq_zero_or_pos m with rfl | hm
  · simp
  · have hpos : m * 2 ^ k ≠ 0 := (Nat.mul_pos hm (Nat.two_pow_pos k)).ne'
    have hlt : m * 2 ^ k < 2 ^ (m.log2 + k + 1) := by
      rw [Nat.add_right_comm, Nat.pow_add]
      exact Nat.mul_lt_mul_of_pos_right Nat.lt_log2_self (Nat.two_pow_pos k)
    exact Nat.lt_succ_iff.1 ((Nat.log2_lt hpos).2 hlt)

theorem log2_div_le (m : Nat) {n : Nat} (hn : 0 < n) : (m / n).log2 ≤ m.log2 - n.log2 := by
  rw [← log2_div_pow]
  exact log2_mono (Nat.div_le_div_left (Nat.log2_self_le hn.ne') (Nat.two_pow_pos _))

theorem log2_succ_le (m : Nat) : (m + 1).log2 ≤ m.log2 + 1 := by
  have hlt : m + 1 < 2 ^ (m.log2 + 2) := by
    have hm : m < 2 ^ (m.log2 + 1) := Nat.lt_log2_self
    rw [Nat.pow_succ']
    omega
  exact Nat.lt_succ_iff.1 ((Nat.log2_lt m.succ_ne_zero).2 hlt)

/-! ### Packing -/

/-- Zero, or a number with an exponent that has room in a double. -/
def Fits : UnpackedFloat → Prop
  | .zero _ => True
  | .finite _ _ e _ => e ≤ 971
  | _ => False

theorem pack_finite (s : Sign) (m : Nat) (e : Int) (hm : 0 < m) :
    UnpackedFloat.pack Format.binary64 (.finite s m e hm) =
      if 971 < e then packedInfinity Format.binary64 s
      else if m.log2 = 52 then packComponents Format.binary64 s (BitVec.ofNat 11 (e + 1075).toNat) (BitVec.ofNat 52 m)
      else packComponents Format.binary64 s 0#11 (BitVec.ofNat 52 m) := by
  have hbias : (e + Format.binary64.exponentBias + Format.binary64.mantissaBitsWithoutImplicit).toNat =
      (e + 1075).toNat := by
    simp [Format.exponentBias]; omega
  have hlarge : 2 ^ Format.binary64.exponentBits ≤ (e + 1075).toNat + 1 ↔ 971 < e := by
    show 2048 ≤ _ ↔ _
    omega
  have hnormal : m.log2 + 1 = Format.binary64.mantissaBits ↔ m.log2 = 52 := by
    show _ = 53 ↔ _
    omega
  rw [UnpackedFloat.pack, hbias]
  simp only [hlarge, hnormal]

theorem isFinite_pack {u : UnpackedFloat} (h : Fits u) : (Float.ofModel (.pack u)).isFinite = true := by
  rcases u with s | _ | s | ⟨s, m, e, hm⟩
  · exact h.elim
  · exact h.elim
  · cases s <;> rfl
  · have he : ¬ 971 < e := h.not_gt
    have hfield (v : BitVec 11) (hv : v.toNat < 2047) :
        (packComponents Format.binary64 s v (BitVec.ofNat 52 m)).toNat % signWeight < infinite := by
      have hf := (BitVec.ofNat 52 m).isLt
      rw [toNat_packComponents]
      simp only [signWeight, exponentWeight, infinite]
      omega
    rw [isFinite_iff]
    show (UnpackedFloat.pack Format.binary64 (.finite s m e hm)).toNat % signWeight < infinite
    rw [pack_finite, if_neg he]
    split
    · refine hfield _ ?_
      rw [BitVec.toNat_ofNat, Nat.mod_eq_of_lt (by omega)]
      omega
    · exact hfield _ (by decide)

/-- What has no room in a double becomes infinite. -/
theorem isFinite_pack_of_isInf {u : UnpackedFloat} (h : u.isNaN = false)
    (hinf : (Float.ofModel (.pack u)).isInf = false) : (Float.ofModel (.pack u)).isFinite = true := by
  rcases u with s | _ | s | ⟨s, m, e, hm⟩
  · cases s <;> exact absurd hinf (by decide)
  · cases h
  · exact isFinite_pack trivial
  · by_cases he : 971 < e
    · have hpack := pack_finite s m e hm
      rw [if_pos he] at hpack
      have hbig : (UnpackedFloat.unpack Format.binary64 (packedInfinity Format.binary64 s)).isInf = false := by
        rw [← hpack]; exact hinf
      cases s <;> exact absurd hbig (by decide)
    · exact isFinite_pack (u := .finite s m e hm) (Int.not_lt.1 he)

/-- No double has more than 53 digits, and its exponent fits. -/
theorem unpack_bounds {x : Float} {s : Sign} {m : Nat} {e : Int} {hm : 0 < m}
    (h : x.toModel.unpack = .finite s m e hm) : e ≤ 971 ∧ m.log2 ≤ 52 := by
  rw [Float.Model.unpack, UnpackedFloat.unpack] at h
  generalize x.toModel.toBits.toBitVec = b at h
  have hexp : (@unpackExponent Format.binary64 b).toNat < 2048 := (@unpackExponent Format.binary64 b).isLt
  have hmant : (@unpackMantissa Format.binary64 b).toNat < 2 ^ 52 := (@unpackMantissa Format.binary64 b).isLt
  have hbias : (Format.binary64.exponentBias : Int) = 1023 := rfl
  dsimp only at h
  split_ifs at h with hones _ hzero _ <;> injection h with _ hdigits hexponent
  · -- a subnormal double
    have hfield : (@unpackExponent Format.binary64 b).toNat = 0 := congrArg BitVec.toNat hzero
    subst hdigits hexponent
    exact ⟨by omega, Nat.lt_succ_iff.1 ((Nat.log2_lt hm.ne').2 (hmant.trans (by decide)))⟩
  · have hfield : (@unpackExponent Format.binary64 b).toNat ≠ 2047 := fun h => hones (BitVec.toNat_inj.1 h)
    have hlt : (1#1 ++ @unpackMantissa Format.binary64 b).toNat < 2 ^ 53 := (1#1 ++ @unpackMantissa Format.binary64 b).isLt
    subst hdigits hexponent
    exact ⟨by omega, Nat.lt_succ_iff.1 ((Nat.log2_lt hm.ne').2 hlt)⟩

/-! ### Rounding -/

theorem mantissa_shift (d : ExtendedMantissa) (k : Nat) : (d >>> k).mantissa = d.mantissa / 2 ^ k := by
  induction k with
  | zero => exact (Nat.div_one _).symm
  | succ k ih =>
    show (d >>> k).mantissa / 2 = _
    rw [ih, Nat.div_div_eq_div_mul, Nat.pow_succ]

/-- How many digits of `m * 2 ^ e` there is no room for. -/
def excess (m : Nat) (e : Int) : Nat := (Format.binary64.targetExponent (totalExponent m e) - e).toNat

theorem excess_eq (m : Nat) (e : Int) : (excess m e : Int) = max 0 (max ((m.log2 : Int) - 52) (-1074 - e)) := by
  have htarget (t : Int) : Format.binary64.targetExponent t = max (t - 53) (-1074) := rfl
  simp only [excess, htarget, totalExponent]
  omega

theorem mantissa_shiftToTarget (m : Nat) (e : Int) (a : Accuracy) :
    (shiftToTargetExponent Format.binary64 m e a).1.mantissa = m / 2 ^ excess m e := by
  have hm : (ExtendedMantissa.ofMantissaAndAccuracy m a).mantissa = m := by
    rcases a with _ | ⟨_ | _ | _⟩ <;> rfl
  rw [shiftToTargetExponent, shiftToExponent, mantissa_shift, hm]
  rfl

theorem roundedMantissa_cases (d : ExtendedMantissa) :
    d.roundedMantissa = d.mantissa ∨ d.roundedMantissa = d.mantissa + 1 := by
  obtain ⟨m, round, sticky⟩ := d
  cases round <;> cases sticky <;>
    simp [ExtendedMantissa.roundedMantissa, ExtendedMantissa.accuracy, Accuracy.roundToNearestEven]
  omega

/-- The digits that there is room for are kept, or the number they make is one more. A carry into a further
digit is shifted out again. -/
theorem roundWithAccuracy_spec (s : Sign) (m : Nat) (e : Int) (a : Accuracy) :
    ∃ r, (r = m / 2 ^ excess m e ∨ r = m / 2 ^ excess m e + 1) ∧
      roundWithAccuracy Format.binary64 s m e a =
        if h : r / 2 ^ excess r (e + excess m e) = 0 then .zero s
        else .finite s (r / 2 ^ excess r (e + excess m e)) (e + excess m e + excess r (e + excess m e))
          (Nat.pos_of_ne_zero h) := by
  refine ⟨(shiftToTargetExponent Format.binary64 m e a).1.roundedMantissa, ?_, ?_⟩
  · rw [← mantissa_shiftToTarget m e a]
    exact roundedMantissa_cases _
  · rw [roundWithAccuracy]
    simp only [← mantissa_shiftToTarget _ _ .exact]
    rfl

/-- A carry makes the number one digit longer at most. -/
theorem fits_roundWithAccuracy (s : Sign) {m : Nat} {e : Int} (a : Accuracy) (he : e ≤ 971)
    (h : totalExponent m e ≤ 1023) : Fits (roundWithAccuracy Format.binary64 s m e a) := by
  obtain ⟨r, hr, hround⟩ := roundWithAccuracy_spec s m e a
  have hlog : r.log2 ≤ m.log2 - excess m e + 1 := by
    rw [← log2_div_pow]
    rcases hr with rfl | rfl
    · exact Nat.le_succ _
    · exact log2_succ_le _
  rw [hround]
  split
  · trivial
  · show e + excess m e + excess r (e + excess m e) ≤ 971
    rw [totalExponent] at h
    have hm := excess_eq m e
    have hr := excess_eq r (e + excess m e)
    omega

/-- A number with 53 digits or more is rounded to a normal double, which reaches as high. -/
theorem isNormal_roundWithAccuracy (s : Sign) {m : Nat} {e : Int} (a : Accuracy) (hm : 52 ≤ m.log2) (he : -1074 ≤ e)
    (h : totalExponent m e ≤ 1023) : ∃ m' e', ∃ h : IsNormal m' e',
      roundWithAccuracy Format.binary64 s m e a = .finite s m' e' h.pos ∧ totalExponent m e ≤ totalExponent m' e' := by
  obtain ⟨r, hr, hround⟩ := roundWithAccuracy_spec s m e a
  rw [totalExponent] at h
  have hm₁ := excess_eq m e
  have hr₁ := excess_eq r (e + excess m e)
  have hkept : (m / 2 ^ excess m e).log2 = 52 := by rw [log2_div_pow]; omega
  have hlog : r.log2 = 52 ∨ r.log2 = 53 := by
    rcases hr with rfl | rfl
    · exact .inl hkept
    · have := log2_mono (Nat.le_add_right (m / 2 ^ excess m e) 1)
      have := log2_succ_le (m / 2 ^ excess m e)
      omega
  generalize excess r (e + excess m e) = k at *
  have hdigits : (r / 2 ^ k).log2 = 52 := by rw [log2_div_pow]; omega
  have hne : r / 2 ^ k ≠ 0 := by
    intro hzero
    rw [hzero] at hdigits
    cases hdigits
  obtain ⟨hlower, hupper⟩ := (Nat.log2_eq_iff hne).1 hdigits
  have hnormal : IsNormal (r / 2 ^ k) (e + excess m e + k) := ⟨hlower, hupper, by omega, by omega⟩
  refine ⟨_, _, hnormal, by rw [hround, dif_neg hne], ?_⟩
  rw [totalExponent, totalExponent, hdigits]
  omega

/-! ### Operations -/

theorem isFinite_toFloat (n : UInt64) : n.toFloat.isFinite = true := by
  have hn : n.toNat < 2 ^ 64 := n.toNat_lt
  rcases Nat.eq_zero_or_pos n.toNat with hzero | hpos
  · obtain rfl : n = 0 := UInt64.toNat_inj.1 hzero
    rfl
  · show (Float.ofModel (.pack (normalize Format.binary64 n.toNat 0 .positive))).isFinite = true
    have hlog : n.toNat.log2 < 64 := (Nat.log2_lt hpos.ne').2 hn
    rw [UnpackedFloat.normalize, Int.compare_eq_gt.2 (by omega)]
    dsimp only
    rw [Int.toNat_natCast, UnpackedFloat.round]
    refine isFinite_pack (fits_roundWithAccuracy _ _ (by omega) ?_)
    have hshift := log2_mul_pow_le n.toNat
      (0 - Format.binary64.targetExponent (totalExponent n.toNat 0)).toNat
    simp only [totalExponent, Nat.shiftLeft_eq] at hshift ⊢
    omega

theorem finite_cases {x : Float} (h : x.isFinite = true) : (∃ s, x.toModel.unpack = .zero s) ∨
    ∃ s m e hm, x.toModel.unpack = .finite s m e hm := by
  have hx : x.toModel.unpack.isFinite = true := h
  cases hu : x.toModel.unpack with
  | infinity s => rw [hu] at hx; cases hx
  | notANumber => rw [hu] at hx; cases hx
  | zero s => exact .inl ⟨s, rfl⟩
  | finite s m e hm => exact .inr ⟨s, m, e, hm, rfl⟩

theorem isFinite_neg {x : Float} (h : x.isFinite = true) : (-x).isFinite = true := by
  refine isFinite_pack (u := x.toModel.unpack.neg) ?_
  rcases finite_cases h with ⟨s, hu⟩ | ⟨s, m, e, hm, hu⟩
  · rw [hu]; trivial
  · rw [hu]; exact (unpack_bounds hu).1

theorem isFinite_mul {x y : Float} (hx : x.isFinite = true) (hy : y.isFinite = true)
    (h : (x * y).isInf = false) : (x * y).isFinite = true := by
  refine isFinite_pack_of_isInf (u := UnpackedFloat.mul Format.binary64 x.toModel.unpack y.toModel.unpack) ?_ h
  rcases finite_cases hx with ⟨s, hu⟩ | ⟨s, m, e, hm, hu⟩ <;>
    rcases finite_cases hy with ⟨s', hu'⟩ | ⟨s', m', e', hm', hu'⟩ <;> rw [hu, hu']
  · rfl
  · rfl
  · rfl
  · rw [UnpackedFloat.mul, roundWithAccuracy]
    dsimp only
    split <;> rfl

/-- Whether the double is `2` or larger, or `-2` or smaller. -/
def isLarge (x : Float) : Bool :=
  match x.toModel.unpack with
  | .finite _ m e _ => 2 ≤ totalExponent m e
  | _ => false

theorem isLarge_iff {x : Float} : isLarge x = true ↔
    ∃ s m e hm, x.toModel.unpack = .finite s m e hm ∧ 2 ≤ totalExponent m e := by
  unfold isLarge
  cases x.toModel.unpack with
  | finite s m e hm => simp [hm]
  | _ => simp

theorem isFinite_of_isLarge {x : Float} (h : isLarge x = true) : x.isFinite = true := by
  obtain ⟨s, m, e, hm, hu, -⟩ := isLarge_iff.1 h
  show x.toModel.unpack.isFinite = true
  rw [hu]; rfl

theorem isFinite_div {x y : Float} (hx : x.isFinite = true) (hy : isLarge y = true) : (x / y).isFinite = true := by
  obtain ⟨s', m', e', hm', hu', hlarge⟩ := isLarge_iff.1 hy
  refine isFinite_pack (u := UnpackedFloat.div Format.binary64 x.toModel.unpack y.toModel.unpack) ?_
  rcases finite_cases hx with ⟨s, hu⟩ | ⟨s, m, e, hm, hu⟩
  · rw [hu, hu']; trivial
  · obtain ⟨he, hlog⟩ := unpack_bounds hu
    rw [hu, hu', UnpackedFloat.div, divCore]
    have htarget (t : Int) : Format.binary64.targetExponent t = max (t - 53) (-1074) := rfl
    simp only [htarget, totalExponent, Nat.shiftLeft_eq] at hlarge ⊢
    -- the quotient has the digits of `m`, those added to it, and not those of `m'`
    generalize ht : min (e - e') _ = t
    have hdigits : (m * 2 ^ (e - e' - t).toNat / m').log2 ≤ m.log2 + (e - e' - t).toNat - m'.log2 :=
      (log2_div_le _ hm').trans (Nat.sub_le_sub_right (log2_mul_pow_le _ _) _)
    refine fits_roundWithAccuracy _ _ (by omega) ?_
    rw [totalExponent]
    omega

end Double

/-! ### Numerals -/

namespace Numeral

theorem power_eq {n : Nat} (hlow : 22 < n) (hhigh : n ≤ maxPower) : power n =
    .ofModel (.pack (roundWithAccuracy Format.binary64 .positive (10 ^ n * 2 ^ 53) (-53) .exact)) := by
  rw [power, Float.ofScientific, dif_neg (by omega)]
  show Float.ofModel (.pack (UnpackedFloat.ofScientific Format.binary64 1 n)) = _
  have hlarge : ¬ (n : Int) > 2 ^ Format.binary64.exponentBits := by
    show ¬ (n : Int) > 2048
    simp only [maxPower] at hhigh
    omega
  have hsmall : ¬ (n : Int) < -((2 ^ Format.binary64.exponentBits : Int) + (1 : Nat).log2) := by
    show ¬ (n : Int) < -(2048 + 0)
    omega
  rw [UnpackedFloat.ofScientific, dif_neg Nat.one_ne_zero, if_neg hlarge, if_neg hsmall, if_pos n.cast_nonneg,
    UnpackedFloat.mul, Int.toNat_natCast, Nat.mul_comm]
  rfl

theorem log2_power_le (n : Nat) : (10 ^ n).log2 ≤ 10 * ((n + 2) / 3) := by
  have hten : 10 ^ n ≤ 2 ^ (10 * ((n + 2) / 3)) := calc
    10 ^ n ≤ 10 ^ (3 * ((n + 2) / 3)) := Nat.pow_le_pow_right (by decide) (by omega)
    _ = (10 ^ 3) ^ ((n + 2) / 3) := Nat.pow_mul ..
    _ ≤ (2 ^ 10) ^ ((n + 2) / 3) := Nat.pow_le_pow_left (by decide) _
    _ = 2 ^ (10 * ((n + 2) / 3)) := (Nat.pow_mul ..).symm
  exact (Double.log2_mono hten).trans_eq Nat.log2_two_pow

/-- Powers that are not rounded, and those close to the limit, are looked at one by one. -/
theorem isLarge_power {n : Nat} (hpos : 0 < n) (hn : n ≤ maxPower) :
    Double.isLarge (power n) = true := by
  by_cases hrounded : 22 < n ∧ n ≤ 300
  · have htwo : 2 ≤ 10 ^ n := (by decide : 2 ≤ 10 ^ 1).trans (Nat.pow_le_pow_right (by decide) hpos)
    have hlower : 54 ≤ (10 ^ n * 2 ^ 53).log2 := (Nat.le_log2 (by omega)).2 (by omega)
    have hupper : (10 ^ n * 2 ^ 53).log2 ≤ 1000 + 53 :=
      (Double.log2_mul_pow_le _ _).trans (Nat.add_le_add_right ((log2_power_le n).trans (by omega)) _)
    obtain ⟨m, e, h, hround, hle⟩ :=
      Double.isNormal_roundWithAccuracy .positive (m := 10 ^ n * 2 ^ 53) (e := -53) .exact (by omega) (by decide)
        (by rw [totalExponent]; omega)
    refine Double.isLarge_iff.2 ⟨.positive, m, e, h.pos, ?_, ?_⟩
    · rw [power_eq hrounded.1 hn, hround]
      exact h.unpack_pack .positive
    · rw [totalExponent] at hle
      omega
  · have hall : ∀ n ≤ maxPower, 0 < n → ¬ (22 < n ∧ n ≤ 300) → Double.isLarge (power n) = true := by
      decide +kernel
    exact hall n hn hpos hrounded

theorem isFinite_shrink {x : Float} {n : Nat} (hx : x.isFinite = true) (hn : 0 < n) :
    (shrink x n).isFinite = true := by
  fun_induction shrink x n with
  | case1 x n hle => exact Double.isFinite_div hx (isLarge_power hn hle)
  | case2 x n hlt hzero => exact hx
  | case3 x n hlt hne ih => exact ih (Double.isFinite_div hx (isLarge_power (by decide) (Nat.le_refl _))) (by omega)

theorem isFinite_scale {x y : Float} {e : Int} (hx : x.isFinite = true) (h : scale x e = some y) :
    y.isFinite = true := by
  unfold scale at h
  split at h
  · cases h; exact hx
  · rename_i n hne
    dsimp only at h
    split_ifs at h with hle hinf hzero <;> cases h
    · have hpower := Double.isFinite_of_isLarge (isLarge_power (Nat.pos_of_ne_zero fun h => hne (by rw [h])) hle)
      exact Double.isFinite_mul hx hpower (by simpa using hinf)
    · exact hx
  · cases h; exact isFinite_shrink hx (Nat.succ_pos _)

/-- Whatever is read for a numeral is finite. -/
theorem isFinite_toFloat? {n : Numeral} {x : Float} (h : n.toFloat? = some x) : x.isFinite = true := by
  rw [toFloat?] at h
  obtain ⟨y, hy, rfl⟩ := Option.map_eq_some_iff.1 h
  have hfinite := isFinite_scale (Double.isFinite_toFloat _) hy
  split
  · exact Double.isFinite_neg hfinite
  · exact hfinite

end Numeral

end BadgeRules
