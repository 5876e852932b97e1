import BadgeRules.Proofs.Doubles

/-!
# The shortest decimal tells a double from all others

A number is nearest to one double only (`Double.Nearest.unique`). Every double is nearest to its shortest decimal
(`Decimal.nearest_shortest`): a decimal is taken only if it is read as the double, and with seventeen digits one is
found. Written out in full, the decimal keeps its value (`Numeral.size_plain`). So doubles have different numerals
unless they are equal (`Double.numeral_eq_iff`).
-/

namespace BadgeRules

/-! ### Digits -/

theorem ofDigits_append (ds es : List Digit) : ofDigits (ds ++ es) = ofDigits ds * 10 ^ es.length + ofDigits es := by
  induction es using List.reverseRecOn with
  | nil => simp [ofDigits]
  | append_singleton es e ih =>
    rw [← List.append_assoc, ofDigits_append_singleton, ih, ofDigits_append_singleton, List.length_append,
      List.length_singleton]
    ring

theorem ofDigits_replicate_zero (n : Nat) : ofDigits (List.replicate n .zero) = 0 := by
  induction n with
  | zero => rfl
  | succ n ih => rw [List.replicate_succ', ofDigits_append_singleton, ih]; rfl

theorem exists_length_digits {n : Nat} (hn : 0 < n) : ∃ k, (digits n).length = k + 1 ∧ 10 ^ k ≤ n := by
  induction n using Nat.strongRecOn with
  | _ n ih =>
    by_cases h : n < 10
    · exact ⟨0, by rw [digits_of_lt h]; rfl, hn⟩
    · obtain ⟨k, hk, hle⟩ := ih (n / 10) (by omega) (by omega)
      refine ⟨k + 1, ?_, ?_⟩
      · rw [digits_of_ge (by omega), List.length_append, hk]; rfl
      · rw [Nat.pow_succ]
        omega

/-! ### The double nearest to a number -/

namespace Double

/-- The value of magnitude bits. -/
def value (b : Nat) : ℚ := units b / unitsOfOne

theorem unitsOfOne_pos' : (0 : ℚ) < unitsOfOne := Nat.cast_pos.2 unitsOfOne_pos

theorem value_strictMono : StrictMono value := fun _ _ h =>
  div_lt_div_of_pos_right (Nat.cast_lt.2 (units_strictMono h)) unitsOfOne_pos'

/-- The neighbours of a double are not much nearer to it than its last digit is. -/
theorem units_le_gap {b : Nat} (hb : 0 < b) : units b ≤ exponentWeight * (units (b + 1) - units (b - 1)) := by
  obtain ⟨c, rfl⟩ := Nat.exists_eq_add_of_lt hb
  rw [Nat.zero_add, Nat.add_sub_cancel]
  have hgap : units (c + 1 + 1) - units c = 2 ^ (c / exponentWeight - 1) + 2 ^ ((c + 1) / exponentWeight - 1) := by
    rw [units_succ, units_succ, Nat.add_assoc, Nat.add_sub_cancel_left]
  rw [hgap]
  cases he : (c + 1) / exponentWeight with
  | zero =>
    have hc : c + 1 < exponentWeight := (Nat.div_eq_zero_iff_lt (by decide)).1 he
    rw [units, if_pos he]
    exact hc.le.trans (Nat.le_mul_of_pos_right _ (Nat.add_pos_right _ (Nat.pow_pos (by decide))))
  | succ e =>
    have hunits : units (c + 1) = (exponentWeight + (c + 1) % exponentWeight) * 2 ^ e := by
      rw [units, he, if_neg (Nat.succ_ne_zero e)]; rfl
    rw [hunits, Nat.add_sub_cancel]
    by_cases hf : (c + 1) % exponentWeight = 0
    · rw [hf, Nat.add_zero]
      exact Nat.mul_le_mul_left _ (Nat.le_add_left _ _)
    · -- the double below has the same exponent
      have hbelow : c / exponentWeight = e + 1 := by simp only [exponentWeight] at *; omega
      have hlt : (c + 1) % exponentWeight < exponentWeight := Nat.mod_lt _ (by decide)
      rw [hbelow, Nat.add_sub_cancel, ← Nat.two_mul, ← Nat.mul_assoc]
      exact Nat.mul_le_mul_right _ (by omega)

theorem value_le_gap {b : Nat} (hb : 0 < b) : value b ≤ exponentWeight * (value (b + 1) - value (b - 1)) := by
  have hle : units (b - 1) ≤ units (b + 1) := units_strictMono.monotone (by omega)
  have hgap : (units b : ℚ) ≤ exponentWeight * (units (b + 1) - units (b - 1)) := by
    rw [← Nat.cast_sub hle]
    exact_mod_cast units_le_gap hb
  rw [value, value, value, ← sub_div, ← mul_div_assoc]
  exact div_le_div_of_nonneg_right hgap unitsOfOne_pos'.le

/-- The number lies between the midpoints to the neighbours of the double with magnitude `b`. A midpoint itself
belongs to the even neighbour. -/
def Nearest (b : Nat) (q : ℚ) : Prop :=
  if b % 2 = 0 then value (b - 1) + value b ≤ 2 * q ∧ 2 * q ≤ value b + value (b + 1)
  else value (b - 1) + value b < 2 * q ∧ 2 * q < value b + value (b + 1)

variable {b c : Nat} {q : ℚ}

theorem Nearest.bounds (h : Nearest b q) : value (b - 1) + value b ≤ 2 * q ∧ 2 * q ≤ value b + value (b + 1) := by
  rw [Nearest] at h
  split at h
  · exact h
  · exact ⟨h.1.le, h.2.le⟩

theorem Nearest.even_of_eq_high (h : Nearest b q) (hq : 2 * q = value b + value (b + 1)) : b % 2 = 0 := by
  by_contra hodd
  rw [Nearest, if_neg hodd] at h
  exact h.2.ne hq

theorem Nearest.even_of_eq_low (h : Nearest b q) (hq : 2 * q = value (b - 1) + value b) : b % 2 = 0 := by
  by_contra hodd
  rw [Nearest, if_neg hodd] at h
  exact h.1.ne' hq

theorem nearest_of_lt (hlow : value (b - 1) + value b < 2 * q) (hhigh : 2 * q < value b + value (b + 1)) :
    Nearest b q := by
  rw [Nearest]
  split
  · exact ⟨hlow.le, hhigh.le⟩
  · exact ⟨hlow, hhigh⟩

theorem nearest_value (b : Nat) : Nearest b (value b) := by
  have hhigh : value b < value (b + 1) := value_strictMono (Nat.lt_succ_self b)
  rcases Nat.eq_zero_or_pos b with rfl | hb
  · rw [Nearest, if_pos rfl]
    constructor <;> linarith
  · have hlow : value (b - 1) < value b := value_strictMono (Nat.sub_lt hb Nat.one_pos)
    exact nearest_of_lt (by linarith) (by linarith)

/-- The number is not above the midpoint over the lower double, nor below the one under the upper double. These are
the same only for neighbours, and then one of the two is odd and does not have it. -/
theorem Nearest.not_lt (hb : Nearest b q) (hc : Nearest c q) : ¬ b < c := by
  intro hbc
  have hle : value b ≤ value (c - 1) := value_strictMono.monotone (by omega)
  have hle' : value (b + 1) ≤ value c := value_strictMono.monotone (by omega)
  have hhigh := hb.bounds.2
  have hlow := hc.bounds.1
  have heven := hb.even_of_eq_high (by linarith)
  have heven' := hc.even_of_eq_low (by linarith)
  have hnext : b = c - 1 := value_strictMono.injective (by linarith)
  omega

theorem Nearest.unique (hb : Nearest b q) (hc : Nearest c q) : b = c :=
  Nat.le_antisymm (Nat.le_of_not_lt (hc.not_lt hb)) (Nat.le_of_not_lt (hb.not_lt hc))

end Double

/-! ### Decimals that are read as a double -/

open Double

theorem ten_pow_div (k : Int) : (10 : ℚ) ^ k.toNat / 10 ^ (-k).toNat = 10 ^ k := by
  obtain ⟨n, rfl | rfl⟩ := k.eq_nat_or_neg
  · rw [Int.toNat_natCast, Int.toNat_neg_natCast, pow_zero, div_one, zpow_natCast]
  · rw [Int.toNat_neg_natCast, neg_neg, Int.toNat_natCast, pow_zero, one_div, zpow_neg, zpow_natCast]

namespace Decimal

variable {tie : Tie} {b m n : Nat} {point : Int}

theorem readsAs_iff {num den : Nat} (hden : 0 < den) :
    readsAs b num den = true ↔ Nearest b (num / den / unitsOfOne) := by
  have hden : (0 : ℚ) < den := Nat.cast_pos.2 hden
  have hscale (k : Nat) : (k : ℚ) / unitsOfOne ≤ 2 * (num / den / unitsOfOne) ↔ k * den ≤ 2 * num := by
    rw [← mul_div_assoc, div_le_div_iff_of_pos_right unitsOfOne_pos', ← mul_div_assoc, le_div_iff₀ hden]
    exact_mod_cast Iff.rfl
  have hscale' (k : Nat) : 2 * (num / den / unitsOfOne) ≤ (k : ℚ) / unitsOfOne ↔ 2 * num ≤ k * den := by
    rw [← mul_div_assoc, div_le_div_iff_of_pos_right unitsOfOne_pos', ← mul_div_assoc, div_le_iff₀ hden]
    exact_mod_cast Iff.rfl
  have hsum (b c : Nat) : Double.value b + Double.value c = (units b + units c : Nat) / unitsOfOne := by
    rw [Double.value, Double.value, ← add_div, Nat.cast_add]
  rw [Nearest, hsum, hsum, ← not_le (a := 2 * _), ← not_le (b := 2 * _), hscale, hscale', hscale, hscale', readsAs]
  split <;> simp only [decide_eq_true_eq, not_le]

/-- `m` steps of `10 ^ (point - n)`, as a fraction in units. -/
theorem steps_eq (point : Int) (n m : Nat) :
    ((m * (unitsOfOne * Nat.pow 10 (point - n).toNat) : Nat) / (Nat.pow 10 (n - point).toNat : Nat) / unitsOfOne : ℚ) =
      m * 10 ^ (point - n) := by
  have hone := unitsOfOne_pos'.ne'
  have hpow := ten_pow_div (point - n)
  rw [neg_sub] at hpow
  rw [← hpow]
  simp only [Nat.pow_eq, Nat.cast_mul, Nat.cast_pow, Nat.cast_ofNat]
  field_simp

theorem withDigits_nearest (h : withDigits tie b point n = some m) : Nearest b (m * 10 ^ (point - n)) := by
  have hden : 0 < Nat.pow 10 (n - point).toNat := Nat.pow_pos (by decide)
  rw [← steps_eq, ← readsAs_iff hden]
  simp only [withDigits] at h
  split at h
  · next hbelow habove =>
    split_ifs at h <;> cases h
    exacts [hbelow, habove, hbelow, habove]
  · next hbelow _ => cases h; exact hbelow
  · next _ habove => cases h; exact habove
  · cases h

/-- A quotient is not below the order that the digits of its multiple show. -/
theorem pow_digits_le {num den : Nat} (s : Nat) (hnum : 0 < num) (hden : 0 < den) (hle : den ≤ Nat.pow 10 s) :
    (10 : ℚ) ^ ((BadgeRules.digits (num * Nat.pow 10 s / den)).length - s - 1 : Int) ≤ num / den := by
  obtain ⟨v, hv⟩ : ∃ v, v = num * Nat.pow 10 s / den := ⟨_, rfl⟩
  have hpos : 0 < v := hv ▸ Nat.div_pos (hle.trans (Nat.le_mul_of_pos_left _ hnum)) hden
  obtain ⟨k, hk, hpow⟩ := exists_length_digits hpos
  have hquotient : v * den ≤ num * 10 ^ s := hv ▸ Nat.div_mul_le_self _ _
  have hexponent : ((k + 1 : Nat) - s - 1 : Int) = k - s := by push_cast; ring
  rw [← hv, hk, hexponent, zpow_sub₀ (by norm_num), zpow_natCast, zpow_natCast,
    div_le_div_iff₀ (by positivity) (Nat.cast_pos.2 hden)]
  exact_mod_cast (Nat.mul_le_mul_right den hpow).trans hquotient

theorem pow_pointOf_le (hb : 0 < b) : (10 : ℚ) ^ (pointOf b - 1) ≤ Double.value b := by
  -- under a name, so that the power is left as it is
  obtain ⟨s, hs⟩ : ∃ s : Nat, s = 324 := ⟨_, rfl⟩
  have hsmallest : unitsOfOne ≤ Nat.pow 10 s := by rw [hs]; decide +kernel
  have hint : (324 : Int) = s := by rw [hs, Nat.cast_ofNat]
  rw [pointOf, ← hs, hint]
  exact pow_digits_le s (Nat.pos_of_ne_zero (mt units_eq_zero_iff.1 hb.ne')) unitsOfOne_pos hsmallest

/-- The double lies between two neighbours with `n` digits. -/
theorem steps_bounds (b n : Nat) (point : Int) {m : Nat}
    (hm : m = units b * Nat.pow 10 (n - point).toNat / (unitsOfOne * Nat.pow 10 (point - n).toNat)) :
    m * 10 ^ (point - n) ≤ Double.value b ∧ Double.value b < (m + 1 : Nat) * 10 ^ (point - n) := by
  have hup : (0 : ℚ) < (Nat.pow 10 (n - point).toNat : Nat) := Nat.cast_pos.2 (Nat.pow_pos (by decide))
  have hstep : 0 < unitsOfOne * Nat.pow 10 (point - n).toNat := Nat.mul_pos unitsOfOne_pos (Nat.pow_pos (by decide))
  have hvalue : Double.value b = (units b * Nat.pow 10 (n - point).toNat : Nat) /
      (Nat.pow 10 (n - point).toNat : Nat) / unitsOfOne := by
    rw [Double.value, Nat.cast_mul, mul_div_cancel_right₀ _ hup.ne']
  rw [← steps_eq, ← steps_eq, hvalue, div_le_div_iff_of_pos_right unitsOfOne_pos', div_le_div_iff_of_pos_right hup,
    div_lt_div_iff_of_pos_right unitsOfOne_pos', div_lt_div_iff_of_pos_right hup, Nat.cast_le, Nat.cast_lt]
  exact ⟨hm ▸ Nat.div_mul_le_self _ _, hm ▸ Nat.lt_mul_of_div_lt (Nat.lt_succ_self _) hstep⟩

/-- With seventeen digits one of the neighbours is read as the double: their distance is smaller than that of the
midpoints around the double. -/
theorem nearest_steps (hb : 0 < b) {m : Nat} (hle : m * 10 ^ (pointOf b - maxDigits) ≤ Double.value b)
    (hlt : Double.value b < (m + 1 : Nat) * 10 ^ (pointOf b - maxDigits)) :
    Nearest b (m * 10 ^ (pointOf b - maxDigits)) ∨ Nearest b ((m + 1 : Nat) * 10 ^ (pointOf b - maxDigits)) := by
  obtain ⟨δ, hδ⟩ : ∃ δ, δ = (10 : ℚ) ^ (pointOf b - maxDigits) := ⟨_, rfl⟩
  have hpos : 0 < δ := hδ ▸ by positivity
  have horder : 10 ^ 16 * δ ≤ Double.value b := by
    refine le_of_eq_of_le ?_ (pow_pointOf_le hb)
    rw [hδ, ← zpow_natCast, ← zpow_add₀ (by norm_num)]
    congr 1
    rw [maxDigits]
    push_cast
    ring
  have hgap := value_le_gap hb
  have hprev : Double.value (b - 1) < Double.value b := value_strictMono (Nat.sub_lt hb Nat.one_pos)
  have hnext : Double.value b < Double.value (b + 1) := value_strictMono (Nat.lt_succ_self b)
  rw [← hδ] at hle hlt ⊢
  -- otherwise both midpoints lie between the neighbours, and two steps make up the gap between the doubles
  by_contra hfar
  obtain ⟨hbelow, habove⟩ := not_or.1 hfar
  have hlow : 2 * (m * δ) ≤ Double.value (b - 1) + Double.value b := by
    by_contra hlow
    exact hbelow (nearest_of_lt (not_le.1 hlow) (by linarith))
  have hhigh : Double.value b + Double.value (b + 1) ≤ 2 * ((m + 1 : Nat) * δ) := by
    by_contra hhigh
    exact habove (nearest_of_lt (by linarith) (not_le.1 hhigh))
  rw [exponentWeight] at hgap
  push_cast at hgap hhigh
  linarith

theorem withDigits_isSome (tie : Tie) (hb : 0 < b) : (withDigits tie b (pointOf b) maxDigits).isSome = true := by
  have hup : 0 < Nat.pow 10 (maxDigits - pointOf b).toNat := Nat.pow_pos (by decide)
  obtain ⟨m, hm⟩ : ∃ m, m = units b * Nat.pow 10 (maxDigits - pointOf b).toNat /
    (unitsOfOne * Nat.pow 10 (pointOf b - maxDigits).toNat) := ⟨_, rfl⟩
  obtain ⟨hle, hlt⟩ := steps_bounds b maxDigits (pointOf b) hm
  have hnear := nearest_steps hb hle hlt
  rw [← steps_eq, ← steps_eq, ← readsAs_iff hup, ← readsAs_iff hup] at hnear
  simp only [withDigits, ← hm]
  split
  · split_ifs <;> rfl
  · rfl
  · rfl
  · next hbelow habove => rw [hbelow, habove] at hnear; exact hnear.elim nofun nofun

/-- `0.d₁d₂… * 10 ^ point`. -/
def value (d : Decimal) : ℚ := ofDigits d.digits * 10 ^ (d.point - d.digits.length)

theorem value_ofSteps (m : Nat) (e : Int) : (ofSteps m e).value = m * 10 ^ e := by
  obtain ⟨k, hk⟩ : ∃ k, BadgeRules.digits m = (ofSteps m e).digits ++ List.replicate k .zero := by
    have hsplit := congrArg List.reverse
      (List.takeWhile_append_dropWhile (p := fun d => decide (d = Digit.zero)) (l := (BadgeRules.digits m).reverse))
    rw [List.reverse_append, List.reverse_reverse] at hsplit
    refine ⟨_, hsplit.symm.trans (congrArg _ (List.eq_replicate_iff.2 ⟨rfl, fun d hd => ?_⟩))⟩
    have hzero := List.mem_takeWhile_imp (List.mem_reverse.1 hd)
    exact decide_eq_true_iff.1 hzero
  have hvalue := ofDigits_digits m
  rw [hk, ofDigits_append, ofDigits_replicate_zero, List.length_replicate, Nat.add_zero] at hvalue
  have hpoint : (ofSteps m e).point - (ofSteps m e).digits.length = k + e := by
    rw [show (ofSteps m e).point = (BadgeRules.digits m).length + e from rfl, hk, List.length_append,
      List.length_replicate]
    push_cast
    ring
  have hcast : (ofDigits (ofSteps m e).digits : ℚ) * 10 ^ k = m := by exact_mod_cast hvalue
  rw [value, hpoint, zpow_add₀ (by norm_num), zpow_natCast, ← mul_assoc, hcast]

/-- The double is nearest to its shortest decimal. -/
theorem nearest_shortest (tie : Tie) (hb : 0 < b) : Nearest b (shortest tie b).value := by
  have hfound : ((List.range' 1 maxDigits).findSome? fun n =>
      (withDigits tie b (pointOf b) n).map fun m => ofSteps m (pointOf b - n)).isSome = true := by
    rw [List.findSome?_isSome_iff]
    exact ⟨maxDigits, by decide, by rw [Option.isSome_map]; exact withDigits_isSome tie hb⟩
  obtain ⟨d, hd⟩ := Option.isSome_iff_exists.1 hfound
  obtain ⟨n, -, hn⟩ := List.exists_of_findSome?_eq_some hd
  obtain ⟨m, hm, rfl⟩ := Option.map_eq_some_iff.1 hn
  rw [shortest, hd, Option.getD_some, value_ofSteps]
  exact withDigits_nearest hm

end Decimal

namespace Numeral

/-- The number without its sign and its exponent. -/
def size (n : Numeral) : ℚ := n.whole + ofDigits n.fraction / 10 ^ n.fraction.length

theorem size_plain (negative : Bool) (d : Decimal) : (d.plain negative).size = d.value := by
  obtain ⟨ds, point⟩ := d
  by_cases hpoint : point ≤ 0
  · obtain ⟨k, rfl⟩ := Int.exists_eq_neg_ofNat hpoint
    rw [Decimal.plain, if_pos hpoint, size, Decimal.value, ofDigits_append, ofDigits_replicate_zero,
      List.length_append, List.length_replicate]
    have hexponent : (-(k : Int) - ds.length) = -((k + ds.length : Nat) : Int) := by push_cast; ring
    simp only [Int.neg_neg, Int.toNat_natCast, hexponent, zpow_neg, zpow_natCast]
    rw [Nat.cast_zero, zero_add, Nat.zero_mul, Nat.zero_add, div_eq_mul_inv]
  · obtain ⟨n, rfl⟩ := Int.eq_ofNat_of_zero_le (Int.not_le.1 hpoint).le
    rw [Decimal.plain, if_neg hpoint, size, Decimal.value]
    simp only [Int.toNat_natCast, ofDigits_append, ofDigits_replicate_zero, List.length_drop, List.length_replicate,
      Nat.add_zero]
    rcases Nat.le_total ds.length n with hlen | hlen
    · obtain ⟨k, rfl⟩ := Nat.exists_eq_add_of_le hlen
      have hexponent : ((ds.length + k : Nat) - ds.length : Int) = k := by push_cast; ring
      rw [List.take_of_length_le hlen, List.drop_of_length_le hlen, Nat.add_sub_cancel_left, hexponent, zpow_natCast]
      simp [ofDigits]
    · obtain ⟨k, hk⟩ := Nat.exists_eq_add_of_le hlen
      have hexponent : ((n : Int) - (n + k : Nat)) = -(k : Int) := by push_cast; ring
      have hsplit := congrArg ofDigits (List.take_append_drop n ds)
      rw [ofDigits_append, List.length_drop, hk, Nat.add_sub_cancel_left] at hsplit
      rw [hk, Nat.sub_eq_zero_of_le (Nat.le_add_right n k), Nat.add_sub_cancel_left, hexponent, zpow_neg,
        zpow_natCast, ← hsplit]
      push_cast
      field_simp

theorem size_ofInt (n : Int) : (ofInt n).size = n.natAbs := by
  rw [size, ofInt, ofDigits, List.foldl_nil, Nat.cast_zero, zero_div, add_zero]

end Numeral

/-! ### The numeral of a double -/

namespace Double

variable {x y : Float}

/-- How a finite double is written in a summary. -/
def numeral (x : Float) : Numeral :=
  match exactInt? x with
  | some n => .ofInt n
  | none => (Decimal.shortest .up (magnitude x)).plain (isNegative x)

theorem exactInt?_of_zero (h : magnitude x = 0) : exactInt? x = some 0 :=
  exactInt?_eq_some_iff.2 ⟨0, Nat.zero_le _, by rw [h, units_eq_zero_iff.2 rfl, Nat.zero_mul], by simp⟩

/-- The double is nearest to what is written. -/
theorem nearest_numeral (x : Float) : Nearest (magnitude x) (numeral x).size := by
  rw [numeral]
  cases hint : exactInt? x with
  | some n =>
    obtain ⟨k, -, hunits, rfl⟩ := exactInt?_eq_some_iff.1 hint
    have hvalue : value (magnitude x) = k := by
      rw [value, hunits, Nat.cast_mul, mul_div_cancel_right₀ _ unitsOfOne_pos'.ne']
    have habs : (if isNegative x then -(k : Int) else k).natAbs = k := by
      cases isNegative x <;> simp
    simp only [Numeral.size_ofInt, habs, ← hvalue]
    exact nearest_value _
  | none =>
    have hpos : 0 < magnitude x := Nat.pos_of_ne_zero fun hzero => by
      rw [exactInt?_of_zero hzero] at hint
      cases hint
    simp only [Numeral.size_plain]
    exact Decimal.nearest_shortest .up hpos

/-- Zero is written without a sign. -/
theorem negative_numeral (hx : magnitude x ≠ 0) : (numeral x).negative = isNegative x := by
  rw [numeral]
  cases hint : exactInt? x with
  | some n =>
    obtain ⟨k, -, hunits, rfl⟩ := exactInt?_eq_some_iff.1 hint
    have hpos : 0 < k := Nat.pos_of_ne_zero fun hk => hx (units_eq_zero_iff.1 (by rw [hunits, hk, Nat.zero_mul]))
    cases hs : isNegative x <;> simp [Numeral.ofInt, hpos]
  | none =>
    simp only [Decimal.plain]
    split <;> rfl

/-- Doubles are told apart by their numerals, all but the two zeros. -/
theorem numeral_eq_iff (hx : x.isFinite = true) : numeral x = numeral y ↔ (x == y) = true := by
  rw [beq_iff]
  constructor
  · intro h
    have hmag : magnitude x = magnitude y := (nearest_numeral x).unique (h ▸ nearest_numeral y)
    by_cases hzero : magnitude x = 0
    · exact .inr ⟨hzero, hmag ▸ hzero⟩
    · have hsign : isNegative x = isNegative y := by
        rw [← negative_numeral hzero, h, negative_numeral (hmag ▸ hzero)]
      exact .inl ⟨eq_of_magnitude hsign hmag, beq_self_iff.1 (beq_self hx)⟩
  · rintro (⟨rfl, -⟩ | ⟨hzero, hzero'⟩)
    · rfl
    · rw [numeral, numeral, exactInt?_of_zero hzero, exactInt?_of_zero hzero']

end Double

end BadgeRules
