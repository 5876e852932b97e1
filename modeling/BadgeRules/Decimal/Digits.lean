/-!
# Decimal digits

`digits n` writes a natural number with the most significant digit first and no leading zero;
`ofDigits` reads such a list back (`ofDigits_digits`).
-/

namespace BadgeRules

abbrev Digit := Fin 10

namespace Digit

def zero : Digit := ⟨0, by decide⟩

def char (d : Digit) : Char := Char.ofNat (48 + d.val)

def ofChar? (c : Char) : Option Digit :=
  if h : 48 ≤ c.toNat ∧ c.toNat < 58 then some ⟨c.toNat - 48, by omega⟩ else none

theorem ofChar?_char : ∀ d : Digit, ofChar? d.char = some d := by decide

def span : List Char → List Digit × List Char
  | [] => ([], [])
  | c :: cs =>
    match ofChar? c with
    | some d => let (ds, rest) := span cs; (d :: ds, rest)
    | none => ([], c :: cs)

/-- Nothing is lost: the digits and the rest make up the text. -/
theorem span_length (cs : List Char) : (span cs).1.length + (span cs).2.length = cs.length := by
  induction cs with
  | nil => rfl
  | cons c cs ih =>
    unfold span
    cases ofChar? c with
    | none => simp
    | some d => simp only [List.length_cons]; omega

theorem length_span_le (cs : List Char) : (span cs).2.length ≤ cs.length := by
  have := span_length cs; omega

/-- Digits are split off up to the first character that is none. -/
theorem span_append (ds : List Digit) {rest : List Char}
    (h : ∀ c ∈ rest.head?, ofChar? c = none) :
    span (ds.map char ++ rest) = (ds, rest) := by
  induction ds with
  | nil =>
    cases rest with
    | nil => rfl
    | cons c cs => simp [span, h c (by simp)]
  | cons d ds ih => simp [span, ofChar?_char, ih]

end Digit

/-- The number that a list of digits writes, the most significant digit first. -/
def ofDigits (ds : List Digit) : Nat := ds.foldl (fun n d => 10 * n + d.val) 0

/-- The digits of `n` in front of `ds`. -/
def digitsOnto (n : Nat) (ds : List Digit) : List Digit :=
  let d : Digit := ⟨n % 10, Nat.mod_lt n (by decide)⟩
  if n < 10 then d :: ds else digitsOnto (n / 10) (d :: ds)
termination_by n
decreasing_by omega

/-- The decimal digits of `n`, the most significant first, without leading zeros. -/
def digits (n : Nat) : List Digit := digitsOnto n []

theorem digitsOnto_append (n : Nat) (ds es : List Digit) :
    digitsOnto n (ds ++ es) = digitsOnto n ds ++ es := by
  fun_induction digitsOnto n ds with
  | case1 n ds d h => rw [digitsOnto, if_pos h]; rfl
  | case2 n ds d h ih => rw [digitsOnto, if_neg h]; exact ih

theorem digitsOnto_eq_append (n : Nat) (ds : List Digit) : digitsOnto n ds = digits n ++ ds :=
  digitsOnto_append n [] ds

theorem ofDigits_append_singleton (ds : List Digit) (d : Digit) :
    ofDigits (ds ++ [d]) = 10 * ofDigits ds + d.val := by
  simp [ofDigits]

theorem digits_of_lt {n : Nat} (h : n < 10) : digits n = [⟨n, h⟩] := by
  rw [digits, digitsOnto, if_pos h]
  simp [Nat.mod_eq_of_lt h]

theorem digits_of_ge {n : Nat} (h : 10 ≤ n) :
    digits n = digits (n / 10) ++ [⟨n % 10, Nat.mod_lt n (by decide)⟩] := by
  rw [digits, digitsOnto, if_neg (by omega), digitsOnto_eq_append]

theorem ofDigits_digits (n : Nat) : ofDigits (digits n) = n := by
  induction n using Nat.strongRecOn with
  | _ n ih =>
    by_cases h : n < 10
    · simp [digits_of_lt h, ofDigits]
    · rw [digits_of_ge (by omega), ofDigits_append_singleton, ih _ (by omega)]
      simp only; omega

theorem digits_ne_nil (n : Nat) : digits n ≠ [] := by
  by_cases h : n < 10
  · simp [digits_of_lt h]
  · simp [digits_of_ge (by omega : 10 ≤ n)]

/-- Only zero is written with a leading zero. -/
theorem head?_digits (n : Nat) (h : n ≠ 0) : (digits n).head? ≠ some 0 := by
  induction n using Nat.strongRecOn with
  | _ n ih =>
    by_cases hn : n < 10
    · rw [digits_of_lt hn]
      intro h0
      simp only [List.head?_cons, Option.some.injEq] at h0
      exact h (Fin.val_eq_of_eq h0)
    · have := ih (n / 10) (by omega) (by omega)
      cases hd : digits (n / 10) with
      | nil => exact absurd hd (digits_ne_nil _)
      | cons d ds => rw [digits_of_ge (by omega), hd]; simpa [hd] using this

end BadgeRules
