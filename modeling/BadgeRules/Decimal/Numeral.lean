import BadgeRules.Decimal.Digits

/-!
# Numerals

A number as it is written: sign, whole part, fraction digits and decimal exponent. `Numeral.chars`
writes one and `Numeral.scan` reads one from the front of a text; `scan_chars` says that what is
written is read back, whatever follows it.
-/

namespace BadgeRules

/-- `-12.50e+3` is `⟨true, 12, [5, 0], some 3⟩`. An empty fraction is one that is not written. -/
structure Numeral where
  negative : Bool := false
  whole : Nat
  fraction : List Digit := []
  exponent : Option Int := none
deriving DecidableEq, Repr

namespace Numeral

def ofInt (n : Int) : Numeral := { negative := n < 0, whole := n.natAbs }

/-- The natural number that is written without sign, fraction and exponent. -/
def toNat? : Numeral → Option Nat
  | ⟨false, n, [], none⟩ => some n
  | _ => none

/-! ### Writing -/

def fractionChars (ds : List Digit) : List Char :=
  match ds with
  | [] => []
  | ds => '.' :: ds.map Digit.char

/-- An exponent is written with its sign: `e+16`, `e-7`. -/
def exponentChars (e : Option Int) : List Char :=
  match e with
  | none => []
  | some e => 'e' :: (if e < 0 then '-' else '+') :: (digits e.natAbs).map Digit.char

def chars (n : Numeral) : List Char :=
  (if n.negative then ['-'] else []) ++ (digits n.whole).map Digit.char ++
    (fractionChars n.fraction ++ exponentChars n.exponent)

/-! ### Reading -/

def scanMinus (cs : List Char) : Bool × List Char :=
  match cs with
  | '-' :: rest => (true, rest)
  | cs => (false, cs)

/-- Reads the whole part. A leading zero ends it. -/
def scanWhole (cs : List Char) : Option (Nat × List Char) :=
  match cs with
  | '0' :: rest => some (0, rest)
  | cs =>
    match Digit.span cs with
    | ([], _) => none
    | (ds, rest) => some (ofDigits ds, rest)

/-- Reads a fraction if there is a point, after which a digit must stand. -/
def scanFraction (cs : List Char) : Option (List Digit × List Char) :=
  match cs with
  | '.' :: rest =>
    match Digit.span rest with
    | ([], _) => none
    | (ds, rest) => some (ds, rest)
  | cs => some ([], cs)

def scanSign (cs : List Char) : Bool × List Char :=
  match cs with
  | '-' :: rest => (true, rest)
  | '+' :: rest => (false, rest)
  | cs => (false, cs)

/-- Reads an exponent if there is an `e`, after which a digit must stand. -/
def scanExponent (cs : List Char) : Option (Option Int × List Char) :=
  match cs with
  | c :: rest =>
    if c = 'e' ∨ c = 'E' then
      let (negative, rest) := scanSign rest
      match Digit.span rest with
      | ([], _) => none
      | (ds, rest) => some (some (if negative then -ofDigits ds else ofDigits ds), rest)
    else some (none, c :: rest)
  | [] => some (none, [])

/-- Reads a numeral from the front of a text, as far as it goes. -/
def scan (cs : List Char) : Option (Numeral × List Char) := do
  let (negative, cs) := scanMinus cs
  let (whole, cs) ← scanWhole cs
  let (fraction, cs) ← scanFraction cs
  let (exponent, cs) ← scanExponent cs
  return (⟨negative, whole, fraction, exponent⟩, cs)

theorem length_scanMinus (cs : List Char) : (scanMinus cs).2.length ≤ cs.length := by
  unfold scanMinus; split <;> simp

theorem length_scanWhole {cs rest : List Char} {n : Nat} (h : scanWhole cs = some (n, rest)) :
    rest.length < cs.length := by
  unfold scanWhole at h
  split at h
  · simp only [Option.some.injEq, Prod.mk.injEq] at h
    obtain ⟨-, rfl⟩ := h
    simp
  · have := Digit.span_length cs
    split at h
    · simp at h
    · next ds rest' hne hs =>
      simp only [Option.some.injEq, Prod.mk.injEq] at h
      obtain ⟨-, rfl⟩ := h
      cases ds with
      | nil => exact (hne rfl).elim
      | cons d ds => simp only [hs, List.length_cons] at this; omega

theorem length_scanFraction {cs rest : List Char} {ds : List Digit}
    (h : scanFraction cs = some (ds, rest)) : rest.length ≤ cs.length := by
  unfold scanFraction at h
  split at h
  · next cs =>
    have := Digit.length_span_le cs
    split at h
    · simp at h
    · next hs =>
      simp only [Option.some.injEq, Prod.mk.injEq] at h
      obtain ⟨-, rfl⟩ := h
      simp only [hs, List.length_cons] at this ⊢; omega
  · simp_all

theorem length_scanSign (cs : List Char) : (scanSign cs).2.length ≤ cs.length := by
  unfold scanSign; split <;> simp

theorem length_scanExponent {cs rest : List Char} {e : Option Int}
    (h : scanExponent cs = some (e, rest)) : rest.length ≤ cs.length := by
  unfold scanExponent at h
  split at h
  · next c cs =>
    split at h
    · have := length_scanSign cs
      have := Digit.length_span_le (scanSign cs).2
      simp only at h
      split at h
      · simp at h
      · next hs =>
        simp only [Option.some.injEq, Prod.mk.injEq] at h
        obtain ⟨-, rfl⟩ := h
        simp only [hs, List.length_cons] at *; omega
    · simp_all
  · simp_all

theorem length_scan {cs rest : List Char} {n : Numeral} (h : scan cs = some (n, rest)) :
    rest.length < cs.length := by
  simp only [scan, Option.bind_eq_bind, Option.bind_eq_some_iff, Option.pure_def,
    Option.some.injEq, Prod.mk.injEq] at h
  obtain ⟨⟨_, _⟩, hw, ⟨_, _⟩, hf, ⟨_, _⟩, he, -, rfl⟩ := h
  have := length_scanMinus cs
  have := length_scanWhole hw
  have := length_scanFraction hf
  have := length_scanExponent he
  simp only at *
  omega

/-! ### What is written is read back -/

/-- Whether a text that follows a numeral leaves it as it is. -/
def Ends (rest : List Char) : Prop :=
  ∀ c ∈ rest.head?, Digit.ofChar? c = none ∧ c ≠ '.' ∧ c ≠ 'e' ∧ c ≠ 'E'

theorem char_eq_zero : ∀ d : Digit, d.char = '0' → d = 0 := by decide

theorem char_ne_minus : ∀ d : Digit, d.char ≠ '-' := by decide

theorem scanWhole_append (n : Nat) {rest : List Char}
    (h : ∀ c ∈ rest.head?, Digit.ofChar? c = none) :
    scanWhole ((digits n).map Digit.char ++ rest) = some (n, rest) := by
  by_cases h0 : n = 0
  · subst h0; rw [digits_of_lt (by decide)]; rfl
  · have hs := Digit.span_append (digits n) h
    have hz := head?_digits n h0
    have hv := ofDigits_digits n
    cases hd : digits n with
    | nil => exact absurd hd (digits_ne_nil n)
    | cons d ds =>
      rw [hd] at hs hz hv
      unfold scanWhole
      split
      · next r he =>
        simp only [List.map_cons, List.cons_append, List.cons.injEq] at he
        exact absurd (congrArg some (char_eq_zero d he.1)) hz
      · rw [hs]; simp [hv]

theorem scanFraction_append (ds : List Digit) {rest : List Char}
    (h : ∀ c ∈ rest.head?, Digit.ofChar? c = none ∧ c ≠ '.') :
    scanFraction (fractionChars ds ++ rest) = some (ds, rest) := by
  cases ds with
  | nil =>
    unfold scanFraction
    split
    · next r he =>
      simp only [fractionChars, List.nil_append] at he
      exact absurd rfl (h '.' (by simp [he])).2
    · simp [fractionChars]
  | cons d ds =>
    have := Digit.span_append (d :: ds) (fun c hc => (h c hc).1)
    simp only [List.map_cons, List.cons_append] at this
    simp [fractionChars, scanFraction, this]

theorem scanSign_append (negative : Bool) (cs : List Char) :
    scanSign ((if negative then '-' else '+') :: cs) = (negative, cs) := by
  cases negative <;> rfl

theorem scanExponent_append (e : Option Int) {rest : List Char} (h : Ends rest) :
    scanExponent (exponentChars e ++ rest) = some (e, rest) := by
  cases e with
  | none =>
    cases rest with
    | nil => rfl
    | cons c cs =>
      have := h c (by simp)
      simp [exponentChars, scanExponent, this.2.2.1, this.2.2.2]
  | some e =>
    have hs := Digit.span_append (digits e.natAbs) (fun c hc => (h c hc).1)
    have hd := digits_ne_nil e.natAbs
    have hv := ofDigits_digits e.natAbs
    have hsign := scanSign_append (e < 0) ((digits e.natAbs).map Digit.char ++ rest)
    simp only [exponentChars, List.cons_append, scanExponent, true_or, if_true]
    simp only [decide_eq_true_eq] at hsign
    rw [hsign]
    simp only [hs]
    cases hds : digits e.natAbs with
    | nil => exact absurd hds hd
    | cons d ds =>
      rw [hds] at hv
      simp only [hv, Option.some.injEq, Prod.mk.injEq, and_true]
      by_cases he : e < 0
      · rw [if_pos (decide_eq_true he)]; omega
      · rw [if_neg (by simpa using he)]; omega

theorem scanMinus_append (negative : Bool) (n : Nat) (rest : List Char) :
    scanMinus ((if negative then ['-'] else []) ++ (digits n).map Digit.char ++ rest) =
      (negative, (digits n).map Digit.char ++ rest) := by
  cases negative with
  | true => rfl
  | false =>
    cases hd : digits n with
    | nil => exact absurd hd (digits_ne_nil n)
    | cons d ds =>
      unfold scanMinus
      split
      · next r he =>
        simp only [Bool.false_eq_true, if_false, List.nil_append, List.map_cons, List.cons_append,
          List.cons.injEq] at he
        exact absurd he.1 (char_ne_minus d)
      · rfl

/-- A numeral is read back from the front of a text. -/
theorem scan_chars (n : Numeral) {rest : List Char} (h : Ends rest) :
    scan (n.chars ++ rest) = some (n, rest) := by
  have hexp : ∀ c ∈ (exponentChars n.exponent ++ rest).head?,
      Digit.ofChar? c = none ∧ c ≠ '.' := by
    intro c hc
    cases he : n.exponent with
    | none =>
      rw [he] at hc
      exact ⟨(h c (by simpa [exponentChars] using hc)).1, (h c (by simpa [exponentChars] using hc)).2.1⟩
    | some e =>
      rw [he] at hc
      simp only [exponentChars, List.cons_append, List.head?_cons, Option.mem_def,
        Option.some.injEq] at hc
      subst hc; decide
  have hfrac : ∀ c ∈ (fractionChars n.fraction ++ (exponentChars n.exponent ++ rest)).head?,
      Digit.ofChar? c = none := by
    intro c hc
    cases hf : n.fraction with
    | nil => rw [hf] at hc; exact (hexp c (by simpa [fractionChars] using hc)).1
    | cons d ds =>
      rw [hf] at hc
      simp only [fractionChars, List.cons_append, List.head?_cons, Option.mem_def,
        Option.some.injEq] at hc
      subst hc; decide
  simp only [scan, chars, List.append_assoc]
  rw [← List.append_assoc, scanMinus_append]
  simp [scanWhole_append n.whole hfrac, scanFraction_append n.fraction hexp,
    scanExponent_append n.exponent h]

end Numeral

end BadgeRules
