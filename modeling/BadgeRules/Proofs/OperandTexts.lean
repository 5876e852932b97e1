import BadgeRules.Proofs.Lexemes
import BadgeRules.Proofs.ShortestDecimals

/-!
# Operands are told apart by their texts

The text of a scalar is one lexeme (`Scalar.chars_lexeme`), and the text of a list puts lexemes in a row with commas
between them. So two operands have the same text only if they are alike (`Operand.text_eq_iff`): both a list or
both not, and the same scalars in the same order. Of numbers the text tells no more than `==` does, and no NaN is
told from another.
-/

namespace BadgeRules

namespace Scalar

/-- The same, but for the sign of a zero and the bits of a NaN. -/
def Alike : Scalar → Scalar → Prop
  | bool a, bool b => a = b
  | number x, number y => (x == y) = true ∨ x.isNaN = true ∧ y.isNaN = true
  | text s, text t => s = t
  | null, null => True
  | _, _ => False

/-- How a double is written in a summary. -/
def numberLexeme (x : Float) : Lexeme :=
  if x.isNaN then .word .nan
  else if x.isFinite then .numeral (Double.numeral x)
  else .word (.inf (Double.isNegative x))

def lexeme : Scalar → Lexeme
  | bool b => .word (.bool b)
  | number x => numberLexeme x
  | text s => .text s
  | null => .word .null

theorem numberLexeme_cases (x : Float) : x.isNaN = true ∧ numberLexeme x = .word .nan ∨
    x.isFinite = true ∧ numberLexeme x = .numeral (Double.numeral x) ∨
    Double.magnitude x = Double.infinite ∧ numberLexeme x = .word (.inf (Double.isNegative x)) := by
  unfold numberLexeme
  split_ifs with hnan hfinite
  · exact .inl ⟨hnan, rfl⟩
  · exact .inr (.inl ⟨hfinite, rfl⟩)
  · rw [Double.isNaN_iff] at hnan
    rw [Double.isFinite_iff] at hfinite
    exact .inr (.inr ⟨by omega, rfl⟩)

theorem chars_numberLexeme (x : Float) : (numberLexeme x).chars = (number x).chars := by
  have hnone (h : ¬ x.isFinite = true) : Double.exactInt? x = none :=
    Option.eq_none_iff_forall_ne_some.2 fun n hn => h (Double.isFinite_of_exactInt? hn)
  rcases numberLexeme_cases x with ⟨h, hx⟩ | ⟨h, hx⟩ | ⟨h, hx⟩ <;> rw [hx]
  · have hmag := Double.isNaN_iff.1 h
    have hint := hnone (mt Double.isFinite_iff.1 hmag.not_gt)
    simp only [chars, hint, inFull, if_pos hmag]
    rfl
  · have hmag := Double.isFinite_iff.1 h
    rw [Lexeme.chars, Double.numeral, chars]
    cases hint : Double.exactInt? x with
    | some n => rfl
    | none =>
      have hzero : Double.magnitude x ≠ 0 := fun hzero => by
        rw [Double.exactInt?_of_zero hzero] at hint
        cases hint
      simp only [inFull, if_neg hmag.not_gt, if_neg hmag.ne, if_neg hzero]
  · have hint := hnone (mt Double.isFinite_iff.1 h.not_lt)
    simp only [chars, hint, inFull, if_neg h.not_gt, if_pos h]
    rfl

theorem chars_lexeme (s : Scalar) : s.lexeme.chars = s.chars := by
  cases s with
  | bool b => rfl
  | number x => exact chars_numberLexeme x
  | text s => rfl
  | null => rfl

theorem numberLexeme_zero {x : Float} (hx : Double.magnitude x = 0) : numberLexeme x = .numeral (.ofInt 0) := by
  rcases numberLexeme_cases x with ⟨h, -⟩ | ⟨-, h⟩ | ⟨h, -⟩
  · exact absurd (Double.isNaN_iff.1 h) (by rw [hx]; decide)
  · rw [h, Double.numeral, Double.exactInt?_of_zero hx]
  · exact absurd (hx.symm.trans h) (by decide)

theorem numberLexeme_eq_iff {x y : Float} :
    numberLexeme x = numberLexeme y ↔ (x == y) = true ∨ x.isNaN = true ∧ y.isNaN = true := by
  constructor
  · intro h
    rcases numberLexeme_cases x with ⟨hx, hx'⟩ | ⟨hx, hx'⟩ | ⟨hx, hx'⟩ <;>
      rcases numberLexeme_cases y with ⟨hy, hy'⟩ | ⟨hy, hy'⟩ | ⟨hy, hy'⟩ <;> rw [hx', hy'] at h
    case inl.inl => exact .inr ⟨hx, hy⟩
    case inr.inl.inr.inl => exact .inl ((Double.numeral_eq_iff hx).1 (Lexeme.numeral.inj h))
    case inr.inr.inr.inr =>
      have heq : x = y := Double.eq_of_magnitude (Word.inf.inj (Lexeme.word.inj h)) (hx.trans hy.symm)
      have hnan : x.isNaN = false := Bool.not_eq_true _ ▸ mt Double.isNaN_iff.1 hx.not_gt
      exact .inl (Double.beq_iff.2 (.inl ⟨heq, hnan⟩))
    all_goals cases h
  · rintro (h | ⟨hx, hy⟩)
    · rcases Double.beq_iff.1 h with ⟨rfl, -⟩ | ⟨hx, hy⟩
      · rfl
      · rw [numberLexeme_zero hx, numberLexeme_zero hy]
    · rw [numberLexeme, numberLexeme, if_pos hx, if_pos hy]

theorem lexeme_eq_iff {s t : Scalar} : s.lexeme = t.lexeme ↔ s.Alike t := by
  have hword (x : Float) : (∀ b, numberLexeme x ≠ .word (.bool b)) ∧ numberLexeme x ≠ .word .null ∧
      ∀ t, numberLexeme x ≠ .text t := by
    rcases numberLexeme_cases x with ⟨-, h⟩ | ⟨-, h⟩ | ⟨-, h⟩ <;> rw [h] <;> exact ⟨nofun, nofun, nofun⟩
  cases s <;> cases t <;> simp [lexeme, Alike, numberLexeme_eq_iff, hword, Ne.symm]

/-- A scalar ends at the mark that follows it. -/
theorem chars_append_inj {s t : Scalar} {r u : List Char} (hr : Separated r) (hu : Separated u)
    (h : s.chars ++ r = t.chars ++ u) : s.Alike t ∧ r = u := by
  rw [← chars_lexeme, ← chars_lexeme] at h
  rw [← lexeme_eq_iff]
  exact Lexeme.append_inj hr hu h

theorem chars_eq_iff {s t : Scalar} : s.chars = t.chars ↔ s.Alike t := by
  constructor
  · intro h
    exact (chars_append_inj (r := []) (u := []) nofun nofun (congrArg (· ++ []) h)).1
  · intro h
    rw [← chars_lexeme, lexeme_eq_iff.2 h, chars_lexeme]

/-- A scalar does not start like a list, and it is not empty. -/
theorem exists_chars_eq_cons (s : Scalar) : ∃ c cs, s.chars = c :: cs ∧ c ≠ '[' ∧ c ≠ ']' := by
  rw [← chars_lexeme]
  rcases s.lexeme.unmarked_cases with ⟨t, h⟩ | ⟨hne, hunmarked⟩
  · exact ⟨_, _, congrArg Lexeme.chars h, by decide, by decide⟩
  · obtain ⟨c, cs, hc⟩ := List.exists_cons_of_ne_nil hne
    have hmark := hunmarked c (hc ▸ List.mem_cons_self)
    refine ⟨c, cs, hc, ?_, ?_⟩ <;> rintro rfl <;> cases hmark

end Scalar

namespace Operand

open Scalar

/-- Both are lists or both are not, and their scalars are alike in order. -/
def Alike : Operand → Operand → Prop
  | list ss, list ts => List.Forall₂ Scalar.Alike ss ts
  | single s, single t => s.Alike t
  | _, _ => False

/-- What follows an item of a list, with these ones left. -/
def afterItem : List Scalar → List Char
  | [] => [']']
  | ss => ',' :: ' ' :: (joined ss ++ [']'])

theorem joined_cons (s : Scalar) (ss : List Scalar) : joined (s :: ss) ++ [']'] = s.chars ++ afterItem ss := by
  cases ss with
  | nil => rfl
  | cons t ts => simp [joined, afterItem]

theorem separated_afterItem (ss : List Scalar) : Separated (afterItem ss) := by
  cases ss <;> exact fun c hc => by cases hc; rfl

theorem joined_of_afterItem {ss ts : List Scalar} (h : afterItem ss = afterItem ts) :
    joined ss ++ [']'] = joined ts ++ [']'] := by
  cases ss <;> cases ts
  · rfl
  · cases h
  · cases h
  · exact (List.cons.inj (List.cons.inj h).2).2

theorem joined_inj {ss ts : List Scalar} (h : joined ss ++ [']'] = joined ts ++ [']']) :
    List.Forall₂ Scalar.Alike ss ts := by
  have hcons {s : Scalar} {ss : List Scalar} (h : [']'] = joined (s :: ss) ++ [']']) : False := by
    obtain ⟨c, cs, hc, -, hclose⟩ := s.exists_chars_eq_cons
    rw [joined_cons, hc] at h
    exact hclose (List.cons.inj h).1.symm
  induction ss generalizing ts with
  | nil =>
    cases ts with
    | nil => exact .nil
    | cons t ts => exact (hcons h).elim
  | cons s ss ih =>
    cases ts with
    | nil => exact (hcons h.symm).elim
    | cons t ts =>
      rw [joined_cons, joined_cons] at h
      obtain ⟨hst, hrest⟩ := chars_append_inj (separated_afterItem ss) (separated_afterItem ts) h
      exact .cons hst (ih (joined_of_afterItem hrest))

theorem joined_congr {ss ts : List Scalar} (h : List.Forall₂ Scalar.Alike ss ts) : joined ss = joined ts := by
  induction h with
  | nil => rfl
  | cons hst hs ih =>
    cases hs with
    | nil => exact chars_eq_iff.2 hst
    | cons =>
      show _ ++ [',', ' '] ++ joined _ = _ ++ [',', ' '] ++ joined _
      rw [chars_eq_iff.2 hst, ih]

/-- Operands have the same `text` exactly if they are `Alike`. -/
theorem text_eq_iff (a b : Operand) : a.text = b.text ↔ a.Alike b := by
  have hlist (ss : List Scalar) (t : Scalar) : (list ss).chars ≠ (single t).chars := by
    obtain ⟨c, cs, hc, hopen, -⟩ := t.exists_chars_eq_cons
    intro h
    rw [chars, chars, hc] at h
    exact hopen (List.cons.inj h).1.symm
  rw [text, text, String.ofList_inj]
  cases a with
  | list ss =>
    cases b with
    | list ts =>
      constructor
      · exact fun h => joined_inj (List.cons.inj h).2
      · intro h
        rw [chars, chars, joined_congr h]
    | single t => exact ⟨fun h => absurd h (hlist ss t), nofun⟩
  | single s =>
    cases b with
    | list ts => exact ⟨fun h => absurd h.symm (hlist ts s), nofun⟩
    | single t => exact chars_eq_iff

/-- Quotes, commas and brackets in a text make no list of it. -/
example : (single "a\", \"b").text ≠ (list ["a", "b"]).text := by decide +kernel

end Operand

end BadgeRules
