import Mathlib
import BadgeRules.Operand
import BadgeRules.Proofs.Doubles

/-!
# Equal operands

Equality of operands is symmetric and transitive, since that of doubles is, and an operand equals itself
unless it holds a NaN (`Operand.beq_self_iff`). What is equal is hashed alike except for the signs of zeros
(`Operand.hashInput_eq_iff`): a double is hashed by its bits, and those tell the two zeros apart.
-/

namespace BadgeRules

instance Double.partialEquivBEq : PartialEquivBEq Float where
  symm {x y} h := by
    rw [Double.beq_iff] at h ⊢
    rcases h with ⟨rfl, h⟩ | ⟨hx, hy⟩
    · exact .inl ⟨rfl, h⟩
    · exact .inr ⟨hy, hx⟩
  trans {x y z} hxy hyz := by
    rw [Double.beq_iff] at hxy hyz ⊢
    rcases hxy with ⟨rfl, -⟩ | ⟨hx, hy⟩
    · exact hyz
    · rcases hyz with ⟨rfl, -⟩ | ⟨-, hz⟩
      · exact .inr ⟨hx, hy⟩
      · exact .inr ⟨hx, hz⟩

/-- Equal doubles have the same bits if they have the same sign. -/
theorem Double.toBits_eq_iff {x y : Float} (h : (x == y) = true) :
    x.toBits = y.toBits ↔ isNegative x = isNegative y := by
  refine ⟨fun hbits => by rw [isNegative, isNegative, hbits], fun hsign => ?_⟩
  rcases beq_iff.1 h with ⟨rfl, -⟩ | ⟨hx, hy⟩
  · rfl
  · rw [eq_of_magnitude hsign (hx.trans hy.symm)]

/-! ### Lists -/

section Lists

variable {α : Type}

theorem append_inj_iff {as bs cs ds : List α} (h : as.length = cs.length) :
    as ++ bs = cs ++ ds ↔ as = cs ∧ bs = ds :=
  ⟨fun heq => List.append_inj heq h, fun ⟨hleft, hright⟩ => hleft ▸ hright ▸ rfl⟩

variable [BEq α]

theorem list_beq_iff {as bs : List α} : (as == bs) = true ↔ List.Forall₂ (fun a b => (a == b) = true) as bs := by
  induction as generalizing bs with
  | nil => cases bs <;> simp
  | cons a as ih => cases bs <;> simp [ih]

instance list_partialEquivBEq [PartialEquivBEq α] : PartialEquivBEq (List α) where
  symm {as bs} h := by
    rw [list_beq_iff] at h ⊢
    exact (h.imp fun _ _ => BEq.symm).flip
  trans {as bs cs} hab hbc := by
    rw [list_beq_iff] at hab hbc ⊢
    induction hab generalizing cs with
    | nil => exact hbc
    | cons hab _ ih =>
      cases hbc with
      | cons hbc hrest => exact .cons (BEq.trans hab hbc) (ih hrest)

end Lists

/-! ### Scalars -/

namespace Scalar

def numbers : Scalar → List Float
  | .number x => [x]
  | _ => []

theorem beq_cases {s t : Scalar} (h : (s == t) = true) :
    (∃ x y, s = .number x ∧ t = .number y ∧ (x == y) = true) ∨ s = t ∧ s.numbers = [] := by
  cases s <;> cases t
  case number.number x y => exact .inl ⟨x, y, rfl, rfl, h⟩
  case bool.bool b c => exact .inr ⟨congrArg bool (eq_of_beq h), rfl⟩
  case text.text a b => exact .inr ⟨congrArg text (eq_of_beq h), rfl⟩
  case null.null => exact .inr ⟨rfl, rfl⟩
  all_goals cases h

theorem beq_self_iff {s : Scalar} : (s == s) = true ↔ ∀ x ∈ s.numbers, x.isNaN = false := by
  cases s with
  | number x =>
    rw [numbers, List.forall_mem_singleton]
    exact Double.beq_self_iff
  | bool b => exact iff_of_true (beq_self_eq_true b) nofun
  | text s => exact iff_of_true (beq_self_eq_true s) nofun
  | null => exact iff_of_true rfl nofun

instance : PartialEquivBEq Scalar where
  symm {s t} h := by
    rcases beq_cases h with ⟨x, y, rfl, rfl, hxy⟩ | ⟨rfl, -⟩
    · exact BEq.symm (α := Float) hxy
    · exact h
  trans {s t u} hst htu := by
    rcases beq_cases hst with ⟨x, y, rfl, rfl, hxy⟩ | ⟨rfl, -⟩
    · rcases beq_cases htu with ⟨_, z, hy, rfl, hyz⟩ | ⟨-, hy⟩
      · cases hy
        exact BEq.trans (α := Float) hxy hyz
      · cases hy
    · exact htu

theorem length_hashInput {s t : Scalar} (h : (s == t) = true) : s.hashInput.length = t.hashInput.length := by
  rcases beq_cases h with ⟨x, y, rfl, rfl, -⟩ | ⟨rfl, -⟩ <;> rfl

theorem length_numbers {s t : Scalar} (h : (s == t) = true) : s.numbers.length = t.numbers.length := by
  rcases beq_cases h with ⟨x, y, rfl, rfl, -⟩ | ⟨rfl, -⟩ <;> rfl

theorem hashInput_eq_iff {s t : Scalar} (h : (s == t) = true) :
    s.hashInput = t.hashInput ↔ s.numbers.map Double.isNegative = t.numbers.map Double.isNegative := by
  rcases beq_cases h with ⟨x, y, rfl, rfl, hxy⟩ | ⟨rfl, -⟩
  · simpa [hashInput, numbers] using Double.toBits_eq_iff hxy
  · exact iff_of_true rfl rfl

end Scalar

/-! ### Operands -/

namespace Operand

def numbers : Operand → List Float
  | .list items => items.flatMap Scalar.numbers
  | .single item => item.numbers

theorem beq_cases {a b : Operand} (h : (a == b) = true) :
    (∃ s t, a = .single s ∧ b = .single t ∧ (s == t) = true) ∨
      ∃ ss ts, a = .list ss ∧ b = .list ts ∧ List.Forall₂ (fun s t => (s == t) = true) ss ts := by
  cases a <;> cases b
  case single.single s t => exact .inl ⟨s, t, rfl, rfl, h⟩
  case list.list ss ts => exact .inr ⟨ss, ts, rfl, rfl, list_beq_iff.1 h⟩
  all_goals cases h

theorem beq_self_iff {a : Operand} : (a == a) = true ↔ ∀ x ∈ a.numbers, x.isNaN = false := by
  cases a with
  | single s => exact Scalar.beq_self_iff
  | list ss =>
    show (ss == ss) = true ↔ _
    rw [list_beq_iff, List.forall₂_same]
    simp only [Scalar.beq_self_iff, numbers, List.forall_mem_flatMap]

instance : PartialEquivBEq Operand where
  symm {a b} h := by
    rcases beq_cases h with ⟨s, t, rfl, rfl, hst⟩ | ⟨ss, ts, rfl, rfl, hst⟩
    · exact BEq.symm (α := Scalar) hst
    · exact BEq.symm (α := List Scalar) (list_beq_iff.2 hst)
  trans {a b c} hab hbc := by
    rcases beq_cases hab with ⟨s, t, rfl, rfl, hst⟩ | ⟨ss, ts, rfl, rfl, hst⟩
    · rcases beq_cases hbc with ⟨_, u, ht, rfl, htu⟩ | ⟨_, _, ht, -⟩ <;> cases ht
      exact BEq.trans (α := Scalar) hst htu
    · rcases beq_cases hbc with ⟨_, _, ht, -⟩ | ⟨_, us, ht, rfl, htu⟩ <;> cases ht
      exact BEq.trans (α := List Scalar) (list_beq_iff.2 hst) (list_beq_iff.2 htu)

/-- What equal lists feed is compared item by item. -/
theorem flatMap_hashInput_eq_iff {ss ts : List Scalar} (h : List.Forall₂ (fun s t => (s == t) = true) ss ts) :
    ss.flatMap Scalar.hashInput = ts.flatMap Scalar.hashInput ↔
      (ss.flatMap Scalar.numbers).map Double.isNegative = (ts.flatMap Scalar.numbers).map Double.isNegative := by
  induction h with
  | nil => exact iff_of_true rfl rfl
  | @cons s t ss ts hst _ ih =>
    have hfed := Scalar.length_hashInput hst
    have hsigns : (s.numbers.map Double.isNegative).length = (t.numbers.map Double.isNegative).length := by
      simpa using Scalar.length_numbers hst
    simp only [List.flatMap_cons, List.map_append]
    rw [append_inj_iff hfed, append_inj_iff hsigns,
      Scalar.hashInput_eq_iff hst, ih]

theorem hashInput_eq_iff {a b : Operand} (h : (a == b) = true) :
    a.hashInput = b.hashInput ↔ a.numbers.map Double.isNegative = b.numbers.map Double.isNegative := by
  rcases beq_cases h with ⟨s, t, rfl, rfl, hst⟩ | ⟨ss, ts, rfl, rfl, hst⟩
  · rw [hashInput, hashInput, List.cons_inj_right]
    exact Scalar.hashInput_eq_iff hst
  · rw [hashInput, hashInput, hst.length_eq, List.cons_inj_right, List.cons_inj_right]
    exact flatMap_hashInput_eq_iff hst

/-- `==` on operands is symmetric and transitive, and reflexive where no number is NaN. Equal operands have the same
`hashInput` exactly if their zeros have the same signs. -/
theorem lawful_up_to_zeros (a b c : Operand) :
    ((a == a) = true ↔ ∀ x ∈ a.numbers, x.isNaN = false) ∧
    (a == b) = (b == a) ∧
    ((a == b) = true → (b == c) = true → (a == c) = true) ∧
    ((a == b) = true →
      (a.hashInput = b.hashInput ↔ a.numbers.map Double.isNegative = b.numbers.map Double.isNegative)) :=
  ⟨beq_self_iff, BEq.comm, BEq.trans, hashInput_eq_iff⟩

/-- Two lists that differ in the sign of a zero, and a NaN. -/
theorem lawful_up_to_zeros_limit :
    let a : Operand := .list [.text "limit", .number 0]
    let b : Operand := .list [.text "limit", .number (-0.0)]
    let c : Operand := .single (.number (0 / 0))
    (a == a) = true ∧ (a == b) = true ∧ (b == a) = true ∧ a.hashInput ≠ b.hashInput ∧ (c == c) = false := by
  intro a b c
  obtain ⟨hrefl, hsymm, -, hhash⟩ := lawful_up_to_zeros a b a
  obtain ⟨hnan, -⟩ := lawful_up_to_zeros c a b
  have hab : (a == b) = true := by decide +kernel
  have hsigns : a.numbers.map Double.isNegative ≠ b.numbers.map Double.isNegative := by decide +kernel
  have hc : ¬ ∀ x ∈ c.numbers, x.isNaN = false := by decide +kernel
  exact ⟨hrefl.2 (by decide +kernel), hab, hsymm ▸ hab, mt (hhash hab).1 hsigns,
    Bool.not_eq_true _ ▸ mt hnan.1 hc⟩

end Operand

end BadgeRules
