/-!
# Reachability

A depth-first search along a successor function.
-/

namespace BadgeRules

variable {α : Type} [DecidableEq α]

def without (a : α) (as : List α) : List α := as.filter (· ≠ a)

@[simp] theorem mem_without {a b : α} {as : List α} : b ∈ without a as ↔ b ∈ as ∧ b ≠ a := by
  simp [without]

theorem without_cons (a b : α) (bs : List α) :
    without a (b :: bs) = if b = a then without a bs else b :: without a bs := by
  by_cases h : b = a <;> simp [without, h]

theorem length_without_lt {a : α} {as : List α} (h : a ∈ as) :
    (without a as).length < as.length :=
  List.length_filter_lt_length_iff_exists.2 ⟨a, h, by simp⟩

def total (f : α → Nat) : List α → Nat
  | [] => 0
  | a :: as => f a + total f as

theorem total_without_le (f : α → Nat) (a : α) (as : List α) :
    total f (without a as) ≤ total f as := by
  induction as with
  | nil => exact Nat.le_refl _
  | cons b bs ih =>
    rw [without_cons]
    split <;> simp only [total] <;> omega

/-- What an element counts is missing from the sum without it. -/
theorem add_total_without_le (f : α → Nat) {a : α} {as : List α} (h : a ∈ as) :
    f a + total f (without a as) ≤ total f as := by
  induction as with
  | nil => cases h
  | cons b bs ih =>
    rw [without_cons, total]
    by_cases hb : b = a
    · have := total_without_le f a bs
      rw [if_pos hb, hb]; omega
    · have := ih ((List.mem_cons.1 h).resolve_left (Ne.symm hb))
      rw [if_neg hb, total]; omega

/-- Whether the search comes from one of the points on the stack to `goal`. The points of `fresh`
have not been left yet; a point outside is left alone. -/
def reaches (next : α → List α) (goal : α) (fresh stack : List α) : Bool :=
  match stack with
  | [] => false
  | a :: stack =>
    if a = goal then true
    else if _h : a ∈ fresh then reaches next goal (without a fresh) (next a ++ stack)
    else reaches next goal fresh stack
termination_by stack.length + total (fun a => (next a).length) fresh
decreasing_by
  · have := add_total_without_le (fun a => (next a).length) _h
    simp only [List.length_append, List.length_cons]; omega
  · simp only [List.length_cons]; omega

end BadgeRules
