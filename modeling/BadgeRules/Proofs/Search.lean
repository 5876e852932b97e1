import Mathlib.Logic.Relation
import BadgeRules.Canvas.Reach

/-!
# The search is complete

`reaches_eq_true_iff`: the depth-first search answers exactly the question of a path. The points that
are still fresh are the only ones that may be left, so the paths of the invariant run through `fresh`:
when a point is taken out, a path through it is replaced by the rest of the path after its last visit.
-/

namespace BadgeRules
open Relation

variable {α : Type} [DecidableEq α] {next : α → List α} {goal : α} {fresh stack : List α}

/-- One step of a search that may still leave the points of `fresh`. -/
def Hop (next : α → List α) (fresh : List α) (a b : α) : Prop := a ∈ fresh ∧ b ∈ next a

theorem Hop.of_without {a b c : α} (h : Hop next (without c fresh) a b) : Hop next fresh a b :=
  ⟨(mem_without.1 h.1).1, h.2⟩

/-- A path either avoids `a` or has a rest that starts next to `a` and avoids it. -/
theorem path_avoids_or_leaves {a b : α} (h : ReflTransGen (Hop next fresh) b goal) :
    ReflTransGen (Hop next (without a fresh)) b goal ∨
      ∃ b' ∈ next a, ReflTransGen (Hop next (without a fresh)) b' goal := by
  induction h using ReflTransGen.head_induction_on with
  | refl => exact .inl .refl
  | @head b c hbc _ ih =>
    rcases ih with hc | hc
    · by_cases hba : b = a
      · subst hba; exact .inr ⟨c, hbc.2, hc⟩
      · exact .inl (.head ⟨mem_without.2 ⟨hbc.1, hba⟩, hbc.2⟩ hc)
    · exact .inr hc

theorem path_mono {a b : α} (h : ReflTransGen (Hop next (without a fresh)) b goal) :
    ReflTransGen (Hop next fresh) b goal :=
  ReflTransGen.mono (fun _ _ => Hop.of_without) _ _ h

/-- Leaving a fresh point: its successors take its place, and it is not fresh any more. -/
theorem exists_path_leave {a : α} (hne : a ≠ goal) (ha : a ∈ fresh) :
    (∃ b ∈ next a ++ stack, ReflTransGen (Hop next (without a fresh)) b goal) ↔
      ∃ b ∈ a :: stack, ReflTransGen (Hop next fresh) b goal := by
  constructor
  · rintro ⟨b, hb, hp⟩
    rcases List.mem_append.1 hb with hb | hb
    · exact ⟨a, List.mem_cons_self, .head ⟨ha, hb⟩ (path_mono hp)⟩
    · exact ⟨b, List.mem_cons_of_mem _ hb, path_mono hp⟩
  · rintro ⟨b, hb, hp⟩
    rcases path_avoids_or_leaves (a := a) hp with hp | ⟨b', hb', hp⟩
    · rcases List.mem_cons.1 hb with rfl | hb
      · rcases ReflTransGen.cases_head hp with rfl | ⟨c, hc, -⟩
        · exact absurd rfl hne
        · exact absurd rfl (mem_without.1 hc.1).2
      · exact ⟨b, List.mem_append_right _ hb, hp⟩
    · exact ⟨b', List.mem_append_left _ hb', hp⟩

omit [DecidableEq α] in
/-- A point that is not fresh leads nowhere but to itself. -/
theorem exists_path_drop {a : α} (hne : a ≠ goal) (ha : a ∉ fresh) :
    (∃ b ∈ stack, ReflTransGen (Hop next fresh) b goal) ↔
      ∃ b ∈ a :: stack, ReflTransGen (Hop next fresh) b goal := by
  constructor
  · rintro ⟨b, hb, hp⟩; exact ⟨b, List.mem_cons_of_mem _ hb, hp⟩
  · rintro ⟨b, hb, hp⟩
    rcases List.mem_cons.1 hb with rfl | hb
    · rcases ReflTransGen.cases_head hp with rfl | ⟨c, hc, -⟩
      · exact absurd rfl hne
      · exact absurd hc.1 ha
    · exact ⟨b, hb, hp⟩

theorem reaches_eq_true_iff (next : α → List α) (goal : α) (fresh stack : List α) :
    reaches next goal fresh stack = true ↔ ∃ a ∈ stack, ReflTransGen (Hop next fresh) a goal := by
  fun_induction reaches next goal fresh stack with
  | case1 => simp
  | case2 fresh stack => exact iff_of_true rfl ⟨goal, List.mem_cons_self, .refl⟩
  | case3 fresh a stack hne ha ih => exact ih.trans (exists_path_leave hne ha)
  | case4 fresh a stack hne ha ih => exact ih.trans (exists_path_drop hne ha)

/-- With every point that has successors fresh, the search decides reachability. -/
theorem reaches_singleton_iff {a : α} (hfresh : ∀ x, next x ≠ [] → x ∈ fresh) :
    reaches next goal fresh [a] = true ↔ ReflTransGen (fun x y => y ∈ next x) a goal := by
  rw [reaches_eq_true_iff]
  constructor
  · rintro ⟨b, hb, hp⟩
    rw [List.mem_singleton.1 hb] at hp
    exact ReflTransGen.mono (fun _ _ h => h.2) _ _ hp
  · intro hp
    exact ⟨a, List.mem_singleton_self a,
      ReflTransGen.mono (fun x _ h => ⟨hfresh x (List.ne_nil_of_mem h), h⟩) _ _ hp⟩

end BadgeRules
