import BadgeRules.Proofs.Accepting
import BadgeRules.Proofs.Recompiling
import BadgeRules.Proofs.Rereading
import BadgeRules.Proofs.Upstream
import BadgeRules.Rule.Validation

/-!
# What is wrong with a rule

`Rule.Violates` says when a violation is there. `Rule.violations` has those that are there, each once and in
the order of `Violation.rank` (`Rule.mem_violations_iff`, `Rule.sorted_violations`). They are read off the id,
the name and the awards, and so they come through every conversion that keeps these (`violations_kept`).
-/

namespace BadgeRules
open Decoder

variable {P Q : Type}

/-- Its place in the order of the checks: those of the rule itself, and then two for each award. -/
def Violation.rank : Violation → Nat
  | .emptyId => 0
  | .emptyName => 1
  | .noAwards => 2
  | .emptyBadge i => 2 * i + 3
  | .badQuantity i _ => 2 * i + 4

/-- Whether this is wrong with the rule. -/
inductive Rule.Violates (r : Rule P) : Violation → Prop
  | emptyId (h : r.id = "") : r.Violates .emptyId
  | emptyName (h : ∀ c ∈ r.name.toList, isBlank c = true) : r.Violates .emptyName
  | noAwards (h : r.awards = []) : r.Violates .noAwards
  | emptyBadge {i : Nat} {a : Award} (ha : r.awards[i]? = some a) (h : a.badge = "") : r.Violates (.emptyBadge i)
  | badQuantity {i : Nat} {a : Award} (ha : r.awards[i]? = some a) (h : a.quantity = 0) :
    r.Violates (.badQuantity i a.quantity)

/-! ### The list of violations -/

namespace Award

theorem mem_violations_iff {i : Nat} {a : Award} {v : Violation} :
    v ∈ a.violations i ↔ (a.badge = "" ∧ v = .emptyBadge i) ∨ (a.quantity = 0 ∧ v = .badQuantity i a.quantity) := by
  rw [violations, List.mem_append, List.mem_ite_nil_right, List.mem_ite_nil_right, List.mem_singleton,
    List.mem_singleton]

theorem rank_of_mem {i : Nat} {a : Award} {v : Violation} (h : v ∈ a.violations i) :
    2 * i + 3 ≤ v.rank ∧ v.rank ≤ 2 * i + 4 := by
  rcases mem_violations_iff.1 h with ⟨-, rfl⟩ | ⟨-, rfl⟩ <;> simp [Violation.rank]

theorem sorted_violations (i : Nat) (a : Award) : (a.violations i).Pairwise (·.rank < ·.rank) := by
  unfold violations
  split <;> split <;> simp [Violation.rank]

end Award

namespace Rule

variable {r : Rule P} {s : Rule Q} {v : Violation}

theorem mem_violations_iff : v ∈ r.violations ↔ r.Violates v := by
  have hblank : isBlankText r.name = true ↔ ∀ c ∈ r.name.toList, isBlank c = true := List.all_eq_true
  simp only [violations, List.mem_append, List.mem_ite_nil_right, List.mem_singleton, hblank, List.mem_flatten,
    List.mem_mapIdx]
  constructor
  · rintro (((⟨h, rfl⟩ | ⟨h, rfl⟩) | ⟨h, rfl⟩) | ⟨_, ⟨i, hi, rfl⟩, hv⟩)
    · exact .emptyId h
    · exact .emptyName h
    · exact .noAwards h
    · rcases Award.mem_violations_iff.1 hv with ⟨h, rfl⟩ | ⟨h, rfl⟩
      · exact .emptyBadge (List.getElem?_eq_getElem hi) h
      · exact .badQuantity (List.getElem?_eq_getElem hi) h
  · intro h
    cases h with
    | emptyId h => exact .inl (.inl (.inl ⟨h, rfl⟩))
    | emptyName h => exact .inl (.inl (.inr ⟨h, rfl⟩))
    | noAwards h => exact .inl (.inr ⟨h, rfl⟩)
    | emptyBadge ha h =>
      obtain ⟨hi, rfl⟩ := List.getElem?_eq_some_iff.1 ha
      exact .inr ⟨_, ⟨_, hi, rfl⟩, Award.mem_violations_iff.2 (.inl ⟨h, rfl⟩)⟩
    | badQuantity ha h =>
      obtain ⟨hi, rfl⟩ := List.getElem?_eq_some_iff.1 ha
      exact .inr ⟨_, ⟨_, hi, rfl⟩, Award.mem_violations_iff.2 (.inr ⟨h, rfl⟩)⟩

/-- The awards are checked in order, the badge before the quantity. -/
theorem sorted_awards (as : List Award) : (as.mapIdx Award.violations).flatten.Pairwise (·.rank < ·.rank) := by
  rw [List.pairwise_flatten]
  constructor
  · intro vs hvs
    obtain ⟨i, hi, rfl⟩ := List.mem_mapIdx.1 hvs
    exact Award.sorted_violations i _
  · rw [List.pairwise_iff_getElem]
    intro i j hi hj hij v hv w hw
    rw [List.getElem_mapIdx] at hv hw
    have := Award.rank_of_mem hv
    have := Award.rank_of_mem hw
    omega

theorem sorted_violations (r : Rule P) : r.violations.Pairwise (·.rank < ·.rank) := by
  refine List.pairwise_append.2 ⟨?rule, sorted_awards r.awards, ?between⟩
  case rule => split <;> split <;> split <;> simp [Violation.rank]
  case between =>
    intro v hv w hw
    have hrule : v.rank ≤ 2 := by
      simp only [List.mem_append, List.mem_ite_nil_right, List.mem_singleton] at hv
      rcases hv with (⟨-, rfl⟩ | ⟨-, rfl⟩) | ⟨-, rfl⟩ <;> simp [Violation.rank]
    obtain ⟨ws, hws, hmem⟩ := List.mem_flatten.1 hw
    obtain ⟨i, hi, rfl⟩ := List.mem_mapIdx.1 hws
    have haward := Award.rank_of_mem hmem
    omega

/-- Nothing else about a rule counts. -/
theorem violations_congr (hid : r.id = s.id) (hname : r.name = s.name) (hawards : r.awards = s.awards) :
    r.violations = s.violations := by
  rw [violations, violations, hid, hname, hawards]

theorem valid_iff : r.validate.valid = true ↔ r.violations = [] := by
  rw [validate, List.isEmpty_iff, List.map_eq_nil_iff]

theorem violations_eq_nil_iff : r.violations = [] ↔
    r.id ≠ "" ∧ (∃ c ∈ r.name.toList, isBlank c = false) ∧ r.awards ≠ [] ∧
      ∀ a ∈ r.awards, a.badge ≠ "" ∧ 1 ≤ a.quantity := by
  have hquantity (a : Award) : 1 ≤ a.quantity ↔ a.quantity ≠ 0 := by
    rw [UInt32.le_iff_toNat_le, ne_eq, ← UInt32.toNat_inj]
    exact Nat.one_le_iff_ne_zero
  rw [List.eq_nil_iff_forall_not_mem]
  simp only [mem_violations_iff, hquantity]
  constructor
  · intro h
    refine ⟨fun hid => h _ (.emptyId hid), ?_, fun hawards => h _ (.noAwards hawards), fun a ha => ?_⟩
    · by_contra hname
      exact h _ (.emptyName fun c hc => by simpa using fun hb => hname ⟨c, hc, hb⟩)
    · obtain ⟨i, hi⟩ := List.mem_iff_getElem?.1 ha
      exact ⟨fun hbadge => h _ (.emptyBadge hi hbadge), fun hq => h _ (.badQuantity hi hq)⟩
  · rintro ⟨hid, ⟨c, hc, hblank⟩, hawards, hall⟩ v hv
    cases hv with
    | emptyId h => exact hid h
    | emptyName h => exact Bool.false_ne_true (hblank.symm.trans (h c hc))
    | noAwards h => exact hawards h
    | emptyBadge ha h => exact (hall _ (List.mem_of_getElem? ha)).1 h
    | badQuantity ha h => exact (hall _ (List.mem_of_getElem? ha)).2 h

/-! ### Conversions -/

theorem awards_recompiled (r : Rule Position) (g : Grid Float) (id name : String) (description : Option String) :
    ((r.expand g).compile id name description).rule.awards = r.awards := by
  rw [Canvas.awards_compile, expand, (r.shows_expandWith g.place).guards, fst_guarded]

/-- Texts and awards are read as they were written, whatever becomes of the rest. -/
theorem of_decode_toJson {r r' : Rule Position} {room : Nat} (h : decode room r.toJson = some r') :
    r'.id = r.id ∧ r'.name = r.name ∧ r'.awards = r.awards := by
  obtain ⟨room, fields, rfl, hfields, h⟩ := record_eq_some h
  obtain rfl := Option.some_inj.1 ((r.fields?_membersWith _ _ _).symm.trans hfields)
  have hawards := listOf_reads fun (a : Award) (_ : a ∈ r.awards) => a.reads
  rw [mapM_some, List.map_id'] at hawards
  simp only [Option.bind_eq_bind, Option.bind_eq_some_iff, Option.pure_def, Option.some_inj] at h
  obtain ⟨id, hid, name, hname, _, -, _, -, awards, hreadawards, _, -, rfl⟩ := h
  exact ⟨(Option.some_inj.1 hid).symm, (Option.some_inj.1 hname).symm,
    (Option.some_inj.1 ((hawards _ _).1 hreadawards).2).symm⟩

end Rule

theorem Canvas.mem_awards_iff {c : Canvas P} {id name : String} {description : Option String} {a : Award} :
    a ∈ (c.compile id name description).rule.awards ↔ ∃ n ∈ c.nodes, n.payload = .badge a := by
  rw [Canvas.awards_eq, List.mem_filterMap]
  refine exists_congr fun n => and_congr_right fun _ => ?_
  cases n.payload <;> simp [Payload.award?]

/-- A compiled rule is valid if it has an id and a name, and the canvas has badge nodes, all of them complete. -/
theorem Canvas.compile_valid_iff (c : Canvas P) (id name : String) (description : Option String) :
    (c.compile id name description).rule.validate.valid = true ↔
      id ≠ "" ∧ (∃ ch ∈ name.toList, isBlank ch = false) ∧ (∃ n ∈ c.nodes, ∃ a, n.payload = .badge a) ∧
        ∀ n ∈ c.nodes, ∀ a, n.payload = .badge a → a.badge ≠ "" ∧ 1 ≤ a.quantity := by
  have hsome : (c.compile id name description).rule.awards ≠ [] ↔ ∃ n ∈ c.nodes, ∃ a, n.payload = .badge a := by
    rw [ne_eq, List.eq_nil_iff_forall_not_mem]
    simp only [mem_awards_iff, not_forall, not_not]
    exact ⟨fun ⟨a, n, hn, ha⟩ => ⟨n, hn, a, ha⟩, fun ⟨n, hn, a, ha⟩ => ⟨a, n, hn, ha⟩⟩
  rw [Rule.valid_iff, Rule.violations_eq_nil_iff, hsome]
  simp only [mem_awards_iff]
  refine and_congr_right fun _ => and_congr_right fun _ => and_congr_right fun _ => ?_
  exact ⟨fun h n hn a ha => h a ⟨n, hn, ha⟩, fun h a ⟨n, hn, ha⟩ => h n hn a ha⟩

/-- `violations` are those that the rule `Violates`, each once and in the order of `rank`; `validate` finds a rule valid
if there are none, and has a text for each. They are the same after `expand` and `compile`, and after
`serialize` and `deserialize`. A compiled rule is valid if it has an id and a name, and badge nodes, all of them
with a badge and a quantity. -/
theorem Rule.violations_kept (r : Rule Position) (g : Grid Float) (c : Canvas Position) (id name : String)
    (description : Option String) :
    (r.violations.Pairwise (·.rank < ·.rank) ∧ ∀ v, v ∈ r.violations ↔ r.Violates v) ∧
    ((r.validate.valid = true ↔ r.violations = []) ∧ r.validate.errors = r.violations.map Violation.message) ∧
    ((r.expand g).compile r.id r.name description).rule.violations = r.violations ∧
    (∀ r', (deserialize r.serialize).1 = some r' → r'.violations = r.violations) ∧
    ((c.compile id name description).rule.validate.valid = true ↔
      id ≠ "" ∧ (∃ ch ∈ name.toList, isBlank ch = false) ∧ (∃ n ∈ c.nodes, ∃ a, n.payload = .badge a) ∧
        ∀ n ∈ c.nodes, ∀ a, n.payload = .badge a → a.badge ≠ "" ∧ 1 ≤ a.quantity) := by
  refine ⟨⟨r.sorted_violations, fun v => mem_violations_iff⟩, ⟨valid_iff, rfl⟩, ?expanded, ?stored,
    c.compile_valid_iff id name description⟩
  case expanded => exact violations_congr rfl rfl (r.awards_recompiled g r.id r.name description)
  case stored =>
    intro r' hread
    rw [fst_deserialize, parse?_serialize] at hread
    obtain ⟨hid, hname, hawards⟩ := of_decode_toJson hread
    exact violations_congr hid hname hawards

/-- Two awards, each with something wrong. -/
example : (⟨"", " \t", none, [], [⟨"", none, 0⟩, ⟨"GOLD", none, 0⟩], none⟩ : Rule Position).violations =
    [.emptyId, .emptyName, .emptyBadge 0, .badQuantity 0 0, .badQuantity 1 0] := by decide +kernel

end BadgeRules
