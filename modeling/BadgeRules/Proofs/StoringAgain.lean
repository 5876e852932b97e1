import BadgeRules.Proofs.Accepting
import BadgeRules.Proofs.FiniteReading
import BadgeRules.Proofs.Loading

/-!
# What was read is stored again

The numbers in a rule that was read are finite (`Rule.isFinite_of_decode`), so its document gives back an equal
rule with the same document (`Rule.toJson_normal`) if it can be read at all. A logic node that came without a
list of operands goes out with one. That is one level more, and where there was no level left, the
document is refused (`Rule.deserialize_again`).
-/

namespace BadgeRules
open Decoder

/-! ### Numbers that were read -/

theorem Scalar.isFinite_of_decode {room : Nat} {j : Json} {s : Scalar} (h : decode room j = some s) :
    ∀ x ∈ s.doubles, x.isFinite = true := by
  unfold decode at h
  split at h
  · cases h; exact fun _ hx => (List.not_mem_nil hx).elim
  · obtain ⟨y, hy, rfl⟩ := Option.map_eq_some_iff.1 h
    intro x hx
    have hxy : x = y := by
      rw [doubles] at hx
      split at hx
      · cases hx
      · exact List.mem_singleton.1 hx
    exact hxy ▸ Numeral.isFinite_toFloat? hy
  · obtain ⟨t, -, rfl⟩ := Option.map_eq_some_iff.1 h
    exact fun _ hx => (List.not_mem_nil hx).elim
  · cases h; exact fun _ hx => (List.not_mem_nil hx).elim
  · cases h

theorem Operand.isFinite_of_decode {room : Nat} {j : Json} {o : Operand} (h : decode room j = some o) :
    ∀ x ∈ o.doubles, x.isFinite = true := by
  unfold decode at h
  split at h
  · obtain ⟨items, hitems, rfl⟩ := Option.map_eq_some_iff.1 h
    intro x hx
    obtain ⟨s, hs, hx⟩ := List.mem_flatMap.1 hx
    obtain ⟨_, _, -, -, hread⟩ := listOf_eq_some hitems s hs
    exact Scalar.isFinite_of_decode hread x hx
  · obtain ⟨s, hs, rfl⟩ := Option.map_eq_some_iff.1 h
    exact Scalar.isFinite_of_decode hs

/-- A list of scalars comes from a list. -/
theorem Operand.depth_toJson_le_of_decode {room : Nat} {j : Json} {o : Operand} (h : decode room j = some o) :
    o.toJson.depth ≤ j.depth := by
  unfold decode at h
  split at h
  · obtain ⟨items, -, rfl⟩ := Option.map_eq_some_iff.1 h
    exact (depth_toJson_le _).trans (Nat.le_add_right 1 _)
  · obtain ⟨s, -, rfl⟩ := Option.map_eq_some_iff.1 h
    exact s.depth_toJson.trans_le (Nat.zero_le _)

namespace Formula
open doubles

theorem mem_doublesOf {fs : List Formula} {x : Float} : x ∈ doublesOf fs ↔ ∃ f ∈ fs, x ∈ f.doubles := by
  induction fs with
  | nil => simp [doublesOf]
  | cons f fs ih => simp [doublesOf, ih]

theorem isFinite_of_decode {room : Nat} {j : Json} {f : Formula} (h : decode room j = some f) :
    ∀ x ∈ f.doubles, x.isFinite = true := by
  refine decode_induction (P := fun _ f => ∀ x ∈ f.doubles, x.isFinite = true) ?test ?bare ?gate room j f h
  case test => exact fun _ _ _ _ _ hread => Operand.isFinite_of_decode hread
  case bare => exact fun _ _ _ _ hx => (List.not_mem_nil hx).elim
  case gate =>
    intro _ op fs _ hparts x hx
    obtain ⟨g, hg, hx⟩ := mem_doublesOf.1 hx
    obtain ⟨_, -, hfinite⟩ := hparts g hg
    exact hfinite x hx

end Formula

theorem Slot.isFinite_of_decode {room : Nat} {j : Json} {s : Slot} (h : decode room j = some s) :
    ∀ x ∈ Formula.doubles.doublesOf s.roots, x.isFinite = true := by
  intro x hx
  obtain ⟨f, hf, hxf⟩ := Formula.mem_doublesOf.1 hx
  rcases (roots_of_decode h).2 with ⟨g, rfl, hread⟩ | ⟨fs, rfl, hparts⟩
  · obtain rfl : f = g := List.mem_singleton.1 hf
    exact Formula.isFinite_of_decode hread x hxf
  · obtain ⟨_, _, -, -, hread⟩ := hparts f hf
    exact Formula.isFinite_of_decode hread x hxf

theorem float_isFinite {room : Nat} {j : Json} {x : Float} (h : float room j = some x) : x.isFinite = true := by
  unfold float at h
  split at h
  · exact Numeral.isFinite_toFloat? h
  · cases h

theorem Point.isFinite_of_decode {room : Nat} {j : Json} {p : Position} (h : decode room j = some p) :
    p.x.isFinite = true ∧ p.y.isFinite = true := by
  obtain ⟨_, fields, -, -, h⟩ := record_eq_some h
  split at h
  · simp only [required, Option.bind_eq_bind, Option.bind_eq_some_iff, Option.pure_def, Option.some_inj] at h
    obtain ⟨x, ⟨_, -, hx⟩, y, ⟨_, -, hy⟩, rfl⟩ := h
    exact ⟨float_isFinite hx, float_isFinite hy⟩
  · cases h

theorem Placement.isFinite_of_decode {room : Nat} {j : Json} {p : Placement Position} (h : decode room j = some p) :
    p.IsFinite := by
  obtain ⟨_, fields, -, -, h⟩ := record_eq_some h
  split at h
  · simp only [required, Option.bind_eq_bind, Option.bind_eq_some_iff, Option.pure_def, Option.some_inj] at h
    obtain ⟨id, -, position, ⟨_, -, hposition⟩, rfl⟩ := h
    obtain ⟨hx, hy⟩ := Point.isFinite_of_decode hposition
    exact List.forall_mem_cons.2 ⟨hx, List.forall_mem_singleton.2 hy⟩
  · cases h

theorem Rule.isFinite_of_decode {room : Nat} {j : Json} {r : Rule Position} (h : decode room j = some r) :
    ∀ x ∈ r.doubles, x.isFinite = true := by
  intro x hx
  rcases List.mem_append.1 hx with hx | hx
  · obtain ⟨s, hs, hx⟩ := List.mem_flatMap.1 hx
    obtain ⟨_, _, -, hread⟩ := slots_of_decode h s hs
    exact Slot.isFinite_of_decode hread x hx
  · obtain ⟨p, hp, hx⟩ := List.mem_flatMap.1 hx
    obtain ⟨_, _, hread⟩ := places_of_decode h p hp
    exact Placement.isFinite_of_decode hread x hx

/-! ### The document of what is read -/

theorem Double.exactInt?_of_beq_zero {x : Float} (h : (x == 0) = true) : exactInt? x = some 0 := by
  refine exactInt?_eq_some_iff.2 ⟨0, Nat.zero_le _, ?_, by split <;> rfl⟩
  rw [beq_zero_iff.1 h, Nat.zero_mul]
  rfl

/-- Both zeros are written `0`, and what is not finite as `null`. -/
theorem Scalar.toJson_normal (s : Scalar) : s.normal.toJson = s.toJson := by
  cases s with
  | number x =>
    rw [normal]
    split
    · split
      · rename_i hzero
        rw [toJson, toJson, Double.exactInt?_of_beq_zero hzero, Double.exactInt?_of_beq_zero (x := 0) rfl]
      · rfl
    · rename_i hf
      have hint : Double.exactInt? x = none :=
        Option.eq_none_iff_forall_ne_some.2 fun n hn => hf (Double.isFinite_of_exactInt? hn)
      have hnumeral : Numeral.ofFloat? x = none := by
        simpa using mt Numeral.ofFloat?_isSome_iff.1 hf
      rw [toJson, toJson, hint, Json.ofFloat, hnumeral]
  | bool b => rfl
  | text t => rfl
  | null => rfl

theorem Operand.toJson_normal (o : Operand) : o.normal.toJson = o.toJson := by
  cases o with
  | single s => exact s.toJson_normal
  | list items =>
    rw [normal, toJson, toJson, List.map_map]
    exact congrArg Json.array (List.map_congr_left fun s _ => s.toJson_normal)

theorem Comparison.members_normal (t : Comparison) : t.normal.members = t.members := by
  rw [members, members, normal, Operand.toJson_normal]

theorem Formula.toJson_normal (fs : List Formula) : ∀ f ∈ fs, f.normal.toJson = f.toJson := by
  induction fs using forest_induction with
  | nil => exact fun _ hf => (List.not_mem_nil hf).elim
  | test t fs ih =>
    refine List.forall_mem_cons.2 ⟨?_, ih⟩
    rw [normal, toJson, toJson, t.members_normal]
  | gate op gs fs ihg ih =>
    refine List.forall_mem_cons.2 ⟨?_, ih⟩
    rw [normal, toJson, toJson, normals_eq_map, toJsons_eq_map, toJsons_eq_map, List.map_map]
    have hoperands : gs.map (toJson ∘ normal) = gs.map toJson := List.map_congr_left ihg
    rw [hoperands]

theorem Slot.toJson_normal (s : Slot) : s.normal.toJson = s.toJson := by
  have hroots := Formula.toJson_normal s.roots
  cases s with
  | single f => exact hroots f (List.mem_singleton_self f)
  | many fs =>
    rw [normal, toJson, toJson, Formula.toJsons_eq_map, Formula.toJsons_eq_map, List.map_map]
    exact congrArg Json.array (List.map_congr_left hroots)

theorem Rule.toJson_normal (r : Rule Position) : r.normal.toJson = r.toJson := by
  have hslots : r.normal.slots.map Slot.toJson = r.slots.map Slot.toJson := by
    rw [normal, List.map_map]
    exact List.map_congr_left fun s _ => s.toJson_normal
  rw [toJson, toJson, hslots]
  rfl

/-! ### Levels of what is read -/

namespace Formula

/-- `n` logic nodes below the root there is one without operands. -/
inductive Bare : Nat → Formula → Prop
  | here (op : Connective) : Bare 0 (.gate op [])
  | inside {n : Nat} {f : Formula} {fs : List Formula} (op : Connective) (hf : f ∈ fs) (h : Bare n f) :
    Bare (n + 1) (.gate op fs)

/-- The object of each logic node and the list in it are two levels. -/
theorem Bare.lt_depth {n : Nat} {f : Formula} (h : Bare n f) : 2 * n + 1 < f.toJson.depth := by
  induction h with
  | here op => exact two_le_depth_gate op []
  | inside op hf h ih =>
    rename_i n f fs
    by_contra hle
    have hgate : (toJson (.gate op fs)).depth ≤ 2 * n + 1 + 2 := by omega
    exact absurd ih (Nat.not_lt.2 (depth_gate_le_iff.1 hgate f hf))

/-- A tree goes out with no more levels than it came with, except for the list of a logic node that came at the
last level. -/
theorem depth_toJson_of_decode {room : Nat} {j : Json} {f : Formula} (h : decode room j = some f) :
    ∀ m, j.depth ≤ m → f.toJson.depth ≤ m ∨ ∃ n, m = 2 * n + 1 ∧ Bare n f := by
  refine decode_induction (P := fun j f => ∀ m, j.depth ≤ m → f.toJson.depth ≤ m ∨ ∃ n, m = 2 * n + 1 ∧ Bare n f)
    ?test ?bare ?gate room j f h
  case test =>
    intro j operand room t hlt hread m hm
    have hoperand := Operand.depth_toJson_le_of_decode hread
    obtain ⟨m, rfl⟩ := Nat.exists_eq_add_of_le' (Nat.one_le_of_lt (hlt.trans_le hm))
    have hvalue : t.operand.toJson.depth ≤ m := hoperand.trans (Nat.le_of_lt_succ (hlt.trans_le hm))
    refine .inl ?_
    rw [toJson, Json.depth_record_le_iff]
    simpa [Comparison.members, Operator.toJson] using hvalue
  case bare =>
    intro j op hpos m hm
    rcases Nat.lt_or_ge 1 m with htwo | hone
    · have hgate : (toJson (.gate op [])).depth ≤ 0 + 2 := depth_gate_le_iff.2 fun _ hg => (List.not_mem_nil hg).elim
      exact .inl (hgate.trans htwo)
    · exact .inr ⟨0, by omega, .here op⟩
  case gate =>
    intro j op fs htwo hparts m hm
    obtain ⟨m, rfl⟩ := Nat.exists_eq_add_of_le' (htwo.trans hm)
    by_cases hbare : ∃ f ∈ fs, ∃ n, m = 2 * n + 1 ∧ Bare n f
    · obtain ⟨f, hf, n, rfl, hbare⟩ := hbare
      exact .inr ⟨n + 1, by omega, .inside op hf hbare⟩
    · refine .inl (depth_gate_le_iff.2 fun f hf => ?_)
      obtain ⟨part, hpart, ih⟩ := hparts f hf
      exact (ih m (by omega)).resolve_right fun h => hbare ⟨f, hf, h⟩

end Formula

/-- A slot is left with 125 levels. In a list its trees have 124, and no logic node that came without operands
stands at the last of them. -/
theorem Slot.depth_toJson_of_decode {j : Json} {s : Slot} (h : decode 125 j = some s) :
    s.toJson.depth ≤ 125 ↔ ∀ f, s = .single f → ¬ f.Bare 62 := by
  constructor
  · rintro hdepth f rfl hbare
    exact absurd hbare.lt_depth (Nat.not_lt.2 hdepth)
  · intro hbare
    obtain ⟨hj, ⟨f, rfl, hread⟩ | ⟨fs, rfl, hparts⟩⟩ := roots_of_decode h
    · refine (Formula.depth_toJson_of_decode hread 125 hj).resolve_right ?_
      rintro ⟨n, hn, hn'⟩
      obtain rfl : n = 62 := by omega
      exact hbare f rfl hn'
    · rw [toJson, Formula.toJsons_eq_map, Json.depth_array_le_iff, List.forall_mem_map]
      intro f hf
      obtain ⟨room, item, hroom, hitem, hread⟩ := hparts f hf
      refine (Formula.depth_toJson_of_decode hread 124 (by omega)).resolve_right ?_
      rintro ⟨n, hn, -⟩
      omega

/-! ### Logic nodes in one another -/

/-- `n` logic nodes in one another, and in them one without a list of operands. -/
def Json.nested : Nat → Json
  | 0 => record [("type", text "logic"), ("logicType", text "AND")]
  | n + 1 => record [("type", text "logic"), ("logicType", text "AND"), ("children", array [nested n])]

def Formula.nested : Nat → Formula
  | 0 => .gate .and []
  | n + 1 => .gate .and [nested n]

theorem Json.depth_nested (n : Nat) : (nested n).depth = 2 * n + 1 := by
  induction n with
  | zero => rfl
  | succ n ih =>
    simp only [nested, record, List.map_cons, List.map_nil, depth, depth.ofMembers, depth.ofItems, ih, text]
    omega

theorem Json.isReadable_nested (n : Nat) : (nested n).isReadable = true := by
  induction n with
  | zero => rfl
  | succ n ih => simp [nested, isReadable_record, isReadable_array, ih]

theorem Formula.decode_nested {n room : Nat} (h : n < room) : decode room (Json.nested n) = some (nested n) := by
  induction n generalizing room with
  | zero =>
    obtain ⟨room, rfl⟩ := Nat.exists_eq_add_of_lt h
    rfl
  | succ n ih =>
    obtain ⟨room, rfl⟩ : ∃ k, room = k + 1 := ⟨room - 1, by omega⟩
    show ([Json.nested n].mapM (decode room)).bind (fun fs => some (Formula.gate .and fs)) =
      some (Formula.gate .and [nested n])
    rw [List.mapM_cons, ih (Nat.lt_of_succ_lt_succ h)]
    rfl

theorem Formula.bare_nested (n : Nat) : (nested n).Bare n := by
  induction n with
  | zero => exact .here .and
  | succ n ih => exact .inside .and List.mem_cons_self ih

namespace Rule

def nested (n : Nat) : Rule Position where
  id := "r1"
  name := "Nested"
  slots := [.single (.nested n)]
  awards := []

/-- A document for that rule, which leaves out all that it can. -/
def nestedDocument (n : Nat) : Json :=
  .record [("id", .text "r1"), ("name", .text "Nested"), ("conditions", .array [.nested n])]

theorem decode_nestedDocument {n : Nat} (hn : n ≤ 62) : decode maxDepth (nestedDocument n) = some (nested n) := by
  have hslot : Slot.decode 125 (.nested n) = some (.single (.nested n)) := by
    rw [Slot.decode, checked, Json.depth_nested, Json.isReadable_nested, if_pos ⟨by omega, rfl⟩,
      Formula.decode_nested (by omega)]
    rfl
  show (listOf Slot.decode 126 (.array [.nested n])).bind (fun slots => some _) = some (nested n)
  rw [listOf, List.mapM_cons, hslot]
  rfl

end Rule

/-! ### Storing again -/

namespace Rule

theorem depth_toJson_of_decode {j : Json} {r : Rule Position} (h : decode maxDepth j = some r) :
    r.toJson.depth ≤ maxDepth ↔ ∀ f, .single f ∈ r.slots → ¬ f.Bare 62 := by
  have hslot : ∀ s ∈ r.slots, (s.toJson.depth ≤ 125 ↔ ∀ f, s = .single f → ¬ f.Bare 62) := by
    intro s hs
    obtain ⟨room, item, hroom, hread⟩ := slots_of_decode h s hs
    obtain rfl : room = 125 := by simp only [maxDepth] at hroom; omega
    exact Slot.depth_toJson_of_decode hread
  rw [maxDepth, depth_toJson_le_iff (n := 125) (by decide)]
  constructor
  · exact fun hall f hf => (hslot _ hf).1 (hall _ hf) f rfl
  · exact fun hall s hs => (hslot s hs).2 fun f hf => hall f (hf ▸ hs)

/-- A rule that was read by `deserialize` is written by `serialize` as a text for an equal rule. It is read again
exactly if no slot is a single tree that is `Bare` at level 62: the empty list of operands there may be left out of
a document, but it is written, one level too deep. -/
theorem deserialize_again {text : String} {r : Rule Position} (hread : (deserialize text).1 = some r)
    (h : ∀ x ∈ r.doubles, Double.Rereads x) :
    ∃ r' : Rule Position, (r' == r) = true ∧ r'.serialize = r.serialize ∧
      ((∀ f, .single f ∈ r.slots → ¬ f.Bare 62) → (deserialize r.serialize).1 = some r') ∧
      ∀ f, .single f ∈ r.slots → f.Bare 62 → (deserialize r.serialize).1 = none := by
  rw [fst_deserialize, parse?] at hread
  obtain ⟨j, -, hdecode⟩ := Option.bind_eq_some_iff.1 hread
  have hfinite : ∀ x ∈ r.doubles, x.isFinite = true := isFinite_of_decode hdecode
  have hplaced : r.IsPlaced := fun p hp x hx =>
    hfinite x (List.mem_append_right _ (List.mem_flatMap.2 ⟨p, hp, hx⟩))
  have hagain : (deserialize r.serialize).1 = if r.toJson.depth ≤ maxDepth then some r.normal else none := by
    rw [fst_deserialize, parse?_serialize, (reads h).eq_ite, if_pos hplaced]
  have hdepth := depth_toJson_of_decode hdecode
  refine ⟨r.normal, normal_beq hfinite, congrArg Json.compact r.toJson_normal, fun hbare => ?_, fun f hf hbare => ?_⟩
  · rw [hagain, if_pos (hdepth.2 hbare)]
  · rw [hagain, if_neg fun hfits => hdepth.1 hfits f hf hbare]

/-- A gate whose operands were left out, below 62 others. -/
theorem deserialize_again_nested : ∃ r, (deserialize (nestedDocument 62).compact).1 = some r ∧
    (∀ x ∈ r.doubles, Double.Rereads x) ∧ (deserialize r.serialize).1 = none := by
  have hread : (deserialize (nestedDocument 62).compact).1 = some (nested 62) := by
    rw [fst_deserialize, parse?, Json.parse?_compact, Option.bind_some, decode_nestedDocument (Nat.le_refl 62)]
  have hdoubles : ∀ x ∈ (nested 62).doubles, Double.Rereads x := by decide +kernel
  have hslot : .single (.nested 62) ∈ (nested 62).slots := List.mem_singleton_self _
  obtain ⟨-, -, -, -, hrefused⟩ := deserialize_again hread hdoubles
  exact ⟨nested 62, hread, hdoubles, hrefused _ hslot (Formula.bare_nested 62)⟩

end Rule

end BadgeRules
