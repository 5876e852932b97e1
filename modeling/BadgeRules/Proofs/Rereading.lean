import BadgeRules.Json.RoundTrip
import BadgeRules.Proofs.Decoding
import BadgeRules.Proofs.Doubles
import BadgeRules.Proofs.Numbering
import BadgeRules.Storage.Basic

/-!
# Rules are read back

Every part of a rule is read back from its document if that is not nested too deep: scalars
(`Scalar.toJson_cases`), trees by induction along a forest (`Formula.decode_forest`), slots, for which a
single tree is tried before a list (`Slot.decode_roots`), places if they are at numbers
(`Placement.reads`), and so the whole rule (`Rule.deserialize_serialize`). Numerals are read a little off
the nearest double at times, so what is written as a double has to be one that is read back
(`Double.Rereads`).
-/

namespace BadgeRules
open Decoder

/-- What is written for the double is read as that double. -/
def Double.Rereads (x : Float) : Prop := ∀ n, Numeral.ofFloat? x = some n → n.toFloat? = some x

instance (x : Float) : Decidable (Double.Rereads x) :=
  decidable_of_iff ((Numeral.ofFloat? x).all fun n => n.toFloat? = some x) <| by
    cases h : Numeral.ofFloat? x <;> simp [Double.Rereads, h]

/-! ### What is written as a double, and what is read for it -/

namespace Scalar

/-- An integer is written as such, any other number as a double. -/
def doubles : Scalar → List Float
  | .number x => if (Double.exactInt? x).isSome then [] else [x]
  | _ => []

/-- What is read for a scalar: there is one zero, and no number that is not finite. -/
def normal : Scalar → Scalar
  | .number x => if x.isFinite then .number (if x == 0 then 0 else x) else .null
  | s => s

end Scalar

namespace Operand

def doubles : Operand → List Float
  | .list items => items.flatMap Scalar.doubles
  | .single item => item.doubles

def normal : Operand → Operand
  | .list items => .list (items.map Scalar.normal)
  | .single item => .single item.normal

end Operand

def Comparison.normal (c : Comparison) : Comparison := { c with operand := c.operand.normal }

namespace Formula

def doubles : Formula → List Float
  | .test c => c.operand.doubles
  | .gate _ fs => doublesOf fs
where
  doublesOf : List Formula → List Float
    | [] => []
    | f :: fs => f.doubles ++ doublesOf fs

def normal : Formula → Formula
  | .test c => .test c.normal
  | .gate op fs => .gate op (normals fs)
where
  normals : List Formula → List Formula
    | [] => []
    | f :: fs => f.normal :: normals fs

theorem normals_eq_map (fs : List Formula) : normal.normals fs = fs.map normal := by
  induction fs with
  | nil => rfl
  | cons f fs ih => rw [normal.normals, ih, List.map_cons]

theorem toJsons_eq_map (fs : List Formula) : toJson.toJsons fs = fs.map toJson := by
  induction fs with
  | nil => rfl
  | cons f fs ih => rw [toJson.toJsons, ih, List.map_cons]

end Formula

def Slot.normal : Slot → Slot
  | .single root => .single root.normal
  | .many roots => .many (roots.map Formula.normal)

namespace Placement

def doubles (p : Placement Position) : List Float := [p.position.x, p.position.y]

def IsFinite (p : Placement Position) : Prop := ∀ x ∈ p.doubles, x.isFinite = true

instance (p : Placement Position) : Decidable p.IsFinite := inferInstanceAs (Decidable (∀ x ∈ p.doubles, _))

end Placement

namespace Rule

def doubles (r : Rule Position) : List Float :=
  r.slots.flatMap (fun s => Formula.doubles.doublesOf s.roots) ++ (r.layout.getD []).flatMap Placement.doubles

def normal (r : Rule Position) : Rule Position := { r with slots := r.slots.map Slot.normal }

/-- Whether nodes are placed at numbers. -/
def IsPlaced (r : Rule Position) : Prop := ∀ p ∈ r.layout.getD [], p.IsFinite

instance (r : Rule Position) : Decidable r.IsPlaced := inferInstanceAs (Decidable (∀ p ∈ r.layout.getD [], _))

end Rule

/-! ### Comparisons -/

theorem ofFloat_cases {x : Float} (h : Double.Rereads x) :
    (x.isFinite = true ∧ ∃ n, Json.ofFloat x = .atom (.number n) ∧ n.toFloat? = some x) ∨
      (x.isFinite = false ∧ Json.ofFloat x = .null) := by
  have hfinite := Numeral.ofFloat?_isSome_iff (x := x)
  rw [Json.ofFloat]
  cases hn : Numeral.ofFloat? x with
  | none => rw [hn] at hfinite; exact .inr ⟨by simpa using hfinite, rfl⟩
  | some n => rw [hn] at hfinite; exact .inl ⟨hfinite.1 rfl, n, rfl, h n hn⟩

namespace Scalar

/-- A scalar is an atom that can be read. -/
theorem toJson_cases (s : Scalar) (h : ∀ x ∈ s.doubles, Double.Rereads x) :
    ∃ a : Atom, s.toJson = .atom a ∧ a.isReadable = true ∧ ∀ room, decode room (.atom a) = some s.normal := by
  cases s with
  | bool b => exact ⟨_, rfl, rfl, fun _ => rfl⟩
  | text t => exact ⟨_, rfl, rfl, fun _ => rfl⟩
  | null => exact ⟨_, rfl, rfl, fun _ => rfl⟩
  | number x =>
    cases hi : Double.exactInt? x with
    | some n =>
      have hn := Numeral.toFloat?_ofInt hi
      refine ⟨.number (.ofInt n), by rw [toJson, hi]; rfl, by rw [Atom.isReadable, hn]; rfl, fun room => ?_⟩
      rw [decode, hn, normal, if_pos (Double.isFinite_of_exactInt? hi)]; rfl
    | none =>
      have hx : Double.Rereads x := h x (by simp [doubles, hi])
      rcases ofFloat_cases hx with ⟨hf, n, hn, hread⟩ | ⟨hf, hn⟩
      · -- zero is an integer
        have hne : ¬ (x == 0) = true := by
          rw [Double.beq_zero_iff]
          intro hzero
          have := Double.exactInt?_eq_some_iff.2 ⟨0, Nat.zero_le _, by rw [hzero, Nat.zero_mul]; rfl, rfl⟩
          rw [hi] at this; cases this
        refine ⟨.number n, by rw [toJson, hi, ← hn], by rw [Atom.isReadable, hread]; rfl, fun room => ?_⟩
        rw [decode, hread, normal, if_pos hf, if_neg hne]; rfl
      · refine ⟨.null, by rw [toJson, hi, ← Json.null, ← hn], rfl, fun room => ?_⟩
        rw [decode, normal, hf]; rfl

theorem reads {s : Scalar} (h : ∀ x ∈ s.doubles, Double.Rereads x) : decode.Reads s.toJson (some s.normal) := by
  obtain ⟨a, ha, -, hread⟩ := s.toJson_cases h
  intro room v
  rw [ha, hread]
  simp [Json.depth]

end Scalar

namespace Operand

theorem reads {o : Operand} (h : ∀ x ∈ o.doubles, Double.Rereads x) : decode.Reads o.toJson (some o.normal) := by
  cases o with
  | list items =>
    have hitems : ∀ s ∈ items, Scalar.decode.Reads s.toJson (some s.normal) :=
      fun s hs => Scalar.reads fun x hx => h x (List.mem_flatMap.2 ⟨s, hs, hx⟩)
    intro room v
    have hlist := (listOf_reads hitems).eq_ite room
    rw [mapM_some] at hlist
    rw [toJson, decode, hlist]
    split <;> simp [*, normal]
  | single s =>
    obtain ⟨a, ha, -, hread⟩ := s.toJson_cases h
    intro room v
    rw [toJson, ha]
    simp [decode, hread, Json.depth, normal]

theorem isReadable_toJson {o : Operand} (h : ∀ x ∈ o.doubles, Double.Rereads x) : o.toJson.isReadable = true := by
  have hscalar : ∀ s : Scalar, (∀ x ∈ s.doubles, Double.Rereads x) → s.toJson.isReadable = true := by
    intro s hs
    obtain ⟨a, ha, hread, -⟩ := s.toJson_cases hs
    rw [ha]; exact hread
  cases o with
  | list items =>
    rw [toJson, Json.isReadable_array, List.all_eq_true, List.forall_mem_map]
    exact fun s hs => hscalar s fun x hx => h x (List.mem_flatMap.2 ⟨s, hs, hx⟩)
  | single s => exact hscalar s h

end Operand

theorem Operator.lookup_name (op : Operator) : Operator.names.lookup op.name = some op := by
  cases op <;> decide

theorem Connective.lookup_word (op : Connective) : Connective.names.lookup op.word = some op := by
  cases op <;> decide

namespace Comparison

theorem reads {c : Comparison} (h : ∀ x ∈ c.operand.doubles, Double.Rereads x) :
    decode.Reads (.record c.members) (some c.normal) := by
  refine record_reads (by simp [members]) fun room v => ?_
  have hfield := string_reads c.field room
  have hoperator : choice true Operator.names room c.operator.toJson = some c.operator :=
    (choice_text _ _ _ _).trans c.operator.lookup_name
  have hoperand := Operand.reads h room
  have hdepth : c.operator.toJson.depth = 0 := rfl
  simp [members, List.lookup_cons, required, hfield, hoperator, hoperand, hdepth, Option.bind_eq_some_iff, normal]

theorem isReadable_record {c : Comparison} (h : ∀ x ∈ c.operand.doubles, Double.Rereads x) :
    (Json.record c.members).isReadable = true := by
  rw [Json.isReadable_record]
  simp [members, Operator.toJson, Operand.isReadable_toJson h]

end Comparison

/-! ### Trees -/

namespace Formula

open doubles

theorem decode_test {c : Comparison} (h : ∀ x ∈ c.operand.doubles, Double.Rereads x) {room : Nat}
    (hroom : (toJson (.test c)).depth ≤ room) : decode room (toJson (.test c)) = some (.test c.normal) := by
  cases room with
  | zero => simp [toJson, Json.record, Json.depth] at hroom
  | succ room =>
    have hrest : (Json.record c.members).depth ≤ room + 1 := by
      rw [toJson, Json.depth_record_le_iff] at hroom
      exact Json.depth_record_le_iff.2 fun m hm => hroom m (List.mem_cons_of_mem _ hm)
    have hread := (Comparison.reads h).eq_ite (room + 1)
    rw [if_pos hrest] at hread
    rw [toJson, decode, Json.tagged?_record (by simp [Comparison.members])]
    simp [isTag, Json.text, hread]

theorem decode_gate {op : Connective} {fs : List Formula} {room : Nat}
    (hfs : (fs.map toJson).mapM (decode room) = some (fs.map normal)) :
    decode (room + 1) (toJson (.gate op fs)) = some (.gate op (fs.map normal)) := by
  have hfields : (Json.record [("logicType", op.toJson), ("children", .array (fs.map toJson))]).fields?
      ["logicType", "children"] = some [some op.toJson, some (.array (fs.map toJson))] :=
    (Json.fields?_record (by simp) _).trans (by simp [List.lookup_cons])
  have hop : choice true Connective.names room op.toJson = some op := (choice_text _ _ _ _).trans op.lookup_word
  rw [toJson, toJsons_eq_map, decode, Json.tagged?_record (by simp)]
  simp [isTag, Json.text, hfields, required, hop, hfs]

theorem two_le_depth_gate (op : Connective) (gs : List Formula) : 2 ≤ (toJson (.gate op gs)).depth := by
  simp only [toJson, Json.record, List.map_cons, Json.depth, Json.depth.ofMembers]
  omega

theorem depth_gate_le_iff {op : Connective} {gs : List Formula} {n : Nat} :
    (toJson (.gate op gs)).depth ≤ n + 2 ↔ ∀ g ∈ gs, g.toJson.depth ≤ n := by
  rw [toJson, toJsons_eq_map, Json.depth_record_le_iff]
  simp [Connective.toJson, Json.depth_array_le_iff]

/-- The trees of a forest are read back wherever they are not nested too deep. -/
theorem decode_forest (fs : List Formula) (h : ∀ x ∈ doublesOf fs, Double.Rereads x) {room : Nat}
    (hroom : ∀ f ∈ fs, f.toJson.depth ≤ room) :
    (fs.map toJson).mapM (decode room) = some (fs.map normal) := by
  induction fs using forest_induction generalizing room with
  | nil => rfl
  | test t fs ih =>
    obtain ⟨ht, hfs⟩ := List.forall_mem_append.1 h
    obtain ⟨htroom, hroom⟩ := List.forall_mem_cons.1 hroom
    rw [List.map_cons, List.mapM_cons, decode_test ht htroom, ih hfs hroom]
    rfl
  | gate op gs fs ihg ih =>
    obtain ⟨hgs, hfs⟩ := List.forall_mem_append.1 h
    obtain ⟨hgroom, hroom⟩ := List.forall_mem_cons.1 hroom
    obtain ⟨room, rfl⟩ := Nat.exists_eq_add_of_le' ((two_le_depth_gate op gs).trans hgroom)
    have hup := depth_gate_le_iff.1 hgroom
    have hgate : decode (room + 2) (toJson (.gate op gs)) = some (.gate op (gs.map normal)) :=
      decode_gate (ihg hgs fun g hg => (hup g hg).trans (Nat.le_succ room))
    rw [List.map_cons, List.mapM_cons, hgate, ih hfs hroom]
    simp [normal, normals_eq_map]

theorem isReadable_forest (fs : List Formula) (h : ∀ x ∈ doublesOf fs, Double.Rereads x) :
    ∀ f ∈ fs, f.toJson.isReadable = true := by
  induction fs using forest_induction with
  | nil => exact fun _ hf => (List.not_mem_nil hf).elim
  | test t fs ih =>
    obtain ⟨ht, hfs⟩ := List.forall_mem_append.1 h
    refine List.forall_mem_cons.2 ⟨?_, ih hfs⟩
    rw [toJson, Json.isReadable_record, List.all_cons, ← Json.isReadable_record, Comparison.isReadable_record ht]
    rfl
  | gate op gs fs ihg ih =>
    obtain ⟨hgs, hfs⟩ := List.forall_mem_append.1 h
    have hchildren : (Json.array (gs.map toJson)).isReadable = true := by
      rw [Json.isReadable_array, List.all_eq_true, List.forall_mem_map]; exact ihg hgs
    refine List.forall_mem_cons.2 ⟨?_, ih hfs⟩
    rw [toJson, toJsons_eq_map, Json.isReadable_record]
    simp [Connective.toJson, hchildren]

theorem decode_toJson {f : Formula} (h : ∀ x ∈ f.doubles, Double.Rereads x) {room : Nat}
    (hroom : f.toJson.depth ≤ room) : decode room f.toJson = some f.normal := by
  have hone : ∀ x ∈ doublesOf [f], Double.Rereads x := by simpa [doublesOf] using h
  have hread := decode_forest [f] hone (List.forall_mem_singleton.2 hroom)
  obtain ⟨g, hg, hfg⟩ := Option.bind_eq_some_iff.1 (by simpa using hread)
  rw [hg, List.singleton_inj.1 (Option.some_inj.1 hfg)]

/-- A list is no tree. -/
theorem decode_array_none (room : Nat) (fs : List Formula) : decode room (.array (fs.map toJson)) = none := by
  cases room with
  | zero => rfl
  | succ room =>
    cases fs with
    | nil => rfl
    | cons f fs => cases f <;> rfl

end Formula

/-! ### Slots -/

namespace Slot

theorem isReadable_toJson {s : Slot} (h : ∀ x ∈ Formula.doubles.doublesOf s.roots, Double.Rereads x) :
    s.toJson.isReadable = true := by
  have hroots := Formula.isReadable_forest s.roots h
  cases s with
  | single f => exact hroots f (List.mem_singleton_self f)
  | many fs =>
    rw [toJson, Formula.toJsons_eq_map, Json.isReadable_array, List.all_eq_true, List.forall_mem_map]
    exact hroots

/-- A single tree is read as one, and a list is read as a list. -/
theorem decode_roots {s : Slot} (h : ∀ x ∈ Formula.doubles.doublesOf s.roots, Double.Rereads x) {room : Nat}
    (hroom : s.toJson.depth ≤ room) :
    ((Formula.decode room s.toJson).map single).or ((listOf Formula.decode room s.toJson).map many) =
      some s.normal := by
  cases s with
  | single f =>
    have hf : ∀ x ∈ f.doubles, Double.Rereads x := by simpa [roots, Formula.doubles.doublesOf] using h
    rw [toJson, Formula.decode_toJson hf hroom]
    rfl
  | many fs =>
    rw [toJson, Formula.toJsons_eq_map] at hroom ⊢
    rw [Formula.decode_array_none, Option.map_none, Option.none_or]
    cases room with
    | zero => simp [Json.depth] at hroom
    | succ room =>
      rw [Json.depth_array_le_iff, List.forall_mem_map] at hroom
      rw [listOf, Formula.decode_forest fs h hroom]
      rfl

theorem reads {s : Slot} (h : ∀ x ∈ Formula.doubles.doublesOf s.roots, Double.Rereads x) :
    decode.Reads s.toJson (some s.normal) := by
  intro room v
  rw [decode, checked, isReadable_toJson h]
  by_cases hroom : s.toJson.depth ≤ room
  · rw [if_pos ⟨hroom, rfl⟩, decode_roots h hroom]
    simp [hroom]
  · rw [if_neg fun h => hroom h.1]
    simp [hroom]

end Slot

/-! ### Awards and places -/

theorem Award.reads (a : Award) : decodeAction.Reads a.toAction (some a) := by
  obtain ⟨badge, name, quantity⟩ := a
  refine record_reads (by cases name <;> simp [members, Json.optional]) fun room v => ?_
  have hword := word_reads quantity room
  have hbadge := string_reads badge room
  cases name <;>
    simp [members, Json.optional, List.lookup_cons, required, hword, hbadge, Option.bind_eq_some_iff, action,
      choice_text]

theorem depth_ofFloat (x : Float) : (Json.ofFloat x).depth = 0 := by
  rw [Json.ofFloat]; split <;> rfl

theorem float_reads {x : Float} (h : Double.Rereads x) :
    float.Reads (.ofFloat x) (if x.isFinite then some x else none) := by
  intro room v
  rcases ofFloat_cases h with ⟨hf, n, hn, hread⟩ | ⟨hf, hn⟩
  · simp [hn, float, hread, hf, Json.depth]
  · simp [hn, Json.null, float, hf]

theorem Point.reads {p : Position} (hx : Double.Rereads p.x) (hy : Double.Rereads p.y) :
    Point.decode.Reads p.toJson (if p.x.isFinite ∧ p.y.isFinite then some p else none) := by
  refine record_reads (by simp) fun room v => ?_
  have hreadx := float_reads hx room
  have hready := float_reads hy room
  simp [List.lookup_cons, required, hreadx, hready, Option.bind_eq_some_iff, depth_ofFloat, and_assoc]

theorem Placement.reads {p : Placement Position} (h : ∀ x ∈ p.doubles, Double.Rereads x) :
    Placement.decode.Reads p.toJson (if p.IsFinite then some p else none) := by
  have hposition := Point.reads (h p.position.x (by simp [doubles])) (h p.position.y (by simp [doubles]))
  refine record_reads (by simp) fun room v => ?_
  have hid := string_reads p.id room
  simp [List.lookup_cons, required, hid, hposition room, Option.bind_eq_some_iff, and_assoc, IsFinite, doubles]

theorem layout_reads {l : List (Placement Position)} (h : ∀ x ∈ l.flatMap Placement.doubles, Double.Rereads x) :
    decodeLayout.Reads (layoutToJson l) (if ∀ p ∈ l, p.IsFinite then some l else none) := by
  have hplaces := listOf_reads fun p hp => Placement.reads fun x hx => h x (List.mem_flatMap.2 ⟨p, hp, hx⟩)
  rw [mapM_guard, List.map_id'] at hplaces
  refine record_reads (by simp) fun room v => ?_
  simp [List.lookup_cons, withDefault, hplaces room]

/-! ### Rules -/

namespace Rule

theorem fst_deserialize (text : String) : (deserialize text).1 = parse? text := by
  rw [deserialize]; split <;> rename_i ht <;> rw [ht]

/-- The members of the rule, with these documents for its slots, awards and layout. -/
def membersWith (r : Rule Position) (slots awards : Json) (layout : Option Json) : List (String × Json) :=
  [("id", .text r.id), ("name", .text r.name)] ++ Json.optional "description" (r.description.map .text) ++
    [("conditions", slots), ("actions", awards)] ++ Json.optional "layout" layout

theorem keys_membersWith (r : Rule Position) (slots awards : Json) (layout : Option Json) :
    ((r.membersWith slots awards layout).map Prod.fst).Nodup := by
  obtain ⟨id, name, description⟩ := r
  cases description <;> cases layout <;> simp [membersWith, Json.optional]

theorem fields?_membersWith (r : Rule Position) (slots awards : Json) (layout : Option Json) :
    (Json.record (r.membersWith slots awards layout)).fields?
        ["id", "name", "description", "conditions", "actions", "layout"] =
      some [some (.text r.id), some (.text r.name), r.description.map .text, some slots, some awards, layout] := by
  rw [Json.fields?_record (r.keys_membersWith slots awards layout)]
  obtain ⟨id, name, description⟩ := r
  cases description <;> cases layout <;> simp [membersWith, Json.optional, List.lookup_cons]

section Placed

variable {id name : String} {description : Option String} {slots : List Slot} {awards : List Award}

theorem isPlaced_none : (⟨id, name, description, slots, awards, none⟩ : Rule Position).IsPlaced := nofun

theorem isPlaced_some {l : List (Placement Position)} :
    (⟨id, name, description, slots, awards, some l⟩ : Rule Position).IsPlaced ↔ ∀ p ∈ l, p.IsFinite := Iff.rfl

end Placed

theorem reads {r : Rule Position} (h : ∀ x ∈ r.doubles, Double.Rereads x) :
    decode.Reads r.toJson (if r.IsPlaced then some r.normal else none) := by
  obtain ⟨id, name, description, slots, awards, layout⟩ := r
  obtain ⟨hs, hl⟩ := List.forall_mem_append.1 h
  have hslots := listOf_reads fun s hmem => Slot.reads fun x hx => hs x (List.mem_flatMap.2 ⟨s, hmem, hx⟩)
  have hawards := listOf_reads fun (a : Award) (_ : a ∈ awards) => a.reads
  rw [mapM_some] at hslots hawards
  refine record_reads (keys_membersWith ⟨id, name, description, slots, awards, layout⟩ _ _ _) fun room v => ?_
  have hid := string_reads id room
  have hname := string_reads name room
  cases layout with
  | none =>
    cases description <;>
      simp [Json.optional, List.lookup_cons, required, withDefault, hid, hname, hslots room, hawards room,
        Option.bind_eq_some_iff, isPlaced_none, normal, and_assoc]
  | some l =>
    have hl : decodeLayout.Reads (layoutToJson l) (if ∀ p ∈ l, p.IsFinite then some l else none) := layout_reads hl
    have hnull : layoutToJson l ≠ .null := by simp [layoutToJson, Json.record, Json.null]
    have hlayout := nullable_reads hl hnull room
    cases description <;>
      simp [Json.optional, List.lookup_cons, required, withDefault, hid, hname, hslots room, hawards room,
        hlayout, Option.bind_eq_some_iff, isPlaced_some, normal, and_assoc]

theorem parse?_serialize (r : Rule Position) : parse? r.serialize = decode maxDepth r.toJson := by
  rw [parse?, serialize, Json.parse?_compact]; rfl

theorem parse?_pretty (r : Rule Position) : parse? r.toJson.pretty = decode maxDepth r.toJson := by
  rw [parse?, Json.parse?_pretty]; rfl

/-- `deserialize` reads both texts of a rule, that of `serialize` and that on many lines, as `Rule.normal` if the
document has at most 127 levels and the layout `IsPlaced`, and as nothing otherwise. -/
theorem deserialize_serialize (r : Rule Position) (h : ∀ x ∈ r.doubles, Double.Rereads x) :
    deserialize r.serialize = deserialize r.toJson.pretty ∧
      (deserialize r.serialize).1 = if r.toJson.depth ≤ 127 ∧ r.IsPlaced then some r.normal else none := by
  refine ⟨by rw [deserialize, deserialize, parse?_serialize, parse?_pretty], ?_⟩
  rw [fst_deserialize, parse?_serialize, (reads h).eq_ite, maxDepth, ite_and]

/-- A rule with a bit of everything. -/
def mixed (items : List Scalar) (limit : Scalar) : Rule Position where
  id := "r1"
  name := "Mixed"
  slots := [.many [.gate .not []], .many [],
    .single (.gate .or [.test ⟨"tier", .oneOf, .list items⟩, .test ⟨"amount", .atLeast, .single limit⟩])]
  awards := [⟨"GOLD", none, 1⟩, ⟨"SILVER", some "Silver", 0⟩]
  layout := some [⟨"a", ⟨0.1, -2.5⟩⟩]

/-- Slots of all shapes, a zero with a sign and a number that is not finite. -/
theorem deserialize_serialize_mixed :
    let r := mixed [.number (-0.0), .number 2.5, .text "007", .null, .bool true] (.number (1 / 0))
    deserialize r.serialize = deserialize r.toJson.pretty ∧ (deserialize r.serialize).1 =
      some (mixed [.number 0, .number 2.5, .text "007", .null, .bool true] .null) := by
  intro r
  obtain ⟨hstyles, hread⟩ := deserialize_serialize r (by decide +kernel)
  rw [if_pos (by decide +kernel)] at hread
  exact ⟨hstyles, hread.trans rfl⟩

end Rule

end BadgeRules
