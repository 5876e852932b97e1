import Mathlib
import BadgeRules.Proofs.Folders
import BadgeRules.Proofs.Nesting
import BadgeRules.Proofs.Redrawing

/-!
# What is saved and what can be loaded

The doubles of a compiled rule are those of its canvas (`Canvas.doubles_compile`), and if they are all
numbers, what is read back for the rule equals it (`Rule.normal_beq`). So only the nesting of the document
decides whether a saved rule can be loaded (`load_saved`). Nothing bounds it when a canvas is drawn or
saved.
-/

namespace BadgeRules

/-! ### What is read back is equal -/

theorem map_beq {α : Type} [BEq α] {f : α → α} {as : List α} (h : ∀ a ∈ as, (f a == a) = true) :
    (as.map f == as) = true := by
  induction as with
  | nil => rfl
  | cons a as ih =>
    obtain ⟨ha, has⟩ := List.forall_mem_cons.1 h
    rw [List.map_cons, List.cons_beq_cons, ha, ih has]
    rfl

theorem list_beq_self {α : Type} [BEq α] {as : List α} (h : ∀ a ∈ as, (a == a) = true) : (as == as) = true := by
  simpa using map_beq (f := id) h

theorem Scalar.normal_beq {s : Scalar} (h : ∀ x ∈ s.doubles, x.isFinite = true) : (s.normal == s) = true := by
  cases s with
  | bool b => exact beq_self_eq_true b
  | text t => exact beq_self_eq_true t
  | null => rfl
  | number x =>
    have hf : x.isFinite = true := by
      cases hi : Double.exactInt? x with
      | some n => exact Double.isFinite_of_exactInt? hi
      | none => exact h x (by simp [doubles, hi])
    rw [normal, if_pos hf]
    show ((if x == 0 then 0 else x) == x) = true
    split
    · rename_i hzero; exact Double.zero_beq hzero
    · exact Double.beq_self hf

theorem Operand.normal_beq {o : Operand} (h : ∀ x ∈ o.doubles, x.isFinite = true) : (o.normal == o) = true := by
  cases o with
  | single s => exact Scalar.normal_beq h
  | list items =>
    have hitems : ∀ s ∈ items, (s.normal == s) = true :=
      fun s hs => Scalar.normal_beq fun x hx => h x (List.mem_flatMap.2 ⟨s, hs, hx⟩)
    exact map_beq hitems

theorem Comparison.normal_beq {t : Comparison} (h : ∀ x ∈ t.operand.doubles, x.isFinite = true) :
    (t.normal == t) = true := by
  show (t.field == t.field && (t.operator == t.operator && t.operand.normal == t.operand)) = true
  rw [Operand.normal_beq h, beq_self_eq_true, beq_self_eq_true]
  rfl

namespace Formula
open doubles

theorem beqs_eq (fs gs : List Formula) : beq.beqs fs gs = (fs == gs) := by
  induction fs generalizing gs with
  | nil => cases gs <;> rfl
  | cons f fs ih =>
    cases gs with
    | nil => rfl
    | cons g gs => rw [beq.beqs, ih, List.cons_beq_cons]; rfl

theorem normal_beq (fs : List Formula) (h : ∀ x ∈ doublesOf fs, x.isFinite = true) :
    ∀ f ∈ fs, (f.normal == f) = true := by
  induction fs using forest_induction with
  | nil => exact fun _ hf => (List.not_mem_nil hf).elim
  | test t fs ih =>
    obtain ⟨ht, hfs⟩ := List.forall_mem_append.1 h
    exact List.forall_mem_cons.2 ⟨Comparison.normal_beq ht, ih hfs⟩
  | gate op gs fs ihg ih =>
    obtain ⟨hgs, hfs⟩ := List.forall_mem_append.1 h
    refine List.forall_mem_cons.2 ⟨?_, ih hfs⟩
    show (op == op && beq.beqs (normal.normals gs) gs) = true
    rw [beq_self_eq_true, normals_eq_map, beqs_eq, map_beq (ihg hgs)]
    rfl

end Formula

theorem Slot.normal_beq {s : Slot} (h : ∀ x ∈ Formula.doubles.doublesOf s.roots, x.isFinite = true) :
    (s.normal == s) = true := by
  have hroots := Formula.normal_beq s.roots h
  cases s with
  | single f => exact hroots f (List.mem_singleton_self f)
  | many fs => exact map_beq hroots

instance : ReflBEq Award where
  rfl {a} := by
    show (a.badge == a.badge && (a.name == a.name && a.quantity == a.quantity)) = true
    rw [beq_self_eq_true, beq_self_eq_true, beq_self_eq_true]
    rfl

theorem Placement.beq_self {p : Placement Position} (h : p.IsFinite) : (p == p) = true := by
  obtain ⟨hx, hy⟩ : p.position.x.isFinite = true ∧ p.position.y.isFinite = true := by simpa [IsFinite, doubles] using h
  show (p.id == p.id && (p.position.x == p.position.x && p.position.y == p.position.y)) = true
  rw [beq_self_eq_true, Double.beq_self hx, Double.beq_self hy]
  rfl

theorem Rule.normal_beq {r : Rule Position} (h : ∀ x ∈ r.doubles, x.isFinite = true) : (r.normal == r) = true := by
  obtain ⟨hs, hl⟩ := List.forall_mem_append.1 h
  have hslots : (r.slots.map Slot.normal == r.slots) = true :=
    map_beq fun s hmem => Slot.normal_beq fun x hx => hs x (List.mem_flatMap.2 ⟨s, hmem, hx⟩)
  have hlayout : (r.layout == r.layout) = true := by
    cases hr : r.layout with
    | none => rfl
    | some l =>
      rw [hr] at hl
      exact list_beq_self fun p hp => Placement.beq_self fun x hx => hl x (List.mem_flatMap.2 ⟨p, hp, hx⟩)
  show (r.id == r.id && (r.name == r.name && (r.description == r.description &&
    (r.slots.map Slot.normal == r.slots && (r.awards == r.awards && r.layout == r.layout))))) = true
  rw [hslots, hlayout, beq_self_eq_true, beq_self_eq_true, beq_self_eq_true, beq_self_eq_true]
  rfl

/-! ### What a compiled rule writes as doubles -/

def Payload.doubles : Payload → List Float
  | .condition t => t.operand.doubles
  | _ => []

def Node.doubles (n : Node Position) : List Float := n.position.x :: n.position.y :: n.payload.doubles

def Canvas.doubles (c : Canvas Position) : List Float := c.nodes.flatMap Node.doubles

theorem doublesOf_eq_flatMap (fs : List Formula) :
    Formula.doubles.doublesOf fs = (Formula.payloads.payloadsOf fs).flatMap Payload.doubles := by
  induction fs using Formula.forest_induction with
  | nil => rfl
  | test t fs ih => exact congrArg (t.operand.doubles ++ ·) ih
  | gate op gs fs ihg ih =>
    rw [Formula.payloads.payloadsOf, Formula.payloads, List.cons_append, List.flatMap_cons, List.flatMap_append,
      ← ihg, ← ih]
    rfl

section Compiled

variable {c : Canvas Position} {id name : String} {description : Option String}

theorem Canvas.doubles_slots_compile :
    (c.compile id name description).rule.slots.flatMap (fun s => Formula.doubles.doublesOf s.roots) =
      (visited (c.badges c.index)).flatMap fun n => n.payload.doubles := by
  rw [slots_compile, List.flatMap_map, ← List.flatMap_map Node.payload Payload.doubles, payloads_visited,
    guardPayloads, List.flatMap_assoc]
  refine List.flatMap_congr fun g _ => ?_
  rw [Slot.roots_ofRoots, doublesOf_eq_flatMap]
  rfl

theorem Canvas.placements_subset : ∀ p ∈ c.placements (c.badges c.index),
    ∃ n ∈ c.nodes, p.doubles ⊆ n.doubles := by
  intro p hp
  obtain ⟨n, hn, rfl⟩ := List.mem_map.1 hp
  refine ⟨n, ?_, List.subset_append_left [n.position.x, n.position.y] n.payload.doubles⟩
  rcases List.mem_append.1 hn with hn | hn
  · exact c.visited_subset hn
  · exact (List.mem_filter.1 hn).1

theorem Canvas.doubles_compile : (c.compile id name description).rule.doubles ⊆ c.doubles := by
  intro x hx
  rw [Rule.doubles, doubles_slots_compile] at hx
  rcases List.mem_append.1 hx with hx | hx
  · obtain ⟨n, hn, hx⟩ := List.mem_flatMap.1 hx
    exact List.mem_flatMap.2 ⟨n, c.visited_subset hn, List.mem_append_right [n.position.x, n.position.y] hx⟩
  · obtain ⟨p, hp, hx⟩ := List.mem_flatMap.1 hx
    obtain ⟨n, hn, hsub⟩ := placements_subset p hp
    exact List.mem_flatMap.2 ⟨n, hn, hsub hx⟩

end Compiled

/-! ### Loading -/

/-- What `saveRule` stores for a compiled canvas is read by `loadRule`, up to `==`, if the document has at most 127
levels, and rejected otherwise; `saveRule` does not look at that. The document fits if all walks (`IsWalk`)
upstream from badges have at most 62 edges, and not if one has 64. -/
theorem load_saved (c : Canvas Position) (h : ∀ x ∈ c.doubles, x.isFinite = true ∧ Double.Rereads x)
    (id name : String) (description : Option String) :
    let r := (c.compile id name description).rule
    let fits := r.toJson.depth ≤ 127
    ∃ r' : Rule Position, (r' == r) = true ∧
      (Rule.deserialize r.serialize).1 = (if fits then some r' else none) ∧
      (Rule.deserialize r.toJson.pretty).1 = (if fits then some r' else none) ∧
      (∀ (f f' : Folder) (path : String), (Folder.storage.saveRule path r).run f = (.ok (), f') →
        (Folder.storage.loadRule path).run f' = (if fits then .ok r' else .error .malformed, f')) ∧
      ((∀ b ∈ c.ofKind .badge, ∀ w, c.IsWalk b.id w → w.length ≤ 62) → fits) ∧
      ∀ b ∈ c.ofKind .badge, ∀ w, c.IsWalk b.id w → 64 ≤ w.length → ¬ fits := by
  intro r fits
  have hr : ∀ x ∈ r.doubles, x.isFinite = true ∧ Double.Rereads x := fun x hx => h x (Canvas.doubles_compile hx)
  have hplaced : r.IsPlaced := fun p hp x hx =>
    (hr x (List.mem_append_right _ (List.mem_flatMap.2 ⟨p, hp, hx⟩))).1
  have hread : Rule.decode Decoder.maxDepth r.toJson = if fits then some r.normal else none := by
    rw [(Rule.reads fun x hx => (hr x hx).2).eq_ite, if_pos hplaced]; rfl
  refine ⟨r.normal, Rule.normal_beq fun x hx => (hr x hx).1, ?_, ?_, ?stored, ?shallow, ?deep⟩
  · rw [Rule.fst_deserialize, Rule.parse?_serialize, hread]
  · rw [Rule.fst_deserialize, Rule.parse?_pretty, hread]
  case stored =>
    intro f f' path hsave
    refine (Folder.run_load_saved Rule.parse? hsave).trans ?_
    rw [Rule.parse?_pretty, hread]
    split <;> rfl
  case shallow =>
    intro hwalks
    have hdepth : r.depth ≤ 62 := Canvas.depth_compile_le_iff.2 hwalks
    have := r.depth_toJson_le
    omega
  case deep =>
    intro b hb w hw hlong hfits
    have hdepth : r.depth ≤ 63 := by have := r.lt_depth_toJson; omega
    have := Canvas.depth_compile_le_iff.1 hdepth b hb w hw
    omega

/-- One condition behind `n` logic nodes. -/
def Formula.stack : Nat → Formula
  | 0 => .test ⟨"member", .equal, .single (.bool true)⟩
  | n + 1 => .gate .and [stack n]

def Rule.stacked (n : Nat) : Rule Position where
  id := "r1"
  name := "Stacked"
  slots := [.single (.stack n)]
  awards := [⟨"GOLD", none, 1⟩]

theorem Formula.depth_stack (n : Nat) : (stack n).depth = n + 1 := by
  induction n with
  | zero => rfl
  | succ n ih => rw [stack, depth, depth.depths, depth.depths, ih]; omega

theorem Rule.depth_compile_stacked {n : Nat} {c : Canvas Position} (h : (stacked n).Shows c) (id name : String)
    (description : Option String) : (c.compile id name description).rule.depth = n + 1 := by
  have hguards : c.guards = [(⟨"GOLD", none, 1⟩, [.stack n])] := h.guards
  rw [depth, Canvas.slots_compile, hguards]
  show max (Formula.stack n).depth 0 = n + 1
  rw [Formula.depth_stack, Nat.max_zero]

/-- 63 logic nodes in a row, drawn by the check and saved without a complaint. -/
theorem load_saved_stacked :
    let c : Canvas Position := (Rule.stacked 63).layOut.map fun _ => ⟨0, 0⟩
    let r := (c.compile "r1" "Stacked").rule
    c.Drawn ∧ (∀ x ∈ c.doubles, x.isFinite = true ∧ Double.Rereads x) ∧
      (Rule.deserialize r.serialize).1 = none ∧ (Rule.deserialize r.toJson.pretty).1 = none ∧
      ∃ f : Folder, (Folder.storage.saveRule "r1" r).run {} = (.ok (), f) ∧
        (Folder.storage.loadRule "r1").run f = (.error .malformed, f) := by
  intro c r
  have hshows : (Rule.stacked 63).Shows c := Rule.shows_layOut _ _
  have hdoubles : ∀ x ∈ c.doubles, x.isFinite = true ∧ Double.Rereads x := by decide +kernel
  have hdepth : r.depth = 64 := Rule.depth_compile_stacked hshows _ _ _
  obtain ⟨b, hb, w, hw, hlong⟩ : ∃ b ∈ c.ofKind .badge, ∃ w, c.IsWalk b.id w ∧ 64 ≤ w.length := by
    have hnot : ¬ r.depth ≤ 63 := by omega
    rw [Canvas.depth_compile_le_iff] at hnot
    push Not at hnot
    exact hnot
  obtain ⟨r', -, hcompact, hpretty, hload, -, hfits⟩ := load_saved c hdoubles "r1" "Stacked" none
  have hdeep := hfits b hb w hw hlong
  have hwrite (text : String) : ({} : Folder).write "r1" text = .ok (.put {} ["r1"] (.file text.toUTF8)) := by
    have hnames : Folder.names "r1" = ["r1"] := by cbv
    simp only [Folder.write, Folder.locateNew, Folder.locate, hnames, Folder.start]
    rfl
  obtain ⟨f, hf⟩ : ∃ f : Folder, (Folder.storage.saveRule "r1" r).run {} = (.ok (), f) := by
    refine ⟨.put {} ["r1"] (.file r.toJson.pretty.toUTF8), (Folder.run_save {} "r1" r.toJson).trans ?_⟩
    rw [hwrite]
  refine ⟨Canvas.drawn_iff_sound.2 hshows.sound, hdoubles, ?_, ?_, f, hf, ?_⟩
  · rw [hcompact, if_neg hdeep]
  · rw [hpretty, if_neg hdeep]
  · rw [hload _ f "r1" hf, if_neg hdeep]

end BadgeRules
