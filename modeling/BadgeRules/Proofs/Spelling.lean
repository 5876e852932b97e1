import Mathlib.Logic.Equiv.Basic
import BadgeRules.Proofs.Mirroring
import BadgeRules.Proofs.Renaming
import BadgeRules.Proofs.Sites
import BadgeRules.Proofs.Verdicts

/-!
# The spelling of ids does not matter

Ids are only compared with each other. So a canvas whose ids are spelled in another way (`Canvas.Respelled`)
compiles to the same awards and slots, lists the same nodes in its layout, and reports and refuses the same
under other ids (`compile_respelled`). What a layout lists are nodes by their numbers
(`Canvas.layoutOrder`): these can be read off the canvas without its positions.
-/

namespace BadgeRules
open Relation Function

variable {P Q : Type}

/-! ### Lists item for item -/

section Lists

variable {α β : Type} {R : α → β → Prop} {as : List α} {bs : List β}

theorem rel_self (o : Option α) : Option.Rel Eq o o := by
  cases o with
  | none => exact .none
  | some a => exact .some rfl

theorem rel_find? (h : List.Forall₂ R as bs) {p : α → Bool} {q : β → Bool} (hpq : ∀ a b, R a b → q b = p a) :
    Option.Rel R (as.find? p) (bs.find? q) := by
  induction h with
  | nil => exact .none
  | @cons a b _ _ hab _ ih =>
    rw [List.find?_cons, List.find?_cons, hpq a b hab]
    cases p a with
    | true => exact .some hab
    | false => exact ih

end Lists

/-! ### Refusals with other ids -/

/-- The refusal with ids spelled by `f`. -/
def Refusal.rename (f : String → String) : Refusal → Refusal
  | .notOnCanvas id => .notOnCanvas (f id)
  | .unknownKind id => .unknownKind (f id)
  | .duplicate source target => .duplicate (f source) (f target)
  | r => r

/-- `b` is the fault `a` with ids spelled by `f`. -/
def Fault.Respelled (f : String → String) (a b : Fault) : Prop :=
  (b.Holds ↔ a.Holds) ∧ b.refusal = a.refusal.rename f

theorem Judged.respelled {f : String → String} {fs gs : List Fault} {v : Except Refusal Unit} (h : Judged fs v)
    (hgs : List.Forall₂ (Fault.Respelled f) fs gs) : Judged gs (v.mapError (Refusal.rename f)) := by
  induction h generalizing gs with
  | accepted =>
    cases hgs
    exact .accepted
  | refused hf =>
    rcases hgs with _ | ⟨⟨hholds, hrefusal⟩, -⟩
    rw [Except.mapError, ← hrefusal]
    exact .refused (hholds.2 hf)
  | passed hf _ ih =>
    rcases hgs with _ | ⟨hab, hgs⟩
    exact .passed (hab.1.not.2 hf) (ih hgs)

namespace Canvas

/-- `d` is `c` with ids spelled by `f`. Its edges may have other ids and handles, its nodes other positions. -/
structure Respelled (f : String → String) (c : Canvas P) (d : Canvas Q) : Prop where
  nodes : d.nodes.map Node.label = c.nodes.map fun n => (f n.id, n.payload)
  edges : d.edges.map Edge.ends = c.edges.map (Edge.rename f)

/-- `d` is `c` with ids spelled by `f`, and nodes at the same place belong together by `R`. -/
structure Spells (R : Node P → Node Q → Prop) (f : String → String) (c : Canvas P) (d : Canvas Q) : Prop where
  injective : Injective f
  label : ∀ n m, R n m → m.label = (f n.id, n.payload)
  nodes : List.Forall₂ R c.nodes d.nodes
  edges : d.edges.map Edge.ends = c.edges.map (Edge.rename f)

namespace Spells

variable {R : Node P → Node Q → Prop} {f : String → String} {c : Canvas P} {d : Canvas Q}
  {n : Node P} {m : Node Q} (h : c.Spells R f d)
include h

theorem id_eq (hnm : R n m) : m.id = f n.id := (Prod.mk.inj (h.label n m hnm)).1

theorem payload_eq (hnm : R n m) : m.payload = n.payload := (Prod.mk.inj (h.label n m hnm)).2

theorem rel_node? (x : String) : Option.Rel R (c.node? x) (d.node? (f x)) :=
  rel_find? h.nodes fun n m hnm => by rw [h.id_eq hnm, Bool.eq_iff_iff, beq_iff_eq, beq_iff_eq, h.injective.eq_iff]

theorem map_source_incoming (x : String) :
    (d.incoming (f x)).map Edge.source = (c.incoming x).map fun e => f e.source := by
  have hedges := congrArg (List.filter fun ends => ends.2 == f x) h.edges
  rw [List.filter_map, List.filter_map] at hedges
  have hinto : c.incoming x = c.edges.filter ((fun ends => ends.2 == f x) ∘ Edge.rename f) :=
    List.filter_congr fun e _ => by simp [Edge.rename, h.injective.eq_iff]
  have hsources := congrArg (List.map Prod.fst) hedges
  rw [List.map_map, List.map_map, ← hinto] at hsources
  exact hsources

theorem mirrors (x : String) : c.Mirrors R f d x :=
  ⟨fun _ _ => h.payload_eq, fun _ _ _ _ heq => h.injective heq, fun y _ => h.rel_node? y,
    fun y _ => h.map_source_incoming y⟩

/-! ### Compiling -/

theorem guards_eq : d.guards = c.guards := by
  rw [eq_comm, ← List.forall₂_eq_eq_eq]
  refine List.rel_filterMap (fun n m hnm => ?_) h.nodes
  rw [h.id_eq hnm, h.payload_eq hnm, (h.mirrors n.id).roots]
  exact rel_self _

theorem rel_ofKind (k : NodeKind) : List.Forall₂ R (c.ofKind k) (d.ofKind k) := by
  refine List.rel_filter (fun n m hnm => ?_) h.nodes
  simp only [Node.kind?, h.payload_eq hnm]

theorem rel_visited : List.Forall₂ R (visited (c.badges c.index)) (visited (d.badges d.index)) := by
  rw [visited_eq_badges, visited_eq_badges]
  refine List.rel_flatMap (h.rel_ofKind .badge) fun n m hnm => .cons hnm ?_
  rw [h.id_eq hnm]
  exact (h.mirrors n.id).branches.nodes

theorem rel_strays : List.Forall₂ R (c.strays (c.badges c.index)) (d.strays (d.badges d.index)) := by
  have hids : (visited (d.badges d.index)).map (·.id) = ((visited (c.badges c.index)).map (·.id)).map f := by
    rw [List.map_map, eq_comm, ← List.forall₂_eq_eq_eq]
    refine List.rel_map (fun n m hnm => ?_) h.rel_visited
    exact (h.id_eq hnm).symm
  refine List.rel_filter (fun n m hnm => ?_) h.nodes
  simp only [Bool.not_eq_true', List.contains_eq_mem, decide_eq_false_iff_not]
  rw [hids, h.id_eq hnm, List.mem_map_of_injective h.injective]

variable (id name : String) (description : Option String)

theorem events_eq : (d.compile id name description).events =
    (c.compile id name description).events.map (Event.rename f) := by
  have hdropped : (d.compile id name description).dropped =
      (c.compile id name description).dropped.map (Event.rename f) := by
    rw [dropped_badges, dropped_badges, List.map_flatMap, eq_comm, ← List.forall₂_eq_eq_eq]
    refine List.rel_flatMap (h.rel_ofKind .badge) fun n m hnm => ?_
    rw [List.forall₂_eq_eq_eq, h.id_eq hnm, (h.mirrors n.id).reports]
  rw [Compiled.events, Compiled.events, hdropped, List.map_append, awards_compile, awards_compile, slots_compile,
    slots_compile, h.guards_eq]
  rfl

/-! ### Connections -/

section Check

variable {x y : String}

theorem exists_of_feeds {a b : String} (hab : d.Feeds a b) : ∃ x y, f x = a ∧ f y = b ∧ c.Feeds x y := by
  obtain ⟨e', he', rfl, rfl⟩ := hab
  have hmem : e'.ends ∈ c.edges.map (Edge.rename f) := h.edges ▸ List.mem_map_of_mem he'
  obtain ⟨e, he, heq⟩ := List.mem_map.1 hmem
  obtain ⟨hs, ht⟩ := Prod.mk.inj heq
  exact ⟨e.source, e.target, hs, ht, e, he, rfl, rfl⟩

theorem feeds_iff : d.Feeds (f x) (f y) ↔ c.Feeds x y := by
  constructor
  · intro hfeeds
    obtain ⟨x', y', hx, hy, hfeeds⟩ := h.exists_of_feeds hfeeds
    rwa [h.injective hx, h.injective hy] at hfeeds
  · rintro ⟨e, he, rfl, rfl⟩
    have hmem : e.rename f ∈ d.edges.map Edge.ends := h.edges ▸ List.mem_map_of_mem he
    obtain ⟨e', he', heq⟩ := List.mem_map.1 hmem
    obtain ⟨hs, ht⟩ := Prod.mk.inj heq
    exact ⟨e', he', hs, ht⟩

theorem path_iff : ReflTransGen d.Feeds (f x) (f y) ↔ ReflTransGen c.Feeds x y := by
  constructor
  · intro hpath
    -- every edge of `d` comes from one of `c`, so the path stays among spelled ids
    have hback : ∀ {z}, ReflTransGen d.Feeds (f x) z → ∃ y, f y = z ∧ ReflTransGen c.Feeds x y := by
      intro z hz
      induction hz with
      | refl => exact ⟨x, rfl, .refl⟩
      | tail _ hstep ih =>
        obtain ⟨y, rfl, hy⟩ := ih
        obtain ⟨y', z, hy', rfl, hfeeds⟩ := h.exists_of_feeds hstep
        exact ⟨z, rfl, hy.tail (h.injective hy' ▸ hfeeds)⟩
    obtain ⟨y', hy, hpath⟩ := hback hpath
    rwa [h.injective hy] at hpath
  · exact ReflTransGen.lift f (fun _ _ => h.feeds_iff.2) x y

theorem node?_eq_none_iff : d.node? (f x) = none ↔ c.node? x = none := by
  rcases rel_cases (h.rel_node? x) with ⟨hn, hm⟩ | ⟨n, m, hn, hm, -⟩
  · exact iff_of_true hm hn
  · rw [hn, hm]
    exact iff_of_false nofun nofun

theorem kind?_eq : d.kind? (f x) = c.kind? x := by
  rcases rel_cases (h.rel_node? x) with ⟨hn, hm⟩ | ⟨n, m, hn, hm, hnm⟩
  · rw [kind?, kind?, hn, hm]
    rfl
  · rw [kind?_of_node? hn, kind?_of_node? hm, Node.kind?, h.payload_eq hnm]
    rfl

theorem faults_respelled (hempty : f "" = "") {w w' : Connection} (hs : w'.source = w.source.map f)
    (ht : w'.target = w.target.map f) : List.Forall₂ (Fault.Respelled f) (c.faults w) (d.faults w') := by
  have hgetD : ∀ x? : Option String, (x?.map f).getD "" = f (x?.getD "") := by
    rintro (_ | x)
    · exact hempty.symm
    · rfl
  have hloose : ∀ x? : Option String, (x?.map f = none ∨ x?.map f = some "") ↔ (x? = none ∨ x? = some "") := by
    rintro (_ | x)
    · exact iff_of_true (.inl rfl) (.inl rfl)
    · simp [← h.injective.eq_iff (a := x), hempty]
  simp only [faults, endFaults, kindFaults, hs, ht, hgetD, List.cons_append, List.nil_append, List.mem_cons,
    List.not_mem_nil, or_false, exists_eq_or_imp, exists_eq_left, hloose]
  refine .cons ⟨Iff.rfl, rfl⟩ <| .cons ⟨h.node?_eq_none_iff, rfl⟩ <| .cons ⟨h.node?_eq_none_iff, rfl⟩ <|
    .cons ⟨h.injective.eq_iff, rfl⟩ <| .cons ⟨by rw [h.kind?_eq], rfl⟩ <| .cons ⟨by rw [h.kind?_eq], rfl⟩ <|
    .cons ⟨by rw [h.kind?_eq], rfl⟩ <| .cons ⟨by rw [h.kind?_eq, h.kind?_eq], rfl⟩ <|
    .cons ⟨by rw [h.kind?_eq], rfl⟩ <| .cons ⟨h.feeds_iff, rfl⟩ <| .cons ⟨h.path_iff, rfl⟩ .nil

theorem check_eq (hempty : f "" = "") {w w' : Connection} (hs : w'.source = w.source.map f)
    (ht : w'.target = w.target.map f) : d.check w' = (c.check w).mapError (Refusal.rename f) :=
  (judged_check d w').unique ((judged_check c w).respelled (h.faults_respelled hempty hs ht))

end Check

end Spells

/-! ### Layouts -/

/-- The nodes of `c`, numbered in order. -/
def numbered (c : Canvas P) : Canvas Nat := ⟨c.nodes.mapIdx fun i n => ⟨n.id, i, n.payload⟩, c.edges⟩

/-- The numbers of the nodes that a layout lists. -/
def layoutOrder (c : Canvas P) : List Nat :=
  (visited (c.numbered.badges c.numbered.index) ++ c.numbered.strays (c.numbered.badges c.numbered.index)).map
    Node.position

/-- The entries of a layout that lists the nodes with these numbers. -/
def entriesAt (c : Canvas P) (order : List Nat) : List (Placement P) :=
  order.filterMap fun i => c.nodes[i]?.map fun n => ⟨n.id, n.position⟩

theorem lt_of_mem_layoutOrder (c : Canvas P) : ∀ i ∈ c.layoutOrder, i < c.nodes.length := by
  intro i hi
  obtain ⟨n, hn, rfl⟩ := List.mem_map.1 hi
  have hmem : n ∈ c.numbered.nodes := by
    rcases List.mem_append.1 hn with hn | hn
    · exact c.numbered.visited_subset hn
    · exact (mem_strays.1 hn).1
  obtain ⟨j, hj, rfl⟩ := List.mem_mapIdx.1 hmem
  exact hj

namespace Respelled

variable {f : String → String} {c : Canvas P} {d : Canvas Q}

theorem refl (c : Canvas P) : c.Respelled id c := ⟨rfl, rfl⟩

variable (h : c.Respelled f d) (hf : Injective f)
include h hf

theorem spells : c.Spells (fun n m => m.label = (f n.id, n.payload)) f d := by
  refine ⟨hf, fun _ _ hnm => hnm, ?_, h.edges⟩
  have hnodes : List.Forall₂ Eq (d.nodes.map Node.label) (c.nodes.map fun n => (f n.id, n.payload)) := by
    rw [h.nodes, List.forall₂_eq_eq_eq]
  rw [List.forall₂_map_left_iff, List.forall₂_map_right_iff] at hnodes
  exact hnodes.flip

/-- Numbers that belong to nodes of `c` belong to those of `d` as well. -/
theorem spells_numbered :
    c.numbered.Spells (fun n m => d.nodes[n.position]? = some m ∧ m.label = (f n.id, n.payload)) f d := by
  refine ⟨hf, fun _ _ hnm => hnm.2, ?_, h.edges⟩
  obtain ⟨hlength, hnodes⟩ := List.forall₂_iff_get.1 (h.spells hf).nodes
  refine List.forall₂_iff_get.2 ⟨by simpa [numbered] using hlength, fun i hi hi' => ?_⟩
  have hlabel := hnodes i (by simpa [numbered] using hi) hi'
  simp only [List.get_eq_getElem, numbered, List.getElem_mapIdx] at hlabel ⊢
  exact ⟨List.getElem?_eq_getElem hi', hlabel⟩

theorem placements_eq : d.placements (d.badges d.index) = d.entriesAt c.layoutOrder := by
  have hs := h.spells_numbered hf
  rw [placements, entriesAt, layoutOrder, List.filterMap_map, ← List.filterMap_eq_map, eq_comm,
    ← List.forall₂_eq_eq_eq]
  refine List.rel_filterMap (fun n m hnm => ?_) (List.rel_append hs.rel_visited hs.rel_strays)
  rw [Function.comp_apply, Function.comp_apply, hnm.1]
  exact rel_self _

end Respelled

end Canvas

/-- A canvas that is `Respelled` has the same slots and awards and the same order of nodes in its layout
(`entriesAt`), and `events` and `check` differ in the spelling of ids alone. -/
theorem compile_respelled (c : Canvas P) (id name : String) (description : Option String) :
    let r := c.compile id name description
    ∃ order : List Nat, (∀ i ∈ order, i < c.nodes.length) ∧ r.rule.layout = some (c.entriesAt order) ∧
      ∀ (Q : Type) (d : Canvas Q) (f : String → String), Injective f → c.Respelled f d →
        let r' := d.compile id name description
        r'.rule.slots = r.rule.slots ∧ r'.rule.awards = r.rule.awards ∧
          r'.rule.layout = some (d.entriesAt order) ∧ r'.events = r.events.map (Event.rename f) ∧
          (f "" = "" → ∀ w w' : Connection, w'.source = w.source.map f → w'.target = w.target.map f →
            d.check w' = (c.check w).mapError (Refusal.rename f)) := by
  intro r
  refine ⟨c.layoutOrder, c.lt_of_mem_layoutOrder, ?_, fun Q d f hf h => ?_⟩
  · exact congrArg some ((Canvas.Respelled.refl c).placements_eq injective_id)
  have hs := h.spells hf
  refine ⟨?slots, ?awards, congrArg some (h.placements_eq hf), hs.events_eq id name description, ?check⟩
  case slots => rw [Canvas.slots_compile, Canvas.slots_compile, hs.guards_eq]
  case awards => rw [Canvas.awards_compile, Canvas.awards_compile, hs.guards_eq]
  case check => exact fun hempty w w' => hs.check_eq hempty

/-- Two badges trade their ids. One of them is fed by a gate that an id without a node and the gate itself feed. -/
theorem compile_respelled_swap :
    ∃ (c : Canvas Unit) (d : Canvas Nat) (f : String → String) (order : List Nat), Injective f ∧ c.Respelled f d ∧
      (c.compile "r" "R").rule.layout = some (c.entriesAt order) ∧
      (d.compile "r" "R").rule.layout = some (d.entriesAt order) ∧
      (d.compile "r" "R").rule.slots = (c.compile "r" "R").rule.slots ∧
      (d.compile "r" "R").events = (c.compile "r" "R").events.map (Event.rename f) ∧
      c.check { source := some "any", target := some "gold" } = .error (.duplicate "any" "gold") ∧
      d.check { source := some "any", target := some "silver" } = .error (.duplicate "any" "silver") := by
  let f : String → String := Equiv.swap "gold" "silver"
  let c : Canvas Unit :=
    { nodes := [⟨"gold", (), .badge ⟨"GOLD", none, 1⟩⟩, ⟨"any", (), .logic .or⟩,
        ⟨"member", (), .condition ⟨"member", .equal, .single (.bool true)⟩⟩,
        ⟨"silver", (), .badge ⟨"SILVER", none, 1⟩⟩]
      edges := [{ id := "e0", source := "any", target := "gold" },
        { id := "e1", source := "ghost", target := "any" },
        { id := "e2", source := "any", target := "any" },
        { id := "e3", source := "member", target := "any" }] }
  let d : Canvas Nat :=
    { nodes := [⟨"silver", 3, .badge ⟨"GOLD", none, 1⟩⟩, ⟨"any", 0, .logic .or⟩,
        ⟨"member", 2, .condition ⟨"member", .equal, .single (.bool true)⟩⟩,
        ⟨"gold", 1, .badge ⟨"SILVER", none, 1⟩⟩]
      edges := [{ id := "e3", source := "any", target := "silver", sourceHandle := some "right" },
        { id := "e3", source := "ghost", target := "any" },
        { id := "", source := "any", target := "any" },
        { id := "e0", source := "member", target := "any", targetHandle := some "left" }] }
  have hf : Injective f := (Equiv.swap "gold" "silver").injective
  have h : c.Respelled f d := ⟨rfl, by decide⟩
  have hcheck : c.check { source := some "any", target := some "gold" } = .error (.duplicate "any" "gold") := by
    unfold Canvas.check
    rw [Canvas.index_eq_scan]
    cbv
  obtain ⟨order, -, hlayout, hall⟩ := compile_respelled c "r" "R" none
  obtain ⟨hslots, -, hlayout', hevents, hchecks⟩ := hall Nat d f hf h
  refine ⟨c, d, f, order, hf, h, hlayout, hlayout', hslots, hevents, hcheck, ?_⟩
  rw [hchecks (by decide) { source := some "any", target := some "gold" } _ (by decide) (by decide), hcheck]
  rfl

end BadgeRules
