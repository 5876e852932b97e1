import Mathlib.Data.List.Basic
import BadgeRules.Proofs.Connections

/-!
# Canvases stay sound while they are edited

`Canvas.Sound` is what drawing wires by the check maintains: no cycle, no wire drawn twice, and kinds
that go together at both ends of every edge. Every edit keeps it (`Sound.edit`), so it holds on every
canvas that can be reached from one without edges. The kinds survive because the first node of an id
that an edge touches is neither shadowed by a node added later nor deleted without its edges.
-/

namespace BadgeRules
open Relation

variable {P Q : Type}

/-- What a node is, apart from where it stands. -/
def Node.label (n : Node P) : String × Payload := (n.id, n.payload)

/-! ### Paths with one more step -/

section Paths

variable {α : Type} {r : α → α → Prop} {s t : α}

/-- A path with a new step either does without it or splits at its first and its last use. -/
theorem transGen_or_step {a b : α} (h : TransGen (fun x y => r x y ∨ (x = s ∧ y = t)) a b) :
    TransGen r a b ∨ (ReflTransGen r a s ∧ ReflTransGen r t b) := by
  induction h with
  | single hs =>
    rcases hs with hs | ⟨rfl, rfl⟩
    · exact .inl (.single hs)
    · exact .inr ⟨.refl, .refl⟩
  | tail _ hs ih =>
    rcases hs with hs | ⟨rfl, rfl⟩
    · rcases ih with hp | ⟨has, htb⟩
      · exact .inl (hp.tail hs)
      · exact .inr ⟨has, htb.tail hs⟩
    · rcases ih with hp | ⟨has, -⟩
      · exact .inr ⟨hp.to_reflTransGen, .refl⟩
      · exact .inr ⟨has, .refl⟩

end Paths

namespace Canvas

variable {c c' : Canvas P}

theorem Feeds.of_subset {d : Canvas Q} (h : ∀ e ∈ c.edges, e ∈ d.edges) {a b : String}
    (hab : c.Feeds a b) : d.Feeds a b :=
  let ⟨e, he, hs⟩ := hab; ⟨e, h e he, hs⟩

theorem Acyclic.of_subset {d : Canvas Q} (hd : d.Acyclic) (h : ∀ e ∈ c.edges, e ∈ d.edges) : c.Acyclic :=
  fun id hid => hd id (TransGen.mono (fun _ _ => Feeds.of_subset h) _ _ hid)

theorem feeds_addEdge_iff {e : Edge} {a b : String} :
    (c.addEdge e).Feeds a b ↔ c.Feeds a b ∨ (a = e.source ∧ b = e.target) := by
  simp only [Feeds, addEdge, List.mem_append, List.mem_singleton]
  constructor
  · rintro ⟨e', he | rfl, rfl, rfl⟩
    · exact .inl ⟨e', he, rfl, rfl⟩
    · exact .inr ⟨rfl, rfl⟩
  · rintro (⟨e', he, rfl, rfl⟩ | ⟨rfl, rfl⟩)
    · exact ⟨e', .inl he, rfl, rfl⟩
    · exact ⟨e, .inr rfl, rfl, rfl⟩

theorem Acyclic.addEdge {e : Edge} (h : c.Acyclic) (hback : ¬ ReflTransGen c.Feeds e.target e.source) :
    (c.addEdge e).Acyclic := by
  intro id hid
  have hsplit : TransGen (fun a b => c.Feeds a b ∨ (a = e.source ∧ b = e.target)) id id :=
    TransGen.mono (fun _ _ => feeds_addEdge_iff.1) _ _ hid
  rcases transGen_or_step hsplit with hp | ⟨hs, ht⟩
  · exact h id hp
  · exact hback (ht.trans hs)

/-! ### Looking up nodes -/

theorem node?_map_label (c : Canvas P) (id : String) :
    (c.node? id).map Node.label = (c.nodes.map Node.label).find? (·.1 == id) := by
  rw [List.find?_map]; rfl

/-- Looking up goes by labels, so places do not matter. -/
theorem node?_payload_congr {d : Canvas Q} (h : c.nodes.map Node.label = d.nodes.map Node.label)
    (id : String) : (c.node? id).map Node.payload = (d.node? id).map Node.payload := by
  have hl : (c.node? id).map Node.label = (d.node? id).map Node.label := by
    rw [node?_map_label, node?_map_label, h]
  simpa [Function.comp_def, Node.label] using congrArg (Option.map Prod.snd) hl

theorem kindOf?_congr {d : Canvas Q} (h : c.nodes.map Node.label = d.nodes.map Node.label) (id : String) :
    c.index.kindOf? id = d.index.kindOf? id := by
  have hk : ∀ {R : Type} (n? : Option (Node R)),
      n?.bind Node.kind? = (n?.map Node.payload).bind Payload.kind? :=
    fun n? => by cases n? <;> rfl
  rw [kindOf?_index, kindOf?_index, hk, hk, node?_payload_congr h]

theorem node?_addNode {n m : Node P} {id : String} (h : c.node? id = some m) :
    (c.addNode n).node? id = some m := by
  simp only [node?, addNode, List.find?_append] at h ⊢
  rw [h]; rfl

theorem node?_deleteNodes {id x : String} (h : id ≠ x) : (c.deleteNodes x).node? id = c.node? id := by
  simp only [node?, deleteNodes, List.find?_filter]
  congr 1
  funext n
  by_cases hn : n.id = id
  · simp [hn, h]
  · simp [hn]

theorem Matches.congr {d : Canvas Q} (h : c.nodes.map Node.label = d.nodes.map Node.label) {a b : String}
    (hm : c.Matches a b) : d.Matches a b := by
  obtain ⟨k, l, hk, hl, hkl⟩ := hm
  exact ⟨k, l, (kindOf?_congr h a).symm.trans hk, (kindOf?_congr h b).symm.trans hl, hkl⟩

/-- Kinds are those of the nodes, whatever the edges. -/
theorem Matches.withEdges {a b : String} (h : c.Matches a b) (es : List Edge) :
    ({ c with edges := es } : Canvas P).Matches a b :=
  h.congr (c := c) (d := { c with edges := es }) rfl

theorem Matches.addNode {n : Node P} {a b : String} (h : c.Matches a b) : (c.addNode n).Matches a b := by
  obtain ⟨k, l, hk, hl, hkl⟩ := h
  have keep : ∀ {id : String} {k : NodeKind}, c.index.kindOf? id = some k →
      (c.addNode n).index.kindOf? id = some k := by
    intro id k hk
    rw [kindOf?_index] at hk ⊢
    obtain ⟨m, hm, hk⟩ := Option.bind_eq_some_iff.1 hk
    rw [node?_addNode hm]; exact hk
  exact ⟨k, l, keep hk, keep hl, hkl⟩

/-! ### Soundness -/

/-- The edges of a canvas are in order. -/
structure Sound (c : Canvas P) : Prop where
  acyclic : c.Acyclic
  simple : c.edges.Pairwise fun e e' => (e.source, e.target) ≠ (e'.source, e'.target)
  kinds : ∀ e ∈ c.edges, c.Matches e.source e.target
  named : ∀ e ∈ c.edges, e.source ≠ "" ∧ e.target ≠ ""

namespace Sound

theorem of_edges_nil (h : c.edges = []) : c.Sound := by
  have hstep : ∀ a b, ¬ c.Feeds a b := by
    rintro a b ⟨e, he, -⟩; simp [h] at he
  refine ⟨fun id hid => ?_, ?_, ?_, ?_⟩
  · rcases TransGen.tail'_iff.1 hid with ⟨a, -, ha⟩; exact hstep a id ha
  · rw [h]; exact List.Pairwise.nil
  · rw [h]; exact fun _ he => (List.not_mem_nil he).elim
  · rw [h]; exact fun _ he => (List.not_mem_nil he).elim

theorem addNode (h : c.Sound) (n : Node P) : (c.addNode n).Sound :=
  ⟨h.acyclic.of_subset fun _ he => he, h.simple, fun e he => (h.kinds e he).addNode, h.named⟩

theorem addEdge (h : c.Sound) {e : Edge} (he : c.Fits e.source e.target) : (c.addEdge e).Sound := by
  refine ⟨h.acyclic.addEdge he.noReturn, ?_, ?_, ?_⟩
  · refine List.pairwise_append.2 ⟨h.simple, List.pairwise_singleton _ _, fun a ha b hb hab => ?_⟩
    rw [List.mem_singleton.1 hb, Prod.mk.injEq] at hab
    exact he.unjoined ⟨a, ha, hab.1, hab.2⟩
  · intro a ha
    rcases List.mem_append.1 ha with ha | ha
    · exact (h.kinds a ha).withEdges _
    · rw [List.mem_singleton.1 ha]; exact he.kinds.withEdges _
  · intro a ha
    rcases List.mem_append.1 ha with ha | ha
    · exact h.named a ha
    · rw [List.mem_singleton.1 ha]; exact ⟨he.source_ne, he.target_ne⟩

theorem sublist (h : c.Sound) {es : List Edge} (hes : es.Sublist c.edges) :
    ({ c with edges := es } : Canvas P).Sound :=
  ⟨h.acyclic.of_subset fun _ he => hes.subset he, h.simple.sublist hes,
    fun e he => (h.kinds e (hes.subset he)).withEdges es,
    fun e he => h.named e (hes.subset he)⟩

/-- The edges that remain do not touch the deleted id, so their ends look up as before. -/
theorem remove (h : c.Sound) (id : String) : (c.remove id).Sound := by
  have hes : (c.remove id).edges.Sublist c.edges := List.filter_sublist
  refine ⟨h.acyclic.of_subset fun _ he => hes.subset he, h.simple.sublist hes, fun e he => ?_,
    fun e he => h.named e (hes.subset he)⟩
  have hids : e.source ≠ id ∧ e.target ≠ id := by
    simpa using (List.mem_filter.1 he).2
  have keep : ∀ {x : String}, x ≠ id → (c.remove id).index.kindOf? x = c.index.kindOf? x := by
    intro x hx
    rw [kindOf?_index, kindOf?_index]
    exact congrArg (Option.bind · Node.kind?) (node?_deleteNodes hx)
  obtain ⟨k, l, hk, hl, hkl⟩ := h.kinds e (hes.subset he)
  exact ⟨k, l, (keep hids.1).trans hk, (keep hids.2).trans hl, hkl⟩

theorem of_labels (h : c.Sound) (hn : c'.nodes.map Node.label = c.nodes.map Node.label)
    (he : c'.edges = c.edges) : c'.Sound := by
  refine ⟨h.acyclic.of_subset ?_, ?_, ?_, ?_⟩ <;> rw [he]
  · exact fun _ h => h
  · exact h.simple
  · exact fun e he => (h.kinds e he).congr hn.symm
  · exact h.named

end Sound

/-! ### Edits -/

/-- One step of editing. Wires are drawn by the check only. -/
inductive Edit : Canvas P → Canvas P → Prop
  | addNode (c : Canvas P) (n : Node P) : Edit c (c.addNode n)
  | connect {c c' : Canvas P} {e : Edge} (h : c.connect e = .ok c') : Edit c c'
  | deleteEdges (c : Canvas P) {es : List Edge} (h : es.Sublist c.edges) : Edit c { c with edges := es }
  | remove (c : Canvas P) (id : String) : Edit c (c.remove id)
  | move (c : Canvas P) {before after : List (Node P)} {n : Node P} (p : P)
      (h : c.nodes = before ++ n :: after) :
      Edit c { c with nodes := before ++ { n with position := p } :: after }

theorem Edit.of_deleteEdges (c : Canvas P) (p : Edge → Bool) : Edit c (c.deleteEdges p) :=
  .deleteEdges c List.filter_sublist

theorem moveFirst_eq (id : String) (p : P) (ns : List (Node P)) :
    moveFirst id p ns = ns ∨ ∃ before n after, ns = before ++ n :: after ∧
      moveFirst id p ns = before ++ { n with position := p } :: after := by
  induction ns with
  | nil => exact .inl rfl
  | cons n ns ih =>
    rw [moveFirst]
    split
    · exact .inr ⟨[], n, ns, rfl, rfl⟩
    · rcases ih with h | ⟨before, m, after, h, h'⟩
      · rw [h]; exact .inl rfl
      · exact .inr ⟨n :: before, m, after, congrArg _ h, congrArg _ h'⟩

theorem Edit.of_move (c : Canvas P) (id : String) (p : P) : ReflGen Edit c (c.move id p) := by
  rcases moveFirst_eq id p c.nodes with h | ⟨before, n, after, h, h'⟩
  · rw [Canvas.move, h]
  · rw [Canvas.move, h']; exact .single (.move c p h)

theorem Sound.edit (h : c.Sound) (he : Edit c c') : c'.Sound := by
  cases he with
  | addNode n => exact h.addNode n
  | connect he =>
    obtain ⟨hfit, rfl⟩ := connect_eq_ok_iff.1 he
    exact h.addEdge hfit
  | deleteEdges hes => exact h.sublist hes
  | remove id => exact h.remove id
  | move p hn => exact h.of_labels (by rw [hn]; simp [Node.label]) rfl

theorem Sound.edits (h : c.Sound) (he : ReflTransGen Edit c c') : c'.Sound := by
  induction he with
  | refl => exact h
  | tail _ hstep ih => exact ih.edit hstep

/-! ### Drawing a list of edges -/

/-- The edges are accepted one after another, each on the canvas with those before it. -/
def acceptsInTurn (c : Canvas P) : List Edge → Bool
  | [] => true
  | e :: es => c.accepts e.connection && (c.addEdge e).acceptsInTurn es

/-- The edges of the canvas could be drawn in their order. -/
def Drawn (c : Canvas P) : Prop := ({ c with edges := [] } : Canvas P).acceptsInTurn c.edges = true

theorem edits_of_acceptsInTurn {es : List Edge} (h : c.acceptsInTurn es = true) :
    ReflTransGen Edit c { c with edges := c.edges ++ es } := by
  induction es generalizing c with
  | nil => rw [List.append_nil]
  | cons e es ih =>
    obtain ⟨he, hes⟩ := Bool.and_eq_true_iff.1 h
    have hstep : Edit c (c.addEdge e) := .connect (connect_eq_ok_iff.2 ⟨accepts_connection_iff.1 he, rfl⟩)
    have := ih hes
    rw [addEdge, List.append_assoc] at this
    exact this.head hstep

theorem Drawn.sound (h : c.Drawn) : c.Sound := by
  have hs := (Sound.of_edges_nil rfl).edits (edits_of_acceptsInTurn h)
  rwa [List.nil_append] at hs

/-! ### Every run -/

/-- A run of `Edit` from a canvas without edges keeps `Feeds` free of cycles and pairs of ends distinct, and each edge
leads from a kind that `canFeed` to one that it may feed. -/
theorem edits_keep_order (h : c.edges = []) (he : ReflTransGen Edit c c') :
    (∀ id, ¬ TransGen c'.Feeds id id) ∧
      (c'.edges.Pairwise fun e e' => (e.source, e.target) ≠ (e'.source, e'.target)) ∧
      ∀ e ∈ c'.edges, ∃ k l, c'.index.kindOf? e.source = some k ∧ c'.index.kindOf? e.target = some l ∧
        k.canFeed l = true ∧ k ≠ .badge ∧ l ≠ .condition := by
  have hs : c'.Sound := (Sound.of_edges_nil h).edits he
  refine ⟨hs.acyclic, hs.simple, fun e he => ?_⟩
  obtain ⟨k, l, hk, hl, hkl⟩ := hs.kinds e he
  refine ⟨k, l, hk, hl, hkl, ?_, ?_⟩
  · rintro rfl; cases l <;> cases hkl
  · rintro rfl; cases k <;> cases hkl

/-- A second node `gate` does not get in the way of the first one's wires. -/
theorem edits_keep_order_shadowed :
    ∃ c c' : Canvas Unit, c.edges = [] ∧ ReflTransGen Edit c c' ∧ c'.edges ≠ [] ∧
      (∀ id, ¬ TransGen c'.Feeds id id) ∧
      (c'.edges.Pairwise fun e e' => (e.source, e.target) ≠ (e'.source, e'.target)) ∧
      ∀ e ∈ c'.edges, ∃ k l, c'.index.kindOf? e.source = some k ∧ c'.index.kindOf? e.target = some l ∧
        k.canFeed l = true ∧ k ≠ .badge ∧ l ≠ .condition := by
  let c : Canvas Unit := ⟨[⟨"gate", (), .logic .or⟩, ⟨"gold", (), .badge ⟨"GOLD", none, 1⟩⟩], []⟩
  let e : Edge := { id := "e0", source := "gate", target := "gold" }
  let c₁ := c.addNode ⟨"gate", (), .badge ⟨"GATE", none, 1⟩⟩
  have hfit : c₁.connect e = .ok (c₁.addEdge e) := by
    refine connect_eq_ok_iff.2 ⟨accepts_connection_iff.1 ?_, rfl⟩
    unfold accepts check
    rw [index_eq_scan]
    cbv
  have hrun : ReflTransGen Edit c (c₁.addEdge e) :=
    (ReflTransGen.single (.addNode c _)).tail (.connect hfit)
  exact ⟨c, c₁.addEdge e, rfl, hrun, by decide, edits_keep_order rfl hrun⟩

end Canvas

end BadgeRules
