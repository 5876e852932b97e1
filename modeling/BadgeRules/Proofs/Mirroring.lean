import BadgeRules.Proofs.Tracing

/-!
# Canvases that mirror each other

Compiling looks at no more than what is upstream of a badge: which nodes the ids there look up to, and from
where edges arrive, in which order. Where two canvases have that in common, up to the spelling of ids
(`Canvas.Mirrors`), they give the same trees, come to nodes that belong together, and report the same under
other ids (`Mirrors.branches`).
-/

namespace BadgeRules
open Relation

variable {P Q : Type}

theorem rel_cases {α β : Type} {R : α → β → Prop} {a? : Option α} {b? : Option β} (h : Option.Rel R a? b?) :
    (a? = none ∧ b? = none) ∨ ∃ a b, a? = some a ∧ b? = some b ∧ R a b := by
  cases h with
  | none => exact .inl ⟨rfl, rfl⟩
  | some hab => exact .inr ⟨_, _, rfl, rfl, hab⟩

/-- The event with ids spelled by `f`. -/
def Event.rename (f : String → String) : Event → Event
  | .dropped cause producer consumer => .dropped cause (f producer) (f consumer)
  | .compiled rule awards emptySlots => .compiled rule awards emptySlots
  | .extraSlots rule extra => .extraSlots rule extra
  | .expanded rule nodes edges => .expanded rule nodes edges
  | .rejected => .rejected

theorem Event.rename_id (e : Event) : e.rename id = e := by cases e <;> rfl

/-- The branches give the same trees. Their nodes belong together by `R`, and their reports are the same with
ids spelled by `f`. -/
structure Branch.Mirrored (R : Node P → Node Q → Prop) (f : String → String) (bs : List (Branch P))
    (bs' : List (Branch Q)) : Prop where
  formulas : bs'.filterMap formula? = bs.filterMap formula?
  events : bs'.flatMap Branch.events = (bs.flatMap Branch.events).map (Event.rename f)
  nodes : List.Forall₂ R (bs.flatMap Branch.nodes) (bs'.flatMap Branch.nodes)

namespace Branch.Mirrored

variable {R : Node P → Node Q → Prop} {f : String → String} {bs : List (Branch P)} {bs' : List (Branch Q)}
  {b : Branch P} {b' : Branch Q} {n : Node P} {m : Node Q}

theorem nil : Mirrored R f [] [] := ⟨rfl, rfl, .nil⟩

theorem cons (hb : Mirrored R f [b] [b']) (hbs : Mirrored R f bs bs') : Mirrored R f (b :: bs) (b' :: bs') := by
  obtain ⟨hf, he, hn⟩ := hb
  simp only [List.flatMap_cons, List.flatMap_nil, List.append_nil] at he hn
  refine ⟨?_, ?_, ?_⟩
  · rw [← List.singleton_append, List.filterMap_append, hf, hbs.formulas, ← List.filterMap_append]
    rfl
  · rw [List.flatMap_cons, List.flatMap_cons, List.map_append, he, hbs.events]
  · rw [List.flatMap_cons, List.flatMap_cons]
    exact List.rel_append hn hbs.nodes

theorem test (hn : R n m) (t : Comparison) : Mirrored R f [.test n t] [.test m t] :=
  ⟨rfl, rfl, .cons hn .nil⟩

theorem gate (hn : R n m) (op : Connective) (hbs : Mirrored R f bs bs') :
    Mirrored R f [.gate n op bs] [.gate m op bs'] := by
  refine ⟨?_, ?_, ?_⟩
  · simp only [List.filterMap_cons, List.filterMap_nil, formula?, formulas_eq_filterMap, hbs.formulas]
  · simp only [List.flatMap_cons, List.flatMap_nil, List.append_nil, Branch.events, eventsOf_eq_flatMap,
      hbs.events]
  · simp only [List.flatMap_cons, List.flatMap_nil, List.append_nil, Branch.nodes, nodesOf_eq_flatMap]
    exact .cons hn hbs.nodes

theorem dropped (cause : DropCause) {e e' : Edge} (hs : e'.source = f e.source) (ht : e'.target = f e.target) :
    Mirrored R f [.dropped cause e] [.dropped cause e'] := by
  refine ⟨rfl, ?_, .nil⟩
  simp [Branch.events, Event.rename, hs, ht]

theorem ignored (e e' : Edge) : Mirrored R f [.ignored e] [.ignored e'] := ⟨rfl, rfl, .nil⟩

end Branch.Mirrored

namespace Canvas

/-- Upstream of `id`, the canvas `d` is like `c` with ids spelled by `f`. Nodes that ids look up to belong
together by `R`. -/
structure Mirrors (R : Node P → Node Q → Prop) (f : String → String) (c : Canvas P) (d : Canvas Q)
    (id : String) : Prop where
  payload : ∀ n m, R n m → m.payload = n.payload
  injective : ∀ x y, ReflTransGen c.Feeds x id → ReflTransGen c.Feeds y id → f x = f y → x = y
  nodes : ∀ x, ReflTransGen c.Feeds x id → Option.Rel R (c.node? x) (d.node? (f x))
  sources : ∀ x, ReflTransGen c.Feeds x id →
    (d.incoming (f x)).map Edge.source = (c.incoming x).map fun e => f e.source

namespace Mirrors

variable {R : Node P → Node Q → Prop} {f : String → String} {c : Canvas P} {d : Canvas Q} {id x : String}
  {xs : List String}

/-- Edges that have come through ids upstream have come through their spellings. -/
theorem mem_map_iff (h : c.Mirrors R f d id) (hx : ReflTransGen c.Feeds x id)
    (hxs : ∀ y ∈ xs, ReflTransGen c.Feeds y id) : f x ∈ xs.map f ↔ x ∈ xs := by
  constructor
  · intro hmem
    obtain ⟨y, hy, heq⟩ := List.mem_map.1 hmem
    exact h.injective y x (hxs y hy) hx heq ▸ hy
  · exact List.mem_map_of_mem

/-- One edge, if what is upstream of its source is mirrored. -/
theorem branch (h : c.Mirrors R f d id) (hxs : ∀ y ∈ xs, ReflTransGen c.Feeds y id) {e e' : Edge}
    (he : ReflTransGen c.Feeds e.source id) (hs : e'.source = f e.source) (ht : e'.target = f e.target)
    (hup : e.source ∈ c.unused xs →
      Branch.Mirrored R f ((c.incoming e.source).map (c.index.branch (c.unused (xs ++ [e.source]))))
        ((d.incoming e'.source).map (d.index.branch (d.unused (xs.map f ++ [e'.source]))))) :
    Branch.Mirrored R f [c.index.branch (c.unused xs) e] [d.index.branch (d.unused (xs.map f)) e'] := by
  have hnode := h.nodes e.source he
  rw [← hs] at hnode
  rcases rel_cases hnode with ⟨hn, hm⟩ | ⟨n, m, hn, hm, hnm⟩
  · rw [branch_missing hn, branch_missing hm]
    exact .dropped .missing hs ht
  have hmem := h.mem_map_iff he hxs
  rw [← hs] at hmem
  by_cases hx : e.source ∈ xs
  · rw [branch_cycle hn fun hf => (mem_unused.1 hf).2 hx,
      branch_cycle hm fun hf => (mem_unused.1 hf).2 (hmem.2 hx)]
    exact .dropped .cycle hs ht
  · have hf : e.source ∈ c.unused xs := mem_unused.2 ⟨mem_ids_of_node? hn, hx⟩
    have hf' : e'.source ∈ d.unused (xs.map f) := mem_unused.2 ⟨mem_ids_of_node? hm, hmem.not.2 hx⟩
    rw [branch_fresh hn hf, branch_fresh hm hf', h.payload n m hnm, without_unused, without_unused]
    rcases n.payload with t | op | a | _
    · exact .test hnm t
    · exact .gate hnm op (hup hf)
    · exact .dropped .badge hs ht
    · exact .ignored e e'

/-- What arrives at an id upstream is mirrored, when the branch has come through ids upstream. -/
theorem branches_along (h : c.Mirrors R f d id) (hx : ReflTransGen c.Feeds x id)
    (hxs : ∀ y ∈ xs, ReflTransGen c.Feeds y id) :
    Branch.Mirrored R f ((c.incoming x).map (c.index.branch (c.unused xs)))
      ((d.incoming (f x)).map (d.index.branch (d.unused (xs.map f)))) := by
  -- the outer induction goes up the branch, the inner one along the edges into one node
  induction hk : (c.unused xs).length using Nat.strongRecOn generalizing x xs with
  | ind k ihk =>
    subst hk
    have hes : ∀ e ∈ c.incoming x, e ∈ c.edges ∧ e.target = x := fun e he => mem_incoming.1 he
    have hes' : ∀ e ∈ d.incoming (f x), e.target = f x := fun e he => (mem_incoming.1 he).2
    have hsources := h.sources x hx
    generalize c.incoming x = es at hes hsources
    generalize d.incoming (f x) = es' at hes' hsources
    induction es generalizing es' with
    | nil =>
      rw [List.map_eq_nil_iff.1 hsources]
      exact .nil
    | cons e es ih =>
      obtain ⟨e', es', rfl, hs, hsources⟩ := List.map_eq_cons_iff.1 hsources
      replace hs : e'.source = f e.source := hs
      obtain ⟨he, hes⟩ := List.forall_mem_cons.1 hes
      obtain ⟨he', hes'⟩ := List.forall_mem_cons.1 hes'
      have hup : ReflTransGen c.Feeds e.source id := .head ⟨e, he.1, rfl, he.2⟩ hx
      refine .cons (h.branch hxs hup hs (by rw [he', he.2]) fun hf => ?_) (ih hes es' hes' hsources)
      have hlt : (c.unused (xs ++ [e.source])).length < (c.unused xs).length := by
        rw [← without_unused]
        exact length_without_lt hf
      have hxs' : ∀ y ∈ xs ++ [e.source], ReflTransGen c.Feeds y id :=
        List.forall_mem_append.2 ⟨hxs, List.forall_mem_singleton.2 hup⟩
      have hbranch := ihk _ hlt hup hxs' rfl
      rwa [List.map_append, List.map_singleton, ← hs] at hbranch

/-- The branches that arrive at `id` are mirrored. -/
theorem branches (h : c.Mirrors R f d id) :
    Branch.Mirrored R f (c.branches c.index id) (d.branches d.index (f id)) := by
  have hxs : ∀ y ∈ [id], ReflTransGen c.Feeds y id := List.forall_mem_singleton.2 .refl
  have hbranches := h.branches_along .refl hxs
  unfold Canvas.branches
  rwa [index_incoming, index_incoming, without_ids, without_ids]

theorem roots (h : c.Mirrors R f d id) : d.roots (f id) = c.roots id := h.branches.formulas

theorem reports (h : c.Mirrors R f d id) : d.reports (f id) = (c.reports id).map (Event.rename f) :=
  h.branches.events

end Mirrors

end Canvas

end BadgeRules
