import Mathlib.Data.List.Basic
import BadgeRules.Proofs.Editing
import BadgeRules.Rule.Compile

/-!
# Acyclic canvases unfold

`Canvas.Unfolds` reads trees off a canvas by following edges upstream, without any guard against
cycles. On an acyclic canvas this is what compiling does (`Acyclic.unfolds_roots`): the ids that are
still fresh on a branch include everything upstream, so the guard never applies.
-/

namespace BadgeRules
open Relation

variable {P Q : Type}

def Payload.award? : Payload → Option Award
  | .badge a => some a
  | _ => none

theorem Payload.award?_badge (a : Award) : (Payload.badge a).award? = some a := rfl

theorem Payload.award?_cases (p : Payload) :
    (∃ a, p = .badge a) ∨ (p.award? = none ∧ p.kind? ≠ some .badge) := by
  cases p with
  | badge a => exact .inl ⟨a, rfl⟩
  | condition t => exact .inr ⟨rfl, nofun⟩
  | logic op => exact .inr ⟨rfl, nofun⟩
  | unknown => exact .inr ⟨rfl, nofun⟩

namespace Canvas

variable {c : Canvas P}

/-- What the first node with this id stands for. -/
def payload? (c : Canvas P) (id : String) : Option Payload := (c.node? id).map Node.payload

theorem payload?_congr {d : Canvas Q} (h : c.nodes.map Node.label = d.nodes.map Node.label) :
    c.payload? = d.payload? :=
  funext fun id => node?_payload_congr h id

section Found

variable {id : String} {n : Node P}

theorem mem_of_node? (h : c.node? id = some n) : n ∈ c.nodes := List.mem_of_find?_eq_some h

theorem id_of_node? (h : c.node? id = some n) : n.id = id := by simpa using List.find?_some h

theorem mem_ids_of_node? (h : c.node? id = some n) : id ∈ c.ids :=
  List.mem_map.2 ⟨n, mem_of_node? h, id_of_node? h⟩

end Found

theorem incoming_subset (c : Canvas P) (id : String) : c.incoming id ⊆ c.edges := List.filter_subset_self _

/-! ### Unfolding -/

/-- Followed upstream, the edges `es` give the trees `fs`. On the way the edges `ws` are passed, each
before those upstream of it. Edges that come from no condition and no logic node are skipped. -/
inductive Unfolds (c : Canvas P) : List Edge → List Formula → List Edge → Prop
  | nil : Unfolds c [] [] []
  | skip {e : Edge} {es ws : List Edge} {fs : List Formula}
      (htest : ∀ t, c.payload? e.source ≠ some (.condition t))
      (hgate : ∀ op, c.payload? e.source ≠ some (.logic op))
      (rest : Unfolds c es fs ws) : Unfolds c (e :: es) fs ws
  | test {e : Edge} {t : Comparison} {es ws : List Edge} {fs : List Formula}
      (hp : c.payload? e.source = some (.condition t))
      (rest : Unfolds c es fs ws) : Unfolds c (e :: es) (.test t :: fs) (e :: ws)
  | gate {e : Edge} {op : Connective} {es us ws : List Edge} {gs fs : List Formula}
      (hp : c.payload? e.source = some (.logic op))
      (up : Unfolds c (c.incoming e.source) gs us)
      (rest : Unfolds c es fs ws) : Unfolds c (e :: es) (.gate op gs :: fs) (e :: (us ++ ws))

namespace Unfolds

variable {es ws : List Edge} {fs : List Formula}

/-- There is one way to unfold. -/
theorem unique {fs' : List Formula} {ws' : List Edge} (h : Unfolds c es fs ws) (h' : Unfolds c es fs' ws') :
    fs = fs' ∧ ws = ws' := by
  induction h generalizing fs' ws' with
  | nil => cases h'; exact ⟨rfl, rfl⟩
  | skip htest hgate _ ih =>
    cases h' with
    | skip _ _ rest => exact ih rest
    | test hp _ => exact absurd hp (htest _)
    | gate hp _ _ => exact absurd hp (hgate _)
  | test hp _ ih =>
    cases h' with
    | skip htest _ _ => exact absurd hp (htest _)
    | test hp' rest =>
      obtain ⟨rfl, rfl⟩ := ih rest
      rw [hp] at hp'; cases hp'; exact ⟨rfl, rfl⟩
    | gate hp' _ _ => rw [hp] at hp'; cases hp'
  | gate hp _ _ ihup ih =>
    cases h' with
    | skip _ hgate _ => exact absurd hp (hgate _)
    | test hp' _ => rw [hp] at hp'; cases hp'
    | gate hp' up rest =>
      obtain ⟨rfl, rfl⟩ := ihup up
      obtain ⟨rfl, rfl⟩ := ih rest
      rw [hp] at hp'; cases hp'; exact ⟨rfl, rfl⟩

theorem congr {d : Canvas Q} (hp : c.payload? = d.payload?) (hin : c.incoming = d.incoming)
    (h : Unfolds c es fs ws) : Unfolds d es fs ws := by
  induction h with
  | nil => exact .nil
  | skip htest hgate _ ih => exact .skip (hp ▸ htest) (hp ▸ hgate) ih
  | test ht _ ih => exact .test (hp ▸ ht) ih
  | gate hg _ _ ihup ih => exact .gate (hp ▸ hg) (hin ▸ ihup) ih

/-- The edges that are passed are edges of the canvas, upstream of those that were followed. -/
theorem upstream (h : Unfolds c es fs ws) (hes : es ⊆ c.edges) :
    ∀ w ∈ ws, w ∈ c.edges ∧ ∃ e ∈ es, ReflTransGen c.Feeds w.source e.source := by
  induction h with
  | nil => exact fun _ hw => (List.not_mem_nil hw).elim
  | skip _ _ _ ih =>
    intro w hw
    obtain ⟨hwc, e, he, hp⟩ := ih (List.cons_subset.1 hes).2 w hw
    exact ⟨hwc, e, List.mem_cons_of_mem _ he, hp⟩
  | @test e _ es _ _ _ _ ih =>
    intro w hw
    rcases List.mem_cons.1 hw with rfl | hw
    · exact ⟨hes List.mem_cons_self, w, List.mem_cons_self, .refl⟩
    · obtain ⟨hwc, e', he, hp⟩ := ih (List.cons_subset.1 hes).2 w hw
      exact ⟨hwc, e', List.mem_cons_of_mem _ he, hp⟩
  | @gate e _ es _ _ _ _ _ _ _ ihup ih =>
    intro w hw
    rcases List.mem_cons.1 hw with rfl | hw
    · exact ⟨hes List.mem_cons_self, w, List.mem_cons_self, .refl⟩
    rcases List.mem_append.1 hw with hw | hw
    · obtain ⟨hwc, e', he, hp⟩ := ihup (c.incoming_subset e.source) w hw
      obtain ⟨he, ht⟩ := mem_incoming.1 he
      exact ⟨hwc, e, List.mem_cons_self, hp.tail ⟨e', he, rfl, ht⟩⟩
    · obtain ⟨hwc, e', he, hp⟩ := ih (List.cons_subset.1 hes).2 w hw
      exact ⟨hwc, e', List.mem_cons_of_mem _ he, hp⟩

end Unfolds

/-! ### One edge of a branch -/

section Branches

variable {fresh : List String} {e : Edge} {n : Node P}

theorem branch_missing (h : c.node? e.source = none) : c.index.branch fresh e = .dropped .missing e := by
  rw [Index.branch, index_node?]
  split
  · rfl
  · rename_i hn; rw [h] at hn; cases hn

theorem branch_fresh (h : c.node? e.source = some n) (hf : e.source ∈ fresh) :
    c.index.branch fresh e = match n.payload with
      | .condition t => .test n t
      | .logic op => .gate n op ((c.incoming e.source).map (c.index.branch (without e.source fresh)))
      | .badge _ => .dropped .badge e
      | .unknown => .ignored e := by
  rw [Index.branch, index_node?, index_incoming]
  split
  · rename_i hn; rw [h] at hn; cases hn
  · rename_i m hn
    rw [h] at hn; cases hn
    refine (dif_pos hf).trans ?_
    cases n.payload <;> rfl

theorem branch_cycle (h : c.node? e.source = some n) (hf : e.source ∉ fresh) :
    c.index.branch fresh e = .dropped .cycle e := by
  rw [Index.branch, index_node?]
  split
  · rename_i hn; rw [h] at hn; cases hn
  · exact dif_neg hf

end Branches

/-! ### Compiling by unfolding -/

/-- The branches along `es` unfold the canvas there, as long as everything upstream of the common
target `t` is fresh. -/
theorem Acyclic.unfolds_branches (hc : c.Acyclic) {t : String} {es : List Edge} {fresh : List String}
    (hes : ∀ e ∈ es, e ∈ c.edges ∧ e.target = t)
    (hfresh : ∀ x ∈ c.ids, TransGen c.Feeds x t → x ∈ fresh) :
    ∃ ws, Unfolds c es ((es.map (c.index.branch fresh)).filterMap Branch.formula?) ws ∧
      (es.map (c.index.branch fresh)).flatMap Branch.nodes = ws.filterMap fun w => c.node? w.source := by
  -- the outer induction goes up the branch, the inner one along the edges into one node
  induction hk : fresh.length using Nat.strongRecOn generalizing t es fresh with
  | ind k ihk =>
    subst hk
    induction es with
    | nil => exact ⟨[], .nil, rfl⟩
    | cons e es ih =>
      obtain ⟨ws, hws, hns⟩ := ih fun e he => hes e (List.mem_cons_of_mem _ he)
      obtain ⟨hec, het⟩ := hes e List.mem_cons_self
      have hstep : c.Feeds e.source t := ⟨e, hec, rfl, het⟩
      rw [List.map_cons, List.filterMap_cons, List.flatMap_cons, hns]
      cases hn : c.node? e.source with
      | none =>
        rw [branch_missing hn]
        exact ⟨ws, .skip (by simp [payload?, hn]) (by simp [payload?, hn]) hws, rfl⟩
      | some n =>
        have hf : e.source ∈ fresh := hfresh _ (mem_ids_of_node? hn) (.single hstep)
        rw [branch_fresh hn hf]
        have hpay : c.payload? e.source = some n.payload := by simp [payload?, hn]
        cases hp : n.payload with
        | badge a => exact ⟨ws, .skip (by simp [hpay, hp]) (by simp [hpay, hp]) hws, rfl⟩
        | unknown => exact ⟨ws, .skip (by simp [hpay, hp]) (by simp [hpay, hp]) hws, rfl⟩
        | condition t => exact ⟨e :: ws, .test (by rw [hpay, hp]) hws, by simp [Branch.nodes, hn]⟩
        | logic op =>
          have hup : ∀ x ∈ c.ids, TransGen c.Feeds x e.source → x ∈ without e.source fresh := by
            intro x hx hp
            refine mem_without.2 ⟨hfresh x hx (hp.tail hstep), ?_⟩
            rintro rfl; exact hc _ hp
          obtain ⟨us, hus, hms⟩ := ihk _ (length_without_lt hf) (fun e he => mem_incoming.1 he) hup rfl
          refine ⟨e :: (us ++ ws), ?_, ?_⟩
          · simp only [Branch.formula?, Branch.formulas_eq_filterMap]
            exact .gate (by rw [hpay, hp]) hus hws
          · simp only [Branch.nodes, Branch.nodesOf_eq_flatMap, hms, List.filterMap_cons, hn,
              List.filterMap_append, List.cons_append]

/-- The trees that arrive at a node. -/
def roots (c : Canvas P) (id : String) : List Formula := (c.branches c.index id).filterMap Branch.formula?

theorem Acyclic.unfolds_roots (hc : c.Acyclic) (id : String) :
    ∃ ws, Unfolds c (c.incoming id) (c.roots id) ws ∧
      (c.branches c.index id).flatMap Branch.nodes = ws.filterMap fun w => c.node? w.source := by
  have hfresh : ∀ x ∈ c.ids, TransGen c.Feeds x id → x ∈ without id c.ids := by
    intro x hx hp
    refine mem_without.2 ⟨hx, ?_⟩
    rintro rfl; exact hc _ hp
  simp only [roots, branches, index_incoming]
  exact hc.unfolds_branches (fun e he => mem_incoming.1 he) hfresh

theorem Acyclic.roots_eq (hc : c.Acyclic) {id : String} {fs : List Formula} {ws : List Edge}
    (h : Unfolds c (c.incoming id) fs ws) : c.roots id = fs := by
  obtain ⟨ws', h', -⟩ := hc.unfolds_roots id
  exact (h'.unique h).1

/-! ### What a compiled rule guards -/

/-- The awards of the badge nodes, each with the trees that arrive there. -/
def guards (c : Canvas P) : List (Award × List Formula) :=
  c.nodes.filterMap fun n => n.payload.award?.map fun a => (a, c.roots n.id)

theorem mem_ids_of_mem_ofKind {k : NodeKind} {n : Node P} (h : n ∈ c.ofKind k) : n.id ∈ c.ids :=
  List.mem_map_of_mem (List.mem_filter.1 h).1

/-- The nodes with an award are the badge nodes. -/
theorem filterMap_award? {β : Type} {f : Node P → Award → β} {g : Node P → β}
    (h : ∀ n a, n.payload = .badge a → f n a = g n) :
    (c.nodes.filterMap fun n => n.payload.award?.map (f n)) = (c.ofKind .badge).map g := by
  rw [ofKind]
  induction c.nodes with
  | nil => rfl
  | cons n ns ih =>
    rw [List.filterMap_cons, List.filter_cons]
    rcases n.payload.award?_cases with ⟨a, hp⟩ | ⟨hp, hk⟩
    · rw [if_pos (by simp [Node.kind?, hp, Payload.kind?]), List.map_cons, ← ih, ← h n a hp, hp]
      rfl
    · rw [if_neg (by simpa [Node.kind?] using hk), hp]
      exact ih

theorem badges_eq_award? (c : Canvas P) (ix : Index P) :
    c.badges ix = c.nodes.filterMap fun n => n.payload.award?.map fun a => (n, a, c.branches ix n.id) := by
  rw [badges]
  refine List.filterMap_congr fun n _ => ?_
  cases n.payload <;> rfl

theorem badges_map {β : Type} (f : Award → List Formula → β) :
    (c.badges c.index).map (fun (_, a, bs) => f a (bs.filterMap Branch.formula?)) =
      c.guards.map fun (a, fs) => f a fs := by
  rw [badges_eq_award?, guards, List.map_filterMap, List.map_filterMap]
  refine List.filterMap_congr fun n _ => ?_
  cases n.payload.award? <;> rfl

/-- What is gathered from all badges is gathered from the badge nodes in order. -/
theorem flatMap_badges {β : Type} (f : Node P → List (Branch P) → List β) :
    (c.badges c.index).flatMap (fun (n, _, bs) => f n bs) =
      (c.ofKind .badge).flatMap fun b => f b (c.branches c.index b.id) := by
  have hmap : (c.badges c.index).map (fun (n, _, bs) => f n bs) =
      (c.ofKind .badge).map fun b => f b (c.branches c.index b.id) := by
    simp only [badges_eq_award?, List.map_filterMap, Option.map_map]
    exact filterMap_award? fun _ _ _ => rfl
  exact congrArg List.flatten hmap

/-- There is a guard for each badge node, in order. -/
theorem guards_badges (c : Canvas P) : c.guards.map (fun g => (Payload.badge g.1, g.2)) =
    (c.ofKind .badge).map fun b => (b.payload, c.roots b.id) := by
  simp only [guards, List.map_filterMap, Option.map_map]
  exact filterMap_award? fun n a hp => by rw [hp]; rfl

theorem fst_guards (c : Canvas P) : c.guards.map (Payload.badge ·.1) = (c.ofKind .badge).map Node.payload := by
  have h := congrArg (List.map Prod.fst) c.guards_badges
  rwa [List.map_map, List.map_map] at h

theorem snd_guards (c : Canvas P) : c.guards.map Prod.snd = (c.ofKind .badge).map fun b => c.roots b.id := by
  have h := congrArg (List.map Prod.snd) c.guards_badges
  rwa [List.map_map, List.map_map] at h

variable {id name : String} {description : Option String}

theorem awards_compile : (c.compile id name description).rule.awards = c.guards.map Prod.fst :=
  badges_map fun a _ => a

theorem slots_compile :
    (c.compile id name description).rule.slots = c.guards.map fun g => .ofRoots g.2 :=
  badges_map fun _ fs => Slot.ofRoots fs

theorem roots_compile :
    (c.compile id name description).rule.slots.map Slot.roots = c.guards.map Prod.snd := by
  rw [slots_compile, List.map_map]
  exact List.map_congr_left fun g _ => Slot.roots_ofRoots g.2

/-- A compiled rule guards what arrives at the badge nodes of its canvas. -/
theorem guarded_compile : (c.compile id name description).rule.guarded = c.guards := by
  refine List.ext_getElem? fun i => ?_
  simp only [Rule.getElem?_guarded, Rule.rootsAt, awards_compile, slots_compile, List.getElem?_map]
  cases c.guards[i]? <;> simp [Slot.roots_ofRoots]

end Canvas

end BadgeRules
