import BadgeRules.Proofs.Crossings
import BadgeRules.Proofs.Mirroring

/-!
# What is upstream of a badge decides its slot

Two canvases that agree upstream of a badge (`Canvas.AgreesUpstream`) give it the same slot and report the same
for it (`AgreesUpstream.roots`, `AgreesUpstream.reports`). So awards and slots stay paired whatever is edited
elsewhere, in whichever order the nodes are listed, and when canvases without a common id are put together
(`compile_upstream`).
-/

namespace BadgeRules
open Relation

variable {P Q : Type}

/-- The awards of a rule, each with its slot. -/
def Rule.pairs (r : Rule P) : List (Award × Slot) := r.awards.zip r.slots

namespace Canvas

variable {c : Canvas P} {d : Canvas Q} {x : String}

/-- Upstream of `b` the canvases agree: ids look up to the same payloads, or to nothing in both, and edges
arrive from the same sources in the same order. -/
structure AgreesUpstream (c : Canvas P) (d : Canvas Q) (b : String) : Prop where
  payload : ∀ x, ReflTransGen c.Feeds x b → d.payload? x = c.payload? x
  sources : ∀ x, ReflTransGen c.Feeds x b →
    (d.incoming x).map Edge.source = (c.incoming x).map Edge.source

namespace AgreesUpstream

variable {b : String} (h : c.AgreesUpstream d b)
include h

theorem mirrors : c.Mirrors (fun n m => m.payload = n.payload) id d b := by
  refine ⟨fun _ _ hnm => hnm, fun _ _ _ _ heq => heq, fun x hx => ?_, h.sources⟩
  have hpayload := h.payload x hx
  unfold payload? at hpayload
  rw [id]
  rcases hn : c.node? x with _ | n <;> rcases hm : d.node? x with _ | m <;> rw [hn, hm] at hpayload
  · exact .none
  · cases hpayload
  · cases hpayload
  · exact .some (Option.some_inj.1 hpayload)

theorem roots : d.roots b = c.roots b := h.mirrors.roots

theorem reports : d.reports b = c.reports b := by
  have hreports := h.mirrors.reports
  rwa [List.map_congr_left fun e _ => e.rename_id, List.map_id'] at hreports

end AgreesUpstream

/-! ### What is upstream of a badge -/

/-- Ids that contain the sources of whatever arrives at one of them contain all that is upstream. -/
theorem mem_of_upstream {xs : List String} (hxs : ∀ e ∈ c.edges, e.target ∈ xs → e.source ∈ xs) {b : String}
    (h : ReflTransGen c.Feeds x b) (hb : b ∈ xs) : x ∈ xs := by
  induction h using ReflTransGen.head_induction_on with
  | refl => exact hb
  | head hstep _ ih =>
    obtain ⟨e, he, rfl, rfl⟩ := hstep
    exact hxs e he ih

/-- Canvases that agree about all ids agree upstream of each. -/
theorem AgreesUpstream.of_all (hp : d.payload? = c.payload?) (he : d.edges = c.edges) (b : String) :
    c.AgreesUpstream d b := by
  refine ⟨fun x _ => by rw [hp], fun x _ => ?_⟩
  rw [incoming, incoming, he]

/-- The order of nodes does not matter if no id is used twice. -/
theorem payload?_perm {ns : List (Node P)} (h : c.ids.Nodup) (hns : ns.Perm c.nodes) :
    ({ c with nodes := ns } : Canvas P).payload? = c.payload? := by
  have hids : ({ c with nodes := ns } : Canvas P).ids.Nodup := (hns.map _).nodup_iff.2 h
  funext x
  rw [payload?, payload?]
  refine congrArg _ ?_
  rcases hn : c.node? x with _ | n
  · rw [node?, List.find?_eq_none] at hn ⊢
    exact fun n hn' => hn n (hns.subset hn')
  · obtain rfl := id_of_node? hn
    exact node?_of_mem hids (hns.symm.subset (mem_of_node? hn))

/-! ### Canvases put together -/

/-- The nodes and edges of `c`, followed by those of `d`. -/
def join (c d : Canvas P) : Canvas P := ⟨c.nodes ++ d.nodes, c.edges ++ d.edges⟩

/-- The ids of nodes, and those at the ends of edges. -/
def mentioned (c : Canvas P) : List String := c.ids ++ c.edges.flatMap fun e => [e.source, e.target]

theorem ends_mentioned {e : Edge} (he : e ∈ c.edges) : e.source ∈ c.mentioned ∧ e.target ∈ c.mentioned :=
  ⟨List.mem_append_right _ (List.mem_flatMap.2 ⟨e, he, by simp⟩),
    List.mem_append_right _ (List.mem_flatMap.2 ⟨e, he, by simp⟩)⟩

theorem id_mentioned {n : Node P} (hn : n ∈ c.nodes) : n.id ∈ c.mentioned :=
  List.mem_append_left _ (List.mem_map_of_mem hn)

theorem upstream_mentioned {b : String} (h : ReflTransGen c.Feeds x b) (hb : b ∈ c.mentioned) :
    x ∈ c.mentioned :=
  mem_of_upstream (fun _ he _ => (ends_mentioned he).1) h hb

section Absent

variable (hx : x ∉ c.mentioned)
include hx

theorem node?_eq_none : c.node? x = none := by
  rw [node?, List.find?_eq_none]
  intro n hn heq
  exact hx (eq_of_beq heq ▸ id_mentioned hn)

theorem incoming_eq_nil : c.incoming x = [] := by
  rw [incoming, List.filter_eq_nil_iff]
  intro e he heq
  exact hx (eq_of_beq heq ▸ (ends_mentioned he).2)

end Absent

section Join

variable {d : Canvas P} {b : String}

theorem node?_join (c d : Canvas P) (x : String) : (c.join d).node? x = (c.node? x).or (d.node? x) :=
  List.find?_append

theorem incoming_join (c d : Canvas P) (x : String) : (c.join d).incoming x = c.incoming x ++ d.incoming x :=
  List.filter_append _ _

theorem agreesUpstream_join_left (h : c.mentioned.Disjoint d.mentioned) (hb : b ∈ c.mentioned) :
    c.AgreesUpstream (c.join d) b := by
  refine ⟨fun x hx => ?_, fun x hx => ?_⟩
  all_goals have hx' : x ∉ d.mentioned := h (upstream_mentioned hx hb)
  · rw [payload?, payload?, node?_join, node?_eq_none hx', Option.or_none]
  · rw [incoming_join, incoming_eq_nil hx', List.append_nil]

theorem agreesUpstream_join_right (h : c.mentioned.Disjoint d.mentioned) (hb : b ∈ d.mentioned) :
    d.AgreesUpstream (c.join d) b := by
  refine ⟨fun x hx => ?_, fun x hx => ?_⟩
  all_goals have hx' : x ∉ c.mentioned := fun hc => h hc (upstream_mentioned hx hb)
  · rw [payload?, payload?, node?_join, node?_eq_none hx', Option.none_or]
  · rw [incoming_join, incoming_eq_nil hx', List.nil_append]

end Join

/-! ### Awards with their slots -/

/-- The award of a badge node, with the slot that guards it. -/
def pair? (c : Canvas P) (n : Node P) : Option (Award × Slot) :=
  n.payload.award?.map fun a => (a, .ofRoots (c.roots n.id))

theorem AgreesUpstream.pair?_eq {n : Node P} {m : Node Q} (h : c.AgreesUpstream d n.id) (hl : m.label = n.label) :
    d.pair? m = c.pair? n := by
  obtain ⟨hid, hp⟩ := Prod.mk.inj hl
  rw [pair?, pair?, hid, hp, h.roots]

theorem payload_of_pair? {n : Node P} {p : Award × Slot} (h : c.pair? n = some p) :
    n.payload = .badge p.1 := by
  rcases n.payload.award?_cases with ⟨a, hp⟩ | ⟨hp, -⟩
  · rw [pair?, hp] at h
    obtain rfl := Option.some_inj.1 h
    exact hp
  · rw [pair?, hp] at h
    cases h

theorem isSome_pair?_iff {n : Node P} : (c.pair? n).isSome ↔ n.kind? = some .badge := by
  rw [Node.kind?]
  rcases n.payload.award?_cases with ⟨a, hp⟩ | ⟨hp, hk⟩
  · rw [pair?, hp]
    exact iff_of_true rfl rfl
  · rw [pair?, hp]
    exact iff_of_false Bool.false_ne_true hk

section Compile

variable (id name : String) (description : Option String)

theorem pairs_eq_guards (c : Canvas P) :
    (c.compile id name description).rule.pairs = c.guards.map fun g => (g.1, .ofRoots g.2) := by
  rw [Rule.pairs, awards_compile, slots_compile, List.zip_map']

theorem pairs_compile (c : Canvas P) : (c.compile id name description).rule.pairs = c.nodes.filterMap c.pair? := by
  rw [pairs_eq_guards, guards, List.map_filterMap]
  refine List.filterMap_congr fun n _ => ?_
  rw [pair?, Option.map_map]
  rfl

/-- Awards are read off the nodes alone. -/
theorem awards_eq (c : Canvas P) :
    (c.compile id name description).rule.awards = c.nodes.filterMap fun n => n.payload.award? := by
  rw [awards_compile, guards, List.map_filterMap]
  refine List.filterMap_congr fun n _ => ?_
  rw [Option.map_map]
  exact Option.map_id'

theorem payloads_pairs (c : Canvas P) : (c.compile id name description).rule.pairs.map (Payload.badge ·.1) =
    (c.ofKind .badge).map Node.payload := by
  rw [pairs_eq_guards, List.map_map]
  exact c.fst_guards

/-- There is a pair for each badge node, in order. -/
theorem pairs_badges (c : Canvas P) :
    (c.compile id name description).rule.pairs.map some = (c.ofKind .badge).map c.pair? := by
  have hbadges : c.nodes.filterMap c.pair? = (c.ofKind .badge).filterMap c.pair? := by
    rw [ofKind, List.filterMap_filter]
    refine List.filterMap_congr fun n _ => ?_
    split
    case isTrue => rfl
    case isFalse hk =>
      exact Option.not_isSome_iff_eq_none.1 fun hs => hk (beq_iff_eq.2 (isSome_pair?_iff.1 hs))
  rw [pairs_compile, hbadges, map_some_filterMap]
  intro b hb
  exact isSome_pair?_iff.2 (eq_of_beq (List.mem_filter.1 hb).2)

theorem getElem?_pairs {i : Nat} {b : Node P} (hb : (c.ofKind .badge)[i]? = some b) :
    (c.compile id name description).rule.pairs[i]? = c.pair? b := by
  have h := congrArg (·[i]?) (c.pairs_badges id name description)
  simp only [List.getElem?_map, hb, Option.map_some] at h
  obtain ⟨p, hp, h⟩ := Option.map_eq_some_iff.1 h
  rw [hp, h]

end Compile

end Canvas

/-- `compile` gives a pair of award and slot (`Rule.pairs`) for each badge node, in order, and warns of one after the
other (`reports`). Both are the same on a canvas that `AgreesUpstream`, so a pair stays whatever becomes of the
edges elsewhere. No change of edges changes awards, and pairs go with their badges when the nodes are in another
order or another canvas with other ids is put next to them (`join`). -/
theorem compile_upstream (c : Canvas P) (id name : String) (description : Option String) :
    let compiled (d : Canvas P) := d.compile id name description
    let pairs (d : Canvas P) := (compiled d).rule.pairs
    (∀ d : Canvas P, (pairs d).map (Payload.badge ·.1) = (d.ofKind .badge).map Node.payload ∧
      (compiled d).events.filter (·.level = .warn) = (d.ofKind .badge).flatMap fun b => d.reports b.id) ∧
    (∀ (d : Canvas P) (i j : Nat) (b b' : Node P), (c.ofKind .badge)[i]? = some b →
      (d.ofKind .badge)[j]? = some b' → b'.label = b.label → c.AgreesUpstream d b.id →
        (∃ p, b.payload = .badge p.1 ∧ (pairs c)[i]? = some p ∧ (pairs d)[j]? = some p) ∧
          d.reports b'.id = c.reports b.id) ∧
    (∀ (es : List Edge) (i : Nat) (b : Node P), (c.ofKind .badge)[i]? = some b →
      (∀ x, ReflTransGen c.Feeds x b.id → ({ c with edges := es } : Canvas P).incoming x = c.incoming x) →
        (pairs { c with edges := es })[i]? = (pairs c)[i]?) ∧
    (∀ es : List Edge, (compiled { c with edges := es }).rule.awards = (compiled c).rule.awards) ∧
    (∀ ns : List (Node P), c.ids.Nodup → ns.Perm c.nodes → (pairs { c with nodes := ns }).Perm (pairs c)) ∧
    ∀ d : Canvas P, c.mentioned.Disjoint d.mentioned → pairs (c.join d) = pairs c ++ pairs d := by
  intro compiled pairs
  have hpairs : ∀ d : Canvas P, pairs d = d.nodes.filterMap d.pair? := Canvas.pairs_compile id name description
  have hget : ∀ (d : Canvas P) (i : Nat) (b : Node P), (d.ofKind .badge)[i]? = some b →
      (pairs d)[i]? = d.pair? b := fun d _ _ hb => d.getElem?_pairs id name description hb
  refine ⟨?badges, ?agree, ?elsewhere, ?awards, ?order, ?join⟩
  case badges =>
    exact fun d => ⟨d.payloads_pairs id name description,
      (d.warnings_compile id name description).trans (d.dropped_badges id name description)⟩
  case agree =>
    intro d i j b b' hb hb' hl hagree
    have hid : b'.id = b.id := (Prod.mk.inj hl).1
    have hkind : b.kind? = some .badge := eq_of_beq (List.mem_filter.1 (List.mem_of_getElem? hb)).2
    obtain ⟨p, hp⟩ := Option.isSome_iff_exists.1 (c.isSome_pair?_iff.2 hkind)
    refine ⟨⟨p, Canvas.payload_of_pair? hp, (hget c i b hb).trans hp, ?_⟩, hid ▸ hagree.reports⟩
    rw [hget d j b' hb', hagree.pair?_eq hl, hp]
  case elsewhere =>
    intro es i b hb hes
    have hagree : c.AgreesUpstream { c with edges := es } b.id := ⟨fun _ _ => rfl, fun x hx => by rw [hes x hx]⟩
    rw [hget c i b hb, hget { c with edges := es } i b hb, hagree.pair?_eq rfl]
  case awards =>
    intro es
    exact (Canvas.awards_eq id name description _).trans (c.awards_eq id name description).symm
  case order =>
    intro ns hids hns
    have hagree : ∀ b, c.AgreesUpstream { c with nodes := ns } b :=
      Canvas.AgreesUpstream.of_all (Canvas.payload?_perm hids hns) rfl
    have hpair : ({ c with nodes := ns } : Canvas P).pair? = c.pair? := funext fun n => (hagree n.id).pair?_eq rfl
    rw [hpairs, hpairs, hpair]
    exact hns.filterMap _
  case join =>
    intro d hdisj
    rw [hpairs, hpairs, hpairs, Canvas.join, List.filterMap_append]
    congr 1
    · exact List.filterMap_congr fun n hn =>
        (Canvas.agreesUpstream_join_left hdisj (Canvas.id_mentioned hn)).pair?_eq rfl
    · exact List.filterMap_congr fun n hn =>
        (Canvas.agreesUpstream_join_right hdisj (Canvas.id_mentioned hn)).pair?_eq rfl

/-- Two gates in a loop feed a badge, next to an id without a node. They stand in another order on the second
canvas, between other nodes. -/
theorem compile_upstream_loop :
    let pairs (d : Canvas Nat) := (d.compile "r" "R").rule.pairs
    ∃ (c d far : Canvas Nat) (es : List Edge) (gold gold' : Node Nat), (c.ofKind .badge)[0]? = some gold ∧
      (d.ofKind .badge)[1]? = some gold' ∧ c.AgreesUpstream d gold.id ∧
      (∃ p, gold.payload = .badge p.1 ∧ (pairs c)[0]? = some p ∧ (pairs d)[1]? = some p) ∧
      d.reports gold'.id = c.reports gold.id ∧
      es ≠ c.edges ∧ (pairs { c with edges := es })[0]? = (pairs c)[0]? ∧
      c.ids.Nodup ∧ (pairs { c with nodes := c.nodes.reverse }).Perm (pairs c) ∧
      c.mentioned.Disjoint far.mentioned ∧ pairs (c.join far) = pairs c ++ pairs far := by
  let member : Payload := .condition ⟨"member", .equal, .single (.bool true)⟩
  let gold : Node Nat := ⟨"gold", 0, .badge ⟨"GOLD", none, 1⟩⟩
  let gold' : Node Nat := ⟨"gold", 7, .badge ⟨"GOLD", none, 1⟩⟩
  let c : Canvas Nat :=
    { nodes := [gold, ⟨"silver", 1, .badge ⟨"SILVER", none, 1⟩⟩, ⟨"any", 2, .logic .or⟩, ⟨"all", 3, .logic .and⟩,
        ⟨"member", 4, member⟩]
      edges := [{ id := "e0", source := "any", target := "gold" },
        { id := "e1", source := "all", target := "any" },
        { id := "e2", source := "any", target := "all" },
        { id := "e3", source := "member", target := "all" },
        { id := "e4", source := "ghost", target := "any" },
        { id := "e5", source := "member", target := "silver" }] }
  let d : Canvas Nat :=
    { nodes := [⟨"silver", 9, .badge ⟨"BRONZE", none, 2⟩⟩, ⟨"all", 8, .logic .and⟩, ⟨"any", 0, .logic .or⟩, gold',
        ⟨"member", 5, member⟩, ⟨"any", 6, .unknown⟩]
      edges := [{ id := "e9", source := "any", target := "silver" },
        { id := "e3", source := "any", target := "all" },
        { id := "e3", source := "all", target := "any" },
        { id := "e4", source := "ghost", target := "any" },
        { id := "e5", source := "member", target := "all" },
        { id := "e0", source := "any", target := "gold" }] }
  let far : Canvas Nat :=
    { nodes := [⟨"copper", 0, .badge ⟨"COPPER", none, 1⟩⟩]
      edges := [{ id := "e0", source := "nobody", target := "copper" }] }
  let es : List Edge := { id := "e6", source := "silver", target := "silver" } :: c.edges.dropLast
  let upstream : List String := ["gold", "any", "all", "member", "ghost"]
  have hup : ∀ x, ReflTransGen c.Feeds x "gold" → x ∈ upstream :=
    fun x hx => Canvas.mem_of_upstream (by decide) hx (by decide)
  have hagree : c.AgreesUpstream d "gold" := by
    refine ⟨fun x hx => ?_, fun x hx => ?_⟩
    · simp only [upstream, List.mem_cons, List.not_mem_nil, or_false] at hup
      rcases hup x hx with rfl | rfl | rfl | rfl | rfl <;> rfl
    · exact (by decide : ∀ x ∈ upstream,
        (d.incoming x).map Edge.source = (c.incoming x).map Edge.source) x (hup x hx)
  have hes : ∀ x, ReflTransGen c.Feeds x "gold" → ({ c with edges := es } : Canvas Nat).incoming x = c.incoming x :=
    fun x hx => (by decide : ∀ x ∈ upstream,
      ({ c with edges := es } : Canvas Nat).incoming x = c.incoming x) x (hup x hx)
  have hids : c.ids.Nodup := by decide
  have hfar : c.mentioned.Disjoint far.mentioned := by
    intro x hx hx'
    exact (by decide : ∀ x ∈ c.mentioned, x ∉ far.mentioned) x hx hx'
  obtain ⟨-, hpair, helse, -, horder, hjoin⟩ := compile_upstream c "r" "R" none
  obtain ⟨hpair, hreports⟩ := hpair d 0 1 gold gold' rfl rfl rfl hagree
  exact ⟨c, d, far, es, gold, gold', rfl, rfl, hagree, hpair, hreports, by decide, helse es 0 gold rfl hes, hids,
    horder _ hids (List.reverse_perm _), hfar, hjoin far hfar⟩

end BadgeRules
