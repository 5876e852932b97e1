import BadgeRules.Proofs.Editing

/-!
# Why a connection is refused

`Canvas.faults` lists what can stand against a connection, in terms of the nodes and the graph alone, each
fault with the refusal that it gives. The check gives the refusal of the first fault that there is, and
accepts the connection if there is none (`check_eq_iff_judged`). Since the graph does not depend on the
order of the edges, the verdict does not either.
-/

namespace BadgeRules
open Relation

variable {P : Type}

/-- Something that can stand against a connection, and the refusal that it gives. -/
structure Fault where
  Holds : Prop
  refusal : Refusal

/-- The verdict on a list of faults is the refusal of the first one that holds. -/
inductive Judged : List Fault → Except Refusal Unit → Prop
  | accepted : Judged [] (.ok ())
  | refused {f : Fault} {fs : List Fault} (h : f.Holds) : Judged (f :: fs) (.error f.refusal)
  | passed {f : Fault} {fs : List Fault} {v : Except Refusal Unit} (h : ¬ f.Holds) (rest : Judged fs v) :
    Judged (f :: fs) v

namespace Judged

variable {fs gs : List Fault} {v v' : Except Refusal Unit}

theorem unique (h : Judged fs v) (h' : Judged fs v') : v = v' := by
  induction h with
  | accepted => cases h'; rfl
  | refused hf =>
    rcases h' with _ | _ | ⟨hf', -⟩
    · rfl
    · exact absurd hf hf'
  | passed hf _ ih =>
    rcases h' with _ | hf' | ⟨-, rest⟩
    · exact absurd hf' hf
    · exact ih rest

theorem total (fs : List Fault) : ∃ v, Judged fs v := by
  induction fs with
  | nil => exact ⟨_, .accepted⟩
  | cons f fs ih =>
    by_cases hf : f.Holds
    · exact ⟨_, .refused hf⟩
    · obtain ⟨v, hv⟩ := ih
      exact ⟨v, .passed hf hv⟩

/-- Faults that come after are looked at if none holds before. -/
theorem append (h : Judged fs v) (h' : Judged gs v') : Judged (fs ++ gs) (v >>= fun _ => v') := by
  induction h with
  | accepted => exact h'
  | refused hf => exact .refused hf
  | passed hf _ ih => exact .passed hf ih

end Judged

namespace Canvas

variable {c : Canvas P}

/-- The kind of the first node with this id. -/
def kind? (c : Canvas P) (id : String) : Option NodeKind := (c.node? id).bind Node.kind?

/-- Kinds that do not go together. -/
def kindFaults (c : Canvas P) (source target : String) : List Fault :=
  [⟨c.kind? source = some .badge, .fromBadge⟩,
    ⟨c.kind? source = some .condition ∧ c.kind? target = some .condition, .conditionToCondition⟩,
    ⟨c.kind? target = some .condition, .intoCondition⟩]

/-- What can stand against a connection at its two ends, in the order in which it is looked for. -/
def endFaults (c : Canvas P) (w : Connection) : List Fault :=
  let source := w.source.getD ""
  let target := w.target.getD ""
  ⟨∃ e ∈ [w.source, w.target], e = none ∨ e = some "", .missingEnd⟩ ::
  ⟨c.node? source = none, .notOnCanvas source⟩ ::
  ⟨c.node? target = none, .notOnCanvas target⟩ ::
  ⟨source = target, .selfConnection⟩ ::
  ⟨c.kind? source = none, .unknownKind source⟩ ::
  ⟨c.kind? target = none, .unknownKind target⟩ ::
  (c.kindFaults source target ++ [⟨c.Feeds source target, .duplicate source target⟩])

/-- What can stand against a connection: something at its ends, or else a way back along the edges. -/
def faults (c : Canvas P) (w : Connection) : List Fault :=
  c.endFaults w ++ [⟨ReflTransGen c.Feeds (w.target.getD "") (w.source.getD ""), .cycle⟩]

/-! ### Steps of the check -/

section Steps

variable {fs : List Fault} {id : String} {n : Node P}

theorem judged_refuse {p q : Prop} [Decidable p] (hpq : p ↔ q) {r : Refusal}
    {rest : Unit → Except Refusal Unit} (h : Judged fs (rest ())) :
    Judged (⟨q, r⟩ :: fs) (if p then (throw r : Except Refusal Unit) >>= rest else rest ()) := by
  by_cases hp : p
  · rw [if_pos hp]
    exact .refused (hpq.1 hp)
  · rw [if_neg hp]
    exact .passed (hpq.not.1 hp) h

theorem judged_ends {w : Connection} {rest : String × String → Except Refusal Unit}
    (h : ∀ s t, w.source = some s → w.target = some t → Judged fs (rest (s, t))) :
    Judged (⟨∃ e ∈ [w.source, w.target], e = none ∨ e = some "", .missingEnd⟩ :: fs) (w.ends >>= rest) := by
  rcases hs : w.source with _ | s
  · unfold Connection.ends
    rw [hs]
    exact .refused ⟨none, by simp⟩
  rcases ht : w.target with _ | t
  · unfold Connection.ends
    rw [hs, ht]
    exact .refused ⟨none, by simp⟩
  by_cases hempty : s = "" ∨ t = ""
  · have hends : w.ends = .error .missingEnd := by
      unfold Connection.ends
      rw [hs, ht]
      exact if_pos hempty
    rw [hends]
    exact .refused (by simpa [eq_comm] using hempty)
  · have hends : w.ends = .ok (s, t) := Connection.ends_eq_ok_iff.2 ⟨hs, ht, not_or.1 hempty⟩
    rw [hends]
    exact .passed (by simpa [eq_comm] using hempty) (h s t hs ht)

theorem judged_find {rest : Node P → Except Refusal Unit} (h : ∀ n, c.node? id = some n → Judged fs (rest n)) :
    Judged (⟨c.node? id = none, .notOnCanvas id⟩ :: fs) (c.index.find id >>= rest) := by
  unfold Index.find
  rw [index_node?]
  rcases hn : c.node? id with _ | n
  · exact .refused rfl
  · exact .passed (Option.some_ne_none n) (h n hn)

theorem kind?_of_node? (h : c.node? id = some n) : c.kind? id = n.kind? := by rw [kind?, h]; rfl

theorem judged_knownKind (hn : c.node? id = some n) {rest : NodeKind → Except Refusal Unit}
    (h : ∀ k, c.kind? id = some k → Judged fs (rest k)) :
    Judged (⟨c.kind? id = none, .unknownKind id⟩ :: fs) (n.knownKind >>= rest) := by
  rw [kind?_of_node? hn] at h ⊢
  have hid : n.id = id := by simpa using List.find?_some hn
  unfold Node.knownKind
  rcases hk : n.kind? with _ | k
  · rw [hid]
    exact .refused rfl
  · exact .passed nofun (h k hk)

theorem judged_checkFeed {s t : String} {k l : NodeKind} (hk : c.kind? s = some k) (hl : c.kind? t = some l)
    {rest : Unit → Except Refusal Unit} (h : Judged fs (rest ())) :
    Judged (c.kindFaults s t ++ fs) (k.checkFeed l >>= rest) := by
  unfold kindFaults
  rw [hk, hl]
  cases k with
  | badge => exact .refused rfl
  | condition =>
    refine .passed nofun ?_
    cases l with
    | condition => exact .refused ⟨rfl, rfl⟩
    | logic => exact .passed (by simp) (.passed nofun h)
    | badge => exact .passed (by simp) (.passed nofun h)
  | logic =>
    refine .passed nofun (.passed (by simp) ?_)
    cases l with
    | condition => exact .refused rfl
    | logic => exact .passed nofun h
    | badge => exact .passed nofun h

end Steps

/-- The check looks for the faults in their order. -/
theorem judged_check (c : Canvas P) (w : Connection) : Judged (c.faults w) (c.check w) := by
  unfold check faults endFaults
  refine judged_ends fun s t hs ht => ?_
  simp only [hs, ht, Option.getD_some]
  refine judged_find fun n hn => judged_find fun m hm => ?_
  refine judged_refuse Iff.rfl ?_
  refine judged_knownKind hn fun k hk => judged_knownKind hm fun l hl => ?_
  refine judged_checkFeed hk hl ?_
  refine judged_refuse hasEdge_index_iff ?_
  by_cases hback : c.leads c.index t s = true
  · rw [if_pos hback]
    exact .refused (leads_index_iff.1 hback)
  · rw [if_neg hback]
    exact .passed (leads_index_iff.not.1 hback) .accepted

section WayBack

variable {w : Connection} {s t : String} (hs : w.source = some s) (ht : w.target = some t)
  {v : Except Refusal Unit} (hv : Judged (c.endFaults w) v)
include hs ht hv

/-- A way back is a fault if there is none at the ends. -/
theorem check_of_path (h : ReflTransGen c.Feeds t s) : c.check w = v >>= fun _ => .error .cycle := by
  have hway : Judged [⟨ReflTransGen c.Feeds (w.target.getD "") (w.source.getD ""), .cycle⟩] (.error .cycle) :=
    .refused (by simpa [hs, ht] using h)
  exact (judged_check c w).unique (hv.append hway)

theorem check_of_no_path (h : ¬ ReflTransGen c.Feeds t s) : c.check w = v := by
  have hway : Judged [⟨ReflTransGen c.Feeds (w.target.getD "") (w.source.getD ""), .cycle⟩] (.ok ()) :=
    .passed (by simpa [hs, ht] using h) .accepted
  refine ((judged_check c w).unique (hv.append hway)).trans ?_
  cases v <;> rfl

end WayBack

/-! ### Kinds and order -/

/-- The kind faults are those of the pairs that may not feed each other. -/
theorem kindFault_iff {s t : String} {k l : NodeKind} (hk : c.kind? s = some k) (hl : c.kind? t = some l) :
    (∃ f ∈ c.kindFaults s t, f.Holds) ↔ k.canFeed l = false := by
  unfold kindFaults
  rw [hk, hl]
  cases k <;> cases l <;> simp [NodeKind.canFeed, NodeKind.targets]

theorem faults_perm {es : List Edge} (h : es.Perm c.edges) (w : Connection) :
    ({ c with edges := es } : Canvas P).faults w = c.faults w := by
  have hfeeds : ({ c with edges := es } : Canvas P).Feeds = c.Feeds := by
    funext a b
    exact propext ⟨Feeds.of_subset fun _ he => h.subset he, Feeds.of_subset fun _ he => h.symm.subset he⟩
  unfold faults endFaults
  rw [hfeeds]
  rfl

/-- The verdict of `check` is that of the first of the `faults` that holds (`Judged`). Of known kinds exactly those are
refused that `canFeed` does not allow, and the order of the edges says nothing. -/
theorem check_eq_iff_judged (c : Canvas P) (w : Connection) :
    (∀ v, c.check w = v ↔ Judged (c.faults w) v) ∧
      (∀ s t k l, c.kind? s = some k → c.kind? t = some l →
        ((∃ f ∈ c.kindFaults s t, f.Holds) ↔ k.canFeed l = false)) ∧
      ∀ es : List Edge, es.Perm c.edges → ({ c with edges := es } : Canvas P).check w = c.check w := by
  have hverdict := judged_check c w
  refine ⟨fun v => ⟨?_, hverdict.unique⟩, fun s t k l => kindFault_iff, fun es hes => ?_⟩
  · rintro rfl
    exact hverdict
  · have horder := judged_check ({ c with edges := es } : Canvas P) w
    rw [faults_perm hes] at horder
    exact horder.unique hverdict

/-- A cycle through an id that no node has, among edges that run in circles already. -/
theorem check_eq_iff_judged_ghost :
    ∃ (c : Canvas Unit) (w : Connection), c.edges.length = 4 ∧ c.node? "ghost" = none ∧
      c.check w = .error .cycle ∧ Judged (c.faults w) (.error .cycle) ∧
      ((∃ f ∈ c.kindFaults "all" "any", f.Holds) ↔ NodeKind.logic.canFeed .logic = false) ∧
      ({ c with edges := c.edges.reverse } : Canvas Unit).check w = .error .cycle := by
  let c : Canvas Unit :=
    { nodes := [⟨"all", (), .logic .and⟩, ⟨"any", (), .logic .or⟩]
      edges := [{ id := "e0", source := "any", target := "ghost" },
        { id := "e1", source := "ghost", target := "ghost" },
        { id := "e2", source := "ghost", target := "all" },
        { id := "e3", source := "any", target := "ghost" }] }
  let w : Connection := { source := some "all", target := some "any" }
  have hcheck : c.check w = .error .cycle := by
    unfold check
    rw [index_eq_scan]
    cbv
  obtain ⟨hjudged, hkinds, horder⟩ := check_eq_iff_judged c w
  exact ⟨c, w, rfl, rfl, hcheck, (hjudged _).1 hcheck, hkinds "all" "any" .logic .logic rfl rfl,
    (horder _ c.edges.reverse_perm).trans hcheck⟩

end Canvas

end BadgeRules
