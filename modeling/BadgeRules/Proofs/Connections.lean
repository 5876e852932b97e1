import Mathlib.Logic.Relation
import BadgeRules.Canvas.Edit
import BadgeRules.Proofs.Search

/-!
# What the check of a connection decides

`Canvas.Feeds` is the graph of a canvas, on ids. A wire may be drawn exactly when it fits
(`Canvas.check_eq_ok_iff`): both ends are known nodes whose kinds go together, the wire is not there
yet, and nothing leads back from its target to its source (`Canvas.Fits`).
-/

namespace BadgeRules
open Relation

/-! ### Guards in sequence -/

theorem bind_eq_ok_iff {ε α β : Type} {x : Except ε α} {f : α → Except ε β} {b : β} :
    x >>= f = .ok b ↔ ∃ a, x = .ok a ∧ f a = .ok b := by
  cases x with
  | error e => simp [bind, Except.bind]
  | ok a => simp [bind, Except.bind]

/-- A refusal under a condition lets the rest pass exactly when the condition fails. -/
theorem refuse_or_eq_ok_iff {ε β : Type} {p : Prop} [Decidable p] {e : ε} {f : Unit → Except ε β} {b : β} :
    (if p then (throw e : Except ε Unit) >>= f else f ()) = .ok b ↔ ¬ p ∧ f () = .ok b := by
  by_cases hp : p
  · simp [hp, throw, throwThe, MonadExceptOf.throw, bind, Except.bind]
  · simp [hp]

variable {P : Type} {c : Canvas P}

theorem Connection.ends_eq_ok_iff {w : Connection} {s t : String} :
    w.ends = .ok (s, t) ↔ w.source = some s ∧ w.target = some t ∧ s ≠ "" ∧ t ≠ "" := by
  unfold Connection.ends
  split
  · rename_i s' t' hs ht
    rw [hs, ht]
    split
    · rename_i h
      refine ⟨fun h => (nomatch h), ?_⟩
      rintro ⟨⟨⟩, ⟨⟩, hs, ht⟩
      exact absurd h (by simp [hs, ht])
    · rename_i h
      obtain ⟨hs, ht⟩ := not_or.1 h
      constructor
      · rintro ⟨⟩; exact ⟨rfl, rfl, hs, ht⟩
      · rintro ⟨⟨⟩, ⟨⟩, -⟩; rfl
  · rename_i h
    refine ⟨fun h => (nomatch h), ?_⟩
    rintro ⟨hs, ht, -⟩
    exact (h s t hs ht).elim

theorem Index.find_eq_ok_iff {ix : Index P} {id : String} {n : Node P} :
    ix.find id = .ok n ↔ ix.node? id = some n := by
  unfold Index.find; split <;> simp [*]

theorem Node.knownKind_eq_ok_iff {n : Node P} {k : NodeKind} : n.knownKind = .ok k ↔ n.kind? = some k := by
  unfold Node.knownKind; split <;> simp [*]

namespace Canvas

/-! ### The graph -/

/-- An edge leads from `a` to `b`. -/
def Feeds (c : Canvas P) (a b : String) : Prop := ∃ e ∈ c.edges, e.source = a ∧ e.target = b

/-- No way along edges leads back to where it started. -/
def Acyclic (c : Canvas P) : Prop := ∀ id, ¬ TransGen c.Feeds id id

theorem mem_incoming {id : String} {e : Edge} : e ∈ c.incoming id ↔ e ∈ c.edges ∧ e.target = id := by
  simp [incoming]

theorem mem_outgoing {id : String} {e : Edge} : e ∈ c.outgoing id ↔ e ∈ c.edges ∧ e.source = id := by
  simp [outgoing]

theorem mem_next_iff {a b : String} : b ∈ (c.outgoing a).map (·.target) ↔ c.Feeds a b := by
  simp only [List.mem_map, mem_outgoing, Feeds, and_assoc]

theorem kindOf?_index (id : String) : c.index.kindOf? id = (c.node? id).bind Node.kind? := by
  rw [index_eq_scan]; rfl

theorem hasEdge_index_iff {s t : String} : c.index.hasEdge s t = true ↔ c.Feeds s t := by
  rw [index_eq_scan]
  simp only [Index.hasEdge, scan, List.any_eq_true, mem_outgoing, beq_iff_eq, Feeds, and_assoc]

theorem leads_index_iff {s t : String} : c.leads c.index s t = true ↔ ReflTransGen c.Feeds s t := by
  have hnext : (fun x y => y ∈ (c.outgoing x).map (·.target)) = c.Feeds := by
    funext a b; exact propext mem_next_iff
  rw [leads, index_eq_scan, reaches_singleton_iff, ← hnext]
  · rfl
  · intro x hx
    obtain ⟨e, he⟩ := List.exists_mem_of_ne_nil _ (fun h => hx (List.map_eq_nil_iff.2 h))
    obtain ⟨he, hs⟩ := mem_outgoing.1 he
    exact List.mem_map.2 ⟨e, he, hs⟩

/-! ### The check -/

/-- Both ids look up to nodes of known kind, and the first kind may feed the second. -/
def Matches (c : Canvas P) (source target : String) : Prop :=
  ∃ k l, c.index.kindOf? source = some k ∧ c.index.kindOf? target = some l ∧ k.canFeed l = true

/-- An edge from `source` to `target` keeps the canvas in order. -/
structure Fits (c : Canvas P) (source target : String) : Prop where
  source_ne : source ≠ ""
  target_ne : target ≠ ""
  kinds : c.Matches source target
  unjoined : ¬ c.Feeds source target
  noReturn : ¬ ReflTransGen c.Feeds target source

/-- Nothing returns from the target of an edge that fits, so its ends differ. -/
theorem Fits.ne {s t : String} (h : c.Fits s t) : s ≠ t := by
  rintro rfl; exact h.noReturn .refl

theorem check_eq_ok_iff {w : Connection} :
    c.check w = .ok () ↔ ∃ s t, w.source = some s ∧ w.target = some t ∧ c.Fits s t := by
  simp only [check, bind_eq_ok_iff, refuse_or_eq_ok_iff, Prod.exists, Connection.ends_eq_ok_iff,
    Index.find_eq_ok_iff, Node.knownKind_eq_ok_iff]
  constructor
  · rintro ⟨s, t, ⟨hs, ht, hs0, ht0⟩, n, hn, m, hm, -, k, hk, l, hl, ⟨⟩, hfeed, hdup, hcyc⟩
    refine ⟨s, t, hs, ht, hs0, ht0, ⟨k, l, ?_, ?_, ?_⟩, ?_, ?_⟩
    · rw [Index.kindOf?, hn]; exact hk
    · rw [Index.kindOf?, hm]; exact hl
    · exact (NodeKind.checkFeed_eq_ok_iff k l).1 hfeed
    · rwa [hasEdge_index_iff] at hdup
    · intro hp
      rw [if_pos (leads_index_iff.2 hp)] at hcyc
      cases hcyc
  · rintro ⟨s, t, hs, ht, h⟩
    obtain ⟨k, l, hk, hl, hfeed⟩ := h.kinds
    obtain ⟨n, hn, hk⟩ := Option.bind_eq_some_iff.1 hk
    obtain ⟨m, hm, hl⟩ := Option.bind_eq_some_iff.1 hl
    refine ⟨s, t, ⟨hs, ht, h.source_ne, h.target_ne⟩, n, hn, m, hm, h.ne, k, hk, l, hl, (),
      (NodeKind.checkFeed_eq_ok_iff k l).2 hfeed, ?_, ?_⟩
    · rw [hasEdge_index_iff]; exact h.unjoined
    · rw [if_neg (fun hl => h.noReturn (leads_index_iff.1 hl))]; rfl

theorem accepts_iff {w : Connection} :
    c.accepts w = true ↔ ∃ s t, w.source = some s ∧ w.target = some t ∧ c.Fits s t := by
  have hok : c.accepts w = true ↔ c.check w = .ok () := by
    unfold accepts; split <;> simp [*]
  rw [hok, check_eq_ok_iff]

theorem accepts_connection_iff {e : Edge} : c.accepts e.connection = true ↔ c.Fits e.source e.target := by
  rw [accepts_iff]
  constructor
  · rintro ⟨s, t, ⟨⟩, ⟨⟩, h⟩; exact h
  · intro h; exact ⟨_, _, rfl, rfl, h⟩

theorem connect_eq_ok_iff {c' : Canvas P} {e : Edge} :
    c.connect e = .ok c' ↔ c.Fits e.source e.target ∧ c' = c.addEdge e := by
  rw [← accepts_connection_iff, connect, accepts]
  cases hc : c.check e.connection with
  | error r => simp [bind, Except.bind]
  | ok u => simp [bind, Except.bind, pure, Except.pure, eq_comm]

end Canvas

end BadgeRules
