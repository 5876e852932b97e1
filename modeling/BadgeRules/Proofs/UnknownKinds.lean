import BadgeRules.Proofs.Recompiling
import BadgeRules.Proofs.Verdicts

/-!
# Nodes of unknown kind

`Canvas.known` is a canvas without its nodes of unknown kind and without the edges that touch them.
Compiling cannot tell the two apart: an edge from such a node is passed over, and an edge to one is not come
to (`branches_known`). The check of connections can. Its search for a way back goes through nodes of any
kind, so a connection may be refused for a cycle that no conversion ever sees (`check_known`).
-/

namespace BadgeRules
open Relation

variable {P : Type}

/-! ### Branches that come to the same -/

/-- The branches give the same trees and the same reports. -/
structure Branch.Alike (bs bs' : List (Branch P)) : Prop where
  formulas : bs.filterMap formula? = bs'.filterMap formula?
  events : bs.flatMap events = bs'.flatMap events

namespace Branch.Alike

variable {as bs bs' : List (Branch P)} {b b' : Branch P}

theorem refl (bs : List (Branch P)) : Alike bs bs := ⟨rfl, rfl⟩

theorem cons (hb : Alike [b] [b']) (hbs : Alike bs bs') : Alike (b :: bs) (b' :: bs') := by
  obtain ⟨hf, he⟩ := hb
  refine ⟨?_, ?_⟩
  · rw [← List.singleton_append, List.filterMap_append, hf, hbs.formulas, ← List.filterMap_append]
    rfl
  · rw [← List.singleton_append, List.flatMap_append, he, hbs.events, ← List.flatMap_append]
    rfl

theorem ignored (e : Edge) (hbs : Alike bs bs') : Alike (.ignored e :: bs) bs' := ⟨hbs.formulas, hbs.events⟩

theorem gate (n : Node P) (op : Connective) (hbs : Alike bs bs') : Alike [.gate n op bs] [.gate n op bs'] := by
  refine ⟨?_, ?_⟩
  · simp only [List.filterMap_cons, formula?, formulas_eq_filterMap, hbs.formulas]
  · simp only [List.flatMap_cons, Branch.events, eventsOf_eq_flatMap, hbs.events]

end Branch.Alike

namespace Canvas

variable {c : Canvas P} {id : String}

/-- Whether a node of unknown kind has this id. -/
def isUnknown (c : Canvas P) (id : String) : Bool := c.nodes.any fun n => n.id == id && n.kind?.isNone

/-- The canvas without the nodes of unknown kind and the edges that touch them. -/
def known (c : Canvas P) : Canvas P where
  nodes := c.nodes.filter (·.kind?.isSome)
  edges := c.edges.filter fun e => !c.isUnknown e.target && !c.isUnknown e.source

/-- A way leads along the edges through a node of unknown kind. -/
def PassesUnknown (c : Canvas P) (a b : String) : Prop :=
  ∃ n ∈ c.nodes, n.kind? = none ∧ ReflTransGen c.Feeds a n.id ∧ ReflTransGen c.Feeds n.id b

theorem isUnknown_iff : c.isUnknown id = true ↔ ∃ n ∈ c.nodes, n.id = id ∧ n.kind? = none := by
  simp [isUnknown]

theorem isUnknown_iff_node? (hids : c.ids.Nodup) :
    c.isUnknown id = true ↔ ∃ n, c.node? id = some n ∧ n.kind? = none := by
  rw [isUnknown_iff]
  constructor
  · rintro ⟨n, hn, rfl, hk⟩
    exact ⟨n, node?_of_mem hids hn, hk⟩
  · rintro ⟨n, hn, hk⟩
    exact ⟨n, mem_of_node? hn, id_of_node? hn, hk⟩

theorem isUnknown_eq_false (hids : c.ids.Nodup) (h : id ∈ c.known.ids) : c.isUnknown id = false := by
  obtain ⟨n, hn, rfl⟩ := List.mem_map.1 h
  obtain ⟨hn, hk⟩ := List.mem_filter.1 hn
  rw [← Bool.not_eq_true, isUnknown_iff_node? hids]
  rintro ⟨m, hm, hnone⟩
  rw [node?_of_mem hids hn] at hm
  cases hm
  rw [hnone] at hk
  cases hk

section Kept

variable (h : c.isUnknown id = false)
include h

/-- An id of no unknown node looks up as before. -/
theorem node?_known : c.known.node? id = c.node? id := by
  unfold node? known
  rw [← List.head?_filter, ← List.head?_filter, List.filter_filter]
  refine congrArg List.head? (List.filter_congr fun n hn => ?_)
  by_cases hid : n.id = id
  · have hk : n.kind? ≠ none := fun hk => by
      rw [isUnknown_iff.2 ⟨n, hn, hid, hk⟩] at h
      cases h
    simp [hid, Option.isSome_iff_ne_none.2 hk]
  · simp [hid]

theorem incoming_known : c.known.incoming id = (c.incoming id).filter fun e => !c.isUnknown e.source := by
  unfold incoming known
  rw [List.filter_filter, List.filter_filter]
  refine List.filter_congr fun e _ => ?_
  cases hid : e.target == id with
  | true => simp [eq_of_beq hid, h]
  | false => simp

end Kept

/-! ### Compiling -/

/-- The branches that arrive at an id of no unknown node come to the same, as long as no unknown node is on
the branch. -/
theorem branches_known (hids : c.ids.Nodup) (hid : c.isUnknown id = false) {fresh fresh' : List String}
    (hfresh : ∀ x, c.isUnknown x = false → (x ∈ fresh' ↔ x ∈ fresh))
    (hunknown : ∀ x, c.isUnknown x = true → x ∈ fresh) :
    Branch.Alike ((c.incoming id).map (c.index.branch fresh))
      ((c.known.incoming id).map (c.known.index.branch fresh')) := by
  induction hk : fresh.length using Nat.strongRecOn generalizing id fresh fresh' with
  | ind k ihk =>
    subst hk
    rw [incoming_known hid]
    generalize c.incoming id = es
    induction es with
    | nil => exact .refl []
    | cons e es ih =>
      rcases hs : c.isUnknown e.source with _ | _
      · rw [List.filter_cons_of_pos (by simp [hs]), List.map_cons, List.map_cons]
        refine .cons ?_ ih
        rcases hn : c.node? e.source with _ | n
        · rw [branch_missing hn, branch_missing ((node?_known hs).trans hn)]
          exact .refl _
        by_cases hf : e.source ∈ fresh
        · rw [branch_fresh hn hf, branch_fresh ((node?_known hs).trans hn) ((hfresh _ hs).2 hf)]
          rcases n.payload with t | op | a | _
          · exact .refl _
          · refine .gate n op (ihk _ (length_without_lt hf) hs (fun x hx => ?_) (fun x hx => ?_) rfl)
            · rw [mem_without, mem_without, hfresh x hx]
            · refine mem_without.2 ⟨hunknown x hx, ?_⟩
              rintro rfl
              rw [hs] at hx
              cases hx
          · exact .refl _
          · exact .refl _
        · rw [branch_cycle hn hf, branch_cycle ((node?_known hs).trans hn) ((hfresh _ hs).not.2 hf)]
          exact .refl _
      · -- an edge from an unknown node is passed over
        rw [List.filter_cons_of_neg (by simp [hs]), List.map_cons]
        obtain ⟨n, hn, hkind⟩ := (isUnknown_iff_node? hids).1 hs
        have hpayload : n.payload = .unknown := by
          unfold Node.kind? at hkind
          cases hp : n.payload <;> rw [hp] at hkind <;> trivial
        rw [branch_fresh hn (hunknown _ hs), hpayload]
        exact .ignored e ih

theorem mem_ids_known_iff (h : c.isUnknown id = false) : id ∈ c.known.ids ↔ id ∈ c.ids := by
  unfold ids known
  simp only [List.mem_map, List.mem_filter]
  refine exists_congr fun n => and_congr_left fun hid => and_iff_left_of_imp fun hn => ?_
  rw [Option.isSome_iff_ne_none]
  intro hk
  rw [isUnknown_iff.2 ⟨n, hn, hid, hk⟩] at h
  cases h

/-- The trees and the reports of a badge. -/
def outcome (b : Node P × Award × List (Branch P)) : Award × List Formula × List Event :=
  (b.2.1, b.2.2.filterMap Branch.formula?, b.2.2.flatMap Branch.events)

section Outcome

variable (c : Canvas P) (id name : String) (description : Option String)

theorem slots_outcome : (c.compile id name description).rule.slots =
    ((c.badges c.index).map outcome).map fun o => .ofRoots o.2.1 := by
  rw [List.map_map]
  rfl

theorem awards_outcome : (c.compile id name description).rule.awards =
    ((c.badges c.index).map outcome).map fun o => o.1 := by
  rw [List.map_map]
  rfl

theorem dropped_outcome : (c.compile id name description).dropped =
    ((c.badges c.index).map outcome).flatMap fun o => o.2.2 := by
  rw [List.flatMap_map]
  rfl

end Outcome

theorem outcome_badges_known (hids : c.ids.Nodup) :
    (c.known.badges c.known.index).map outcome = (c.badges c.index).map outcome := by
  rw [badges_eq_award?, badges_eq_award?, List.map_filterMap, List.map_filterMap]
  unfold known
  rw [List.filterMap_filter]
  refine List.filterMap_congr fun n hn => ?_
  rcases hp : n.payload.award? with _ | a
  · simp
  · have hkind : n.kind?.isSome = true := by
      unfold Node.kind?
      cases hpay : n.payload <;> rw [hpay] at hp <;> trivial
    have hknown : c.isUnknown n.id = false :=
      isUnknown_eq_false hids (List.mem_map_of_mem (List.mem_filter.2 ⟨hn, hkind⟩))
    have halike : Branch.Alike (c.branches c.index n.id) (c.known.branches c.known.index n.id) := by
      unfold branches
      rw [index_incoming, index_incoming]
      refine branches_known hids hknown (fun x hx => ?_) fun x hx => ?_
      · rw [mem_without, mem_without, mem_ids_known_iff hx]
      · obtain ⟨m, hm, -⟩ := (isUnknown_iff_node? hids).1 hx
        refine mem_without.2 ⟨mem_ids_of_node? hm, ?_⟩
        rintro rfl
        rw [hknown] at hx
        cases hx
    rw [if_pos hkind]
    simp only [Option.map_some, outcome]
    rw [halike.formulas, halike.events]
    rfl

/-- Compiling comes to the same without the nodes of unknown kind. -/
theorem compile_known (hids : c.ids.Nodup) (id name : String) (description : Option String) :
    (c.known.compile id name description).rule.slots = (c.compile id name description).rule.slots ∧
      (c.known.compile id name description).rule.awards = (c.compile id name description).rule.awards ∧
      (c.known.compile id name description).dropped = (c.compile id name description).dropped := by
  simp only [slots_outcome, awards_outcome, dropped_outcome, outcome_badges_known hids, and_self]

/-! ### Checking -/

theorem feeds_known_iff {a b : String} (ha : c.isUnknown a = false) (hb : c.isUnknown b = false) :
    c.known.Feeds a b ↔ c.Feeds a b := by
  refine exists_congr fun e => ?_
  simp only [known, List.mem_filter]
  constructor
  · rintro ⟨⟨he, -⟩, hs, ht⟩
    exact ⟨he, hs, ht⟩
  · rintro ⟨he, rfl, rfl⟩
    exact ⟨⟨he, by simp [ha, hb]⟩, rfl, rfl⟩

/-- A way leads through known nodes alone, or through an unknown one. -/
theorem path_known_or_passes {a b : String} (ha : c.isUnknown a = false) (h : ReflTransGen c.Feeds a b) :
    ReflTransGen c.known.Feeds a b ∨ c.PassesUnknown a b := by
  induction h using ReflTransGen.head_induction_on with
  | refl => exact .inl .refl
  | @head a x hax hxb ih =>
    rcases hx : c.isUnknown x with _ | _
    · rcases ih hx with hp | ⟨n, hn, hk, hxn, hnb⟩
      · exact .inl (.head ((feeds_known_iff ha hx).2 hax) hp)
      · exact .inr ⟨n, hn, hk, .head hax hxn, hnb⟩
    · obtain ⟨n, hn, rfl, hk⟩ := isUnknown_iff.1 hx
      exact .inr ⟨n, hn, hk, .single hax, hxb⟩

section Ends

variable {w : Connection} {s t : String} (hs : w.source = some s) (ht : w.target = some t)
  (hsource : c.isUnknown s = false) (htarget : c.isUnknown t = false)
include hs ht hsource htarget

theorem endFaults_known : c.known.endFaults w = c.endFaults w := by
  unfold endFaults kindFaults kind?
  simp only [hs, ht, Option.getD_some, node?_known hsource, node?_known htarget,
    feeds_known_iff hsource htarget]

/-- The two canvases give the same verdict up to the cycles through nodes of unknown kind. -/
theorem check_known :
    (¬ c.PassesUnknown t s → c.check w = c.known.check w) ∧
      (c.PassesUnknown t s → c.check w = c.known.check w >>= fun _ => .error .cycle) := by
  obtain ⟨v, hv⟩ := Judged.total (c.endFaults w)
  have hvk : Judged (c.known.endFaults w) v := by rwa [endFaults_known hs ht hsource htarget]
  have hmono : ReflTransGen c.known.Feeds t s → ReflTransGen c.Feeds t s :=
    ReflTransGen.mono (fun _ _ => Feeds.of_subset fun _ he => List.mem_of_mem_filter he) _ _
  constructor
  · intro hnot
    by_cases hp : ReflTransGen c.Feeds t s
    · have hpk := (path_known_or_passes htarget hp).resolve_right hnot
      rw [check_of_path hs ht hv hp, check_of_path hs ht hvk hpk]
    · rw [check_of_no_path hs ht hv hp, check_of_no_path hs ht hvk (mt hmono hp)]
  · rintro ⟨n, -, -, htn, hns⟩
    rw [check_of_path hs ht hv (htn.trans hns)]
    by_cases hpk : ReflTransGen c.known.Feeds t s
    · rw [check_of_path hs ht hvk hpk]
      cases v <;> rfl
    · rw [check_of_no_path hs ht hvk hpk]

end Ends

/-- `compile` gives the same rule and events for `Canvas.known`, the canvas without its nodes of unknown kind. `check`
gives the same verdict unless a way back `PassesUnknown`: then it refuses what is in order otherwise as a cycle. -/
theorem unknown_kinds_close_cycles (c : Canvas P) (hids : c.ids.Nodup) (id name : String)
    (description : Option String) :
    (c.known.compile id name description).rule.slots = (c.compile id name description).rule.slots ∧
      (c.known.compile id name description).rule.awards = (c.compile id name description).rule.awards ∧
      (c.known.compile id name description).events = (c.compile id name description).events ∧
      ∀ (w : Connection) (s t : String), w.source = some s → w.target = some t →
        s ∈ c.known.ids → t ∈ c.known.ids →
        (¬ c.PassesUnknown t s → c.check w = c.known.check w) ∧
          (c.PassesUnknown t s → c.check w = c.known.check w >>= fun _ => .error .cycle) := by
  obtain ⟨hslots, hawards, hdropped⟩ := compile_known hids id name description
  refine ⟨hslots, hawards, ?events, fun w s t hs ht hsource htarget => ?check⟩
  case events =>
    -- compared with each other, the two compilations would be run
    have hid (c : Canvas P) : (c.compile id name description).rule.id = id := rfl
    unfold Compiled.events
    rw [hslots, hawards, hdropped, hid, hid]
  case check =>
    exact check_known hs ht (isUnknown_eq_false hids hsource) (isUnknown_eq_false hids htarget)

/-- Two gates around a note: without the note they may be joined, with it they may not. -/
theorem unknown_kinds_close_cycles_note :
    ∃ (c : Canvas Unit) (w : Connection), c.ids.Nodup ∧ w.source = some "all" ∧ w.target = some "any" ∧
      "all" ∈ c.known.ids ∧ "any" ∈ c.known.ids ∧ c.PassesUnknown "any" "all" ∧
      c.known.check w = .ok () ∧ c.check w = .error .cycle ∧
      (c.known.compile "r" "R").events = (c.compile "r" "R").events := by
  let c : Canvas Unit :=
    { nodes := [⟨"all", (), .logic .and⟩, ⟨"note", (), .unknown⟩, ⟨"any", (), .logic .or⟩]
      edges := [{ id := "e0", source := "any", target := "note" },
        { id := "e1", source := "note", target := "all" }] }
  let w : Connection := { source := some "all", target := some "any" }
  have hids : c.ids.Nodup := by decide
  have hsource : "all" ∈ c.known.ids := by decide
  have htarget : "any" ∈ c.known.ids := by decide
  have hpasses : c.PassesUnknown "any" "all" :=
    ⟨⟨"note", (), .unknown⟩, by simp [c], rfl, .single ⟨_, List.mem_cons_self, rfl, rfl⟩,
      .single ⟨_, List.mem_cons_of_mem _ List.mem_cons_self, rfl, rfl⟩⟩
  -- nothing is left to lead back
  have hnone (a b : String) : ¬ c.known.Feeds a b := by
    have hedges : c.known.edges = [] := rfl
    rintro ⟨e, he, -⟩
    exact List.not_mem_nil (hedges ▸ he)
  have hkinds : c.known.Matches "all" "any" := by
    unfold Matches
    rw [index_eq_scan]
    exact ⟨.logic, .logic, rfl, rfl, rfl⟩
  have hreturn : ¬ ReflTransGen c.known.Feeds "any" "all" := by
    intro h
    rcases h.cases_head with heq | ⟨b, hb, -⟩
    · exact absurd heq (by decide)
    · exact hnone _ _ hb
  have hknown : c.known.check w = .ok () :=
    check_eq_ok_iff.2 ⟨"all", "any", rfl, rfl, ⟨by decide, by decide, hkinds, hnone _ _, hreturn⟩⟩
  obtain ⟨-, -, hevents, hcheck⟩ := unknown_kinds_close_cycles c hids "r" "R" none
  have hcycle := (hcheck w "all" "any" rfl rfl hsource htarget).2 hpasses
  rw [hknown] at hcycle
  exact ⟨c, w, hids, rfl, rfl, hsource, htarget, hpasses, hknown, hcycle, hevents⟩

end Canvas

end BadgeRules
