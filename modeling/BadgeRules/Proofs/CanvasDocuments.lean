import BadgeRules.Proofs.Loading

/-!
# Canvases are read back

A payload is read by its tag, and what no kind claims is unknown (`Payload.reads`). Nodes are read back if
they are placed at numbers (`Node.reads`), edges always (`Edge.reads`), and a canvas has five levels at most,
so nothing else stands in the way of a canvas that was saved (`Canvas.load_save`).
-/

namespace BadgeRules
open Decoder

/-! ### What is read for a canvas -/

def Payload.normal : Payload → Payload
  | .condition t => .condition t.normal
  | p => p

def Node.normal (n : Node Position) : Node Position := { n with payload := n.payload.normal }

/-- Whether the node is placed at numbers. -/
def Node.IsPlaced (n : Node Position) : Prop := n.position.x.isFinite = true ∧ n.position.y.isFinite = true

instance (n : Node Position) : Decidable n.IsPlaced := inferInstanceAs (Decidable (_ ∧ _))

namespace Canvas

/-- What a document does not have is missing in operands. All else is kept. -/
def normal (c : Canvas Position) : Canvas Position := { c with nodes := c.nodes.map Node.normal }

def IsPlaced (c : Canvas Position) : Prop := ∀ n ∈ c.nodes, n.IsPlaced

instance (c : Canvas Position) : Decidable c.IsPlaced := inferInstanceAs (Decidable (∀ n ∈ c.nodes, _))

end Canvas

/-! ### Payloads -/

theorem Award.reads_members (a : Award) : decode.Reads (.record a.members) (some a) := by
  obtain ⟨badge, name, quantity⟩ := a
  refine record_reads (by cases name <;> simp [members, Json.optional]) fun room v => ?_
  have hword := word_reads quantity room
  have hbadge := string_reads badge room
  cases name <;>
    simp [members, Json.optional, List.lookup_cons, required, hword, hbadge, Option.bind_eq_some_iff]

theorem Json.isReadable_word (n : UInt32) : (Json.int n.toNat).isReadable = true := by
  have hint : Numeral.ofInt n.toNat = ⟨false, n.toNat, [], none⟩ := by simp [Numeral.ofInt]
  have hn : n.toNat < Numeral.wordLimit := n.toNat_lt.trans (by decide)
  rw [Json.int, Json.isReadable, Atom.isReadable, hint, Numeral.toFloat?_whole false hn]
  rfl

theorem Award.isReadable_members (a : Award) : (Json.record a.members).isReadable = true := by
  rw [Json.isReadable_record]
  cases hname : a.name <;> simp [members, Json.optional, hname, Json.isReadable_word]

namespace Payload

/-- A payload is read by its tag from the members beside it. -/
theorem reads_tagged {kind : String} {ms : List (String × Json)} {p : Payload} (htag : "kind" ∉ ms.map Prod.fst)
    (hms : (Json.record ms).isReadable = true)
    (h : ∀ room, (Json.record ms).depth ≤ room → decodeAs kind room (.record ms) = some p) :
    decode.Reads (.record (("kind", .text kind) :: ms)) (some p) := by
  intro room v
  have hdepth : (Json.record (("kind", .text kind) :: ms)).depth = (Json.record ms).depth := by
    simp [Json.record, Json.depth, Json.depth.ofMembers]
  have hreadable : (Json.record (("kind", .text kind) :: ms)).isReadable = true := by
    rw [Json.isReadable_record] at hms ⊢
    exact hms
  rw [decode, checked, hdepth, hreadable]
  by_cases hroom : (Json.record ms).depth ≤ room
  · rw [if_pos ⟨hroom, rfl⟩, Json.tagged?_record htag]
    simp only [Json.text, h room hroom, hroom, true_and]
  · rw [if_neg fun h => hroom h.1]
    simp [hroom]

theorem reads {p : Payload} (h : ∀ x ∈ p.doubles, Double.Rereads x) : decode.Reads p.toJson (some p.normal) := by
  rcases p with t | op | a | _
  · refine reads_tagged (by simp [Comparison.members]) (Comparison.isReadable_record h) fun room hroom => ?_
    show (Comparison.decode room (.record t.members)).map condition = _
    rw [(Comparison.reads h).eq_ite, if_pos hroom]
    rfl
  · refine reads_tagged (by simp) (by simp [Json.isReadable_record, Connective.toJson]) fun room hroom => ?_
    have hread : (decodeAs "logic").Reads (.record [("logicType", op.toJson)]) (some (.logic op)) := by
      refine record_reads (by simp) fun room v => ?_
      simp [List.lookup_cons, required, Connective.toJson, choice_text, op.lookup_word]
    exact (hread.eq_ite room).trans (if_pos hroom)
  · have hkeys : "kind" ∉ a.members.map Prod.fst := by
      cases hname : a.name <;> simp [Award.members, Json.optional, hname]
    refine reads_tagged hkeys a.isReadable_members fun room hroom => ?_
    show (Award.decode room (.record a.members)).map badge = _
    rw [a.reads_members.eq_ite, if_pos hroom]
    rfl
  · exact reads_tagged (by simp) rfl fun room _ => rfl

end Payload

/-! ### Nodes and edges -/

theorem Node.reads {n : Node Position} (h : ∀ x ∈ n.doubles, Double.Rereads x) :
    decode.Reads n.toJson (if n.IsPlaced then some n.normal else none) := by
  obtain ⟨hx, hy, hp⟩ : Double.Rereads n.position.x ∧ Double.Rereads n.position.y ∧
      ∀ x ∈ n.payload.doubles, Double.Rereads x := by simpa [doubles] using h
  refine record_reads (by simp) fun room v => ?_
  have hid := string_reads n.id room
  have hpayload := Payload.reads hp room
  have hposition : Point.decode.Reads n.position.toJson (if n.IsPlaced then some n.position else none) :=
    Point.reads hx hy
  have hposition := hposition room
  by_cases hf : n.IsPlaced
  · simp [List.lookup_cons, required, withDefault, hid, hposition, hpayload, Option.bind_eq_some_iff, hf, normal,
      and_assoc]
  · simp [List.lookup_cons, required, withDefault, hid, hposition, Option.bind_eq_some_iff, hf]

theorem Payload.depth_toJson_le (p : Payload) : p.toJson.depth ≤ 2 := by
  rcases p with t | op | a | _
  · have hoperand := t.operand.depth_toJson_le
    rw [toJson, Json.depth_record_le_iff]
    simpa [Comparison.members, Operator.toJson] using hoperand
  · rw [toJson, Json.depth_record_le_iff]
    simp [Connective.toJson]
  · rw [toJson, Json.depth_record_le_iff]
    cases hname : a.name <;> simp [Award.members, Json.optional, hname]
  · exact Nat.le_succ 1

theorem Node.depth_toJson_le (n : Node Position) : n.toJson.depth ≤ 3 := by
  have hpayload := n.payload.depth_toJson_le
  have hposition := n.position.depth_toJson_le
  rw [toJson, Json.depth_record_le_iff]
  simp [hpayload, hposition.trans (Nat.le_succ 1)]

theorem Edge.depth_toJson_le (e : Edge) : e.toJson.depth ≤ 1 := by
  rw [toJson, Json.depth_record_le_iff]
  cases hs : e.sourceHandle <;> cases ht : e.targetHandle <;> simp [Json.optional]

theorem Edge.reads (e : Edge) : decode.Reads e.toJson (some e) := by
  obtain ⟨id, source, target, sourceHandle, targetHandle⟩ := e
  refine record_reads (by cases sourceHandle <;> cases targetHandle <;> simp [Json.optional]) fun room v => ?_
  have hid := string_reads id room
  have hsource := string_reads source room
  have htarget := string_reads target room
  cases sourceHandle <;> cases targetHandle <;>
    simp [Json.optional, List.lookup_cons, required, hid, hsource, htarget, Option.bind_eq_some_iff]

/-! ### Canvases -/

namespace Canvas

variable {c : Canvas Position}

theorem reads (h : ∀ x ∈ c.doubles, Double.Rereads x) :
    decode.Reads c.toJson (if c.IsPlaced then some c.normal else none) := by
  have hnodes : (listOf Node.decode).Reads (.array (c.nodes.map Node.toJson))
      (if c.IsPlaced then some (c.nodes.map Node.normal) else none) := by
    have hread := listOf_reads fun (n : Node Position) (hn : n ∈ c.nodes) =>
      Node.reads fun x hx => h x (List.mem_flatMap.2 ⟨n, hn, hx⟩)
    rwa [mapM_guard] at hread
  have hedges := listOf_reads fun (e : Edge) (_ : e ∈ c.edges) => e.reads
  rw [mapM_some, List.map_id'] at hedges
  refine record_reads (by simp) fun room v => ?_
  have hnodes := hnodes room
  have hedges := hedges room
  by_cases hf : c.IsPlaced
  · simp [List.lookup_cons, withDefault, hnodes, hedges, Option.bind_eq_some_iff, normal, and_assoc, hf]
  · simp [List.lookup_cons, withDefault, hnodes, Option.bind_eq_some_iff, hf]

/-- However large a canvas is, its document has five levels at most. -/
theorem depth_toJson_le (c : Canvas Position) : c.toJson.depth ≤ 5 := by
  have hnodes : (Json.array (c.nodes.map Node.toJson)).depth ≤ 4 := by
    rw [Json.depth_array_le_iff, List.forall_mem_map]
    exact fun n _ => n.depth_toJson_le
  have hedges : (Json.array (c.edges.map Edge.toJson)).depth ≤ 4 := by
    rw [Json.depth_array_le_iff, List.forall_mem_map]
    exact fun e _ => e.depth_toJson_le.trans (by decide)
  rw [toJson, Json.depth_record_le_iff]
  simp [hnodes, hedges]

theorem parse?_compact (c : Canvas Position) : parse? c.toJson.compact = decode maxDepth c.toJson := by
  rw [parse?, Json.parse?_compact]; rfl

theorem parse?_pretty (c : Canvas Position) : parse? c.toJson.pretty = decode maxDepth c.toJson := by
  rw [parse?, Json.parse?_pretty]; rfl

/-- A canvas that was written by `toJson` or `saveCanvas` is read as `Canvas.normal` if it is `IsPlaced`, and rejected
otherwise. -/
theorem load_save (c : Canvas Position) (h : ∀ x ∈ c.doubles, Double.Rereads x) :
    let read := if c.IsPlaced then some c.normal else none
    parse? c.toJson.pretty = read ∧ parse? c.toJson.compact = read ∧
      ∀ (f f' : Folder) (path : String), (Folder.storage.saveCanvas path c).run f = (.ok (), f') →
        (Folder.storage.loadCanvas path).run f' = (read.elim (.error .malformed) .ok, f') := by
  intro read
  have hread : decode maxDepth c.toJson = read :=
    ((reads h).eq_ite maxDepth).trans (if_pos (c.depth_toJson_le.trans (by decide)))
  have hpretty : parse? c.toJson.pretty = read := c.parse?_pretty.trans hread
  refine ⟨hpretty, c.parse?_compact.trans hread, fun f f' path hsave => ?_⟩
  rw [← hpretty]
  exact Folder.run_load_saved parse? hsave

/-- A canvas with a bit of everything. -/
def sample (items : List Scalar) (limit : Scalar) : Canvas Position where
  nodes := [⟨"tier", ⟨-0.0, 2.5⟩, .condition ⟨"tier", .oneOf, .list items⟩⟩,
    ⟨"amount", ⟨1e300, -1⟩, .condition ⟨"amount", .atLeast, .single limit⟩⟩, ⟨"any", ⟨0, 0⟩, .logic .or⟩,
    ⟨"note", ⟨0.1, 0⟩, .unknown⟩, ⟨"gold", ⟨400, 0⟩, .badge ⟨"GOLD", some "", 4294967295⟩⟩]
  edges := [{ id := "e0", source := "tier", target := "any", sourceHandle := some "" },
    { id := "e1", source := "note", target := "gold", targetHandle := some "left" }]

/-- All kinds of nodes, a zero with a sign and a number that is not finite. -/
theorem load_save_sample :
    let c := sample [.number (-0.0), .number 2.5, .number (0 / 0), .text "\"", .null, .bool true] (.number (1 / 0))
    let c' := sample [.number 0, .number 2.5, .null, .text "\"", .null, .bool true] .null
    parse? c.toJson.pretty = some c' ∧ parse? c.toJson.compact = some c' ∧
      ∃ f : Folder, (Folder.storage.saveCanvas "c" c).run {} = (.ok (), f) ∧
        (Folder.storage.loadCanvas "c").run f = (.ok c', f) := by
  intro c c'
  obtain ⟨hpretty, hcompact, hload⟩ := load_save c (by decide +kernel)
  have hread : (if c.IsPlaced then some c.normal else none) = some c' :=
    (if_pos (by decide +kernel)).trans rfl
  have hplace : ({} : Folder).locateNew "c" = .ok ["c"] := by
    have hnames : Folder.names "c" = ["c"] := by cbv
    simp only [Folder.locateNew, Folder.locate, hnames, Folder.start]
    rfl
  have hsave : (Folder.storage.saveCanvas "c" c).run {} = (.ok (), .put {} ["c"] (.file c.toJson.pretty.toUTF8)) :=
    Folder.run_save_new hplace (by decide) c.toJson
  refine ⟨hpretty.trans hread, hcompact.trans hread, _, hsave, ?_⟩
  rw [hload _ _ _ hsave, hread]
  rfl

end Canvas

end BadgeRules
