import BadgeRules.Proofs.Accepting
import BadgeRules.Proofs.Rereading

/-!
# The order of members, and members that mean nothing

An object is read by its fields, and they are the same ones in whatever order the members stand and whatever
else stands among them (`Json.Holds`). The document of a rule has such objects at every depth:
`Rule.Rearranged` says that a document is that of the rule up to their members. What is read for the rule's own
document is read for it too (`Rule.decode_rearranged`), since no object changes its part (a tree of a slot
stays a tree, and a list a list), as long as it is not nested too deep.
-/

namespace BadgeRules
open Decoder

/-! ### Objects -/

namespace Json

/-- The object has the members `ms` in some order, and others with keys that are not among `keys`. The values of
those can be read. -/
def Holds (keys : List String) (ms : List (String × Json)) (j : Json) : Prop :=
  ∃ all others, j = record all ∧ all.Perm (ms ++ others) ∧ ∀ m ∈ others, m.1 ∉ keys ∧ m.2.isReadable = true

theorem record_eq (ms : List (String × Json)) : record ms = .object (ms.map fun m => (some m.1, m.2)) := rfl

/-- The members with a key. -/
def membersAt (ms : List (String × Json)) (n : String) : List (String × Json) := ms.filter (·.1 == n)

theorem lookup_eq_membersAt (ms : List (String × Json)) (n : String) :
    ms.lookup n = (membersAt ms n).head?.map Prod.snd := by
  induction ms with
  | nil => rfl
  | cons m ms ih =>
    obtain ⟨k, j⟩ := m
    rw [membersAt, List.lookup_cons, List.filter_cons]
    by_cases hk : n = k
    · rw [hk, beq_self_eq_true, if_pos rfl]; rfl
    · rw [beq_false_of_ne hk, if_neg (by simpa using Ne.symm hk)]; exact ih

theorem fields?_congr {ms ms' : List (String × Json)} {names : List String}
    (h : ∀ n ∈ names, membersAt ms' n = membersAt ms n) : (record ms').fields? names = (record ms).fields? names := by
  have hcount (l : List (String × Json)) (n : String) :
      (l.map fun m => (some m.1, m.2)).countP (·.1 == some n) = (membersAt l n).length := by
    rw [List.countP_map, List.countP_eq_length_filter, membersAt]
    rfl
  have hkeys (l : List (String × Json)) : (l.map fun m => (some m.1, m.2)).all (·.1.isSome) = true := by simp
  have honce : names.all (fun n => (membersAt ms' n).length ≤ 1) = names.all fun n => (membersAt ms n).length ≤ 1 := by
    rw [Bool.eq_iff_iff, List.all_eq_true, List.all_eq_true]
    exact forall₂_congr fun n hn => by rw [h n hn]
  have hlookup : names.map (fun n => (ms'.map fun m => (some m.1, m.2)).lookup (some n)) =
      names.map fun n => (ms.map fun m => (some m.1, m.2)).lookup (some n) := by
    refine List.map_congr_left fun n hn => (lookup_record ms' n).trans (Eq.trans ?_ (lookup_record ms n).symm)
    rw [lookup_eq_membersAt, lookup_eq_membersAt, h n hn]
  simp only [fields?, record_eq, hcount, hkeys, honce, true_and, hlookup]

namespace Holds

variable {keys names : List String} {ms : List (String × Json)} {j : Json}

/-- The members with a known key are the same ones. -/
theorem membersAt_eq {all others : List (String × Json)} (hperm : all.Perm (ms ++ others))
    (hothers : ∀ m ∈ others, m.1 ∉ keys ∧ m.2.isReadable = true) (hms : (ms.map Prod.fst).Nodup) {n : String}
    (hn : n ∈ keys) : membersAt all n = membersAt ms n := by
  have hnone : others.filter (·.1 == n) = [] :=
    List.filter_eq_nil_iff.2 fun m hm heq => (hothers m hm).1 (beq_iff_eq.1 heq ▸ hn)
  have hsame : (membersAt all n).Perm (membersAt ms n) := by
    have := hperm.filter (·.1 == n)
    rwa [List.filter_append, hnone, List.append_nil] at this
  have hone : (membersAt ms n).length ≤ 1 := by
    have := List.nodup_iff_count.1 hms n
    rwa [List.count_eq_countP, List.countP_map, List.countP_eq_length_filter] at this
  match hm : membersAt ms n, hone with
  | [], _ => exact (hm ▸ hsame).eq_nil
  | [m], _ => exact List.perm_singleton.1 (hm ▸ hsame)

theorem fields?_eq (h : j.Holds keys ms) (hms : (ms.map Prod.fst).Nodup) (hnames : names ⊆ keys) :
    j.fields? names = (record ms).fields? names := by
  obtain ⟨all, others, rfl, hperm, hothers⟩ := h
  exact fields?_congr fun n hn => membersAt_eq hperm hothers hms (hnames hn)

/-- What stands beside a tag has the rest of the members. -/
theorem tagged?_eq {tag : String} {t : Json} (h : j.Holds keys ((tag, t) :: ms))
    (hms : (tag :: ms.map Prod.fst).Nodup) (htag : tag ∈ keys) :
    ∃ rest, j.tagged? tag = some (t, rest) ∧ rest.Holds keys ms := by
  obtain ⟨all, others, rfl, hperm, hothers⟩ := h
  have hat : membersAt all tag = [(tag, t)] := by
    have hrest : ms.filter (·.1 == tag) = [] := List.filter_eq_nil_iff.2 fun m hm heq =>
      (List.nodup_cons.1 hms).1 (List.mem_map.2 ⟨m, hm, beq_iff_eq.1 heq⟩)
    rw [membersAt_eq hperm hothers hms htag, membersAt, List.filter_cons, if_pos (beq_self_eq_true tag), hrest]
  refine ⟨record (all.filter (·.1 != tag)), ?_, all.filter (·.1 != tag), others, rfl, ?_, hothers⟩
  · have hfilter : (all.map fun m => (some m.1, m.2)).filter (·.1 == some tag) = [(some tag, t)] := by
      rw [List.filter_map]
      exact congrArg (List.map fun m => (some m.1, m.2)) hat
    simp only [tagged?, record_eq, hfilter, List.filter_map]
    rfl
  · have hkept : (ms ++ others).filter (·.1 != tag) = ms ++ others := by
      refine List.filter_eq_self.2 fun m hm => ?_
      rcases List.mem_append.1 hm with hm | hm
      · exact bne_iff_ne.2 fun heq => (List.nodup_cons.1 hms).1 (List.mem_map.2 ⟨m, hm, heq⟩)
      · exact bne_iff_ne.2 fun heq => (hothers m hm).1 (heq ▸ htag)
    have hrest := hperm.filter (·.1 != tag)
    rwa [List.cons_append, List.filter_cons, if_neg (by simp), hkept] at hrest

theorem isReadable_eq (h : j.Holds keys ms) : j.isReadable = ms.all (·.2.isReadable) := by
  obtain ⟨all, others, rfl, hperm, hothers⟩ := h
  have hall : others.all (·.2.isReadable) = true := List.all_eq_true.2 fun m hm => (hothers m hm).2
  rw [isReadable_record, hperm.all_eq, List.all_append, hall, Bool.and_true]

theorem depth_le {n : Nat} (h : j.Holds keys ms) (hj : j.depth ≤ n + 1) : ∀ m ∈ ms, m.2.depth ≤ n := by
  obtain ⟨all, others, rfl, hperm, -⟩ := h
  exact fun m hm => depth_record_le_iff.1 hj m (hperm.mem_iff.2 (List.mem_append_left _ hm))

end Holds

theorem holds_record (keys : List String) (ms : List (String × Json)) : (record ms).Holds keys ms :=
  ⟨ms, [], rfl, List.Perm.of_eq (List.append_nil ms).symm, nofun⟩

end Json

/-! ### Documents of the parts of a rule -/

namespace Formula

/-- The document is that of the tree up to the members of its objects. -/
def Rearranged : Formula → Json → Prop
  | .test c, j => j.Holds ["type", "field", "operator", "value"] (("type", .text "condition") :: c.members)
  | .gate op fs, j => ∃ js, RearrangedAll fs js ∧ j.Holds ["type", "logicType", "children"]
      [("type", .text "logic"), ("logicType", op.toJson), ("children", .array js)]
where
  RearrangedAll : List Formula → List Json → Prop
    | [], [] => True
    | f :: fs, j :: js => f.Rearranged j ∧ RearrangedAll fs js
    | _, _ => False

open Rearranged (RearrangedAll)

theorem rearrangedAll_iff {fs : List Formula} {js : List Json} :
    RearrangedAll fs js ↔ List.Forall₂ Rearranged fs js := by
  induction fs generalizing js with
  | nil => cases js <;> simp [RearrangedAll]
  | cons f fs ih => cases js <;> simp [RearrangedAll, ih]

end Formula

def Slot.Rearranged : Slot → Json → Prop
  | .single root, j => root.Rearranged j
  | .many roots, j => ∃ js, List.Forall₂ Formula.Rearranged roots js ∧ j = .array js

def Award.Rearranged (a : Award) (j : Json) : Prop :=
  j.Holds ["type", "badgeId", "badgeName", "quantity"] (("type", .text action) :: a.members)

def Point.Rearranged (p : Position) (j : Json) : Prop :=
  j.Holds ["x", "y"] [("x", .ofFloat p.x), ("y", .ofFloat p.y)]

def Placement.Rearranged (p : Placement Position) (j : Json) : Prop :=
  ∃ position, p.position.Rearranged position ∧
    j.Holds ["id", "position"] [("id", .text p.id), ("position", position)]

def LayoutRearranged (l : List (Placement Position)) (j : Json) : Prop :=
  ∃ js, List.Forall₂ Placement.Rearranged l js ∧ j.Holds ["nodes"] [("nodes", .array js)]

namespace Rule

/-- The document is that of the rule, but in its objects (the rule itself, condition and logic nodes, actions, the
layout, its nodes and their positions) the members may stand in any order, and there may be unknown ones. -/
def Rearranged (r : Rule Position) (j : Json) : Prop :=
  ∃ slots awards layout, List.Forall₂ Slot.Rearranged r.slots slots ∧ List.Forall₂ Award.Rearranged r.awards awards ∧
    Option.Rel LayoutRearranged r.layout layout ∧
    j.Holds ["id", "name", "description", "conditions", "actions", "layout"]
      (r.membersWith (.array slots) (.array awards) layout)

end Rule

/-! Among the documents that are that of a rule up to their members is its own. -/

theorem Formula.toJson_rearranged (fs : List Formula) : List.Forall₂ Rearranged fs (fs.map toJson) := by
  induction fs using forest_induction with
  | nil => exact .nil
  | test t fs ih => exact .cons (Json.holds_record _ _) ih
  | gate op gs fs ihg ih =>
    refine .cons ⟨gs.map toJson, rearrangedAll_iff.2 ihg, ?_⟩ ih
    rw [toJson, toJsons_eq_map]
    exact Json.holds_record _ _

theorem Slot.toJson_rearranged (s : Slot) : s.Rearranged s.toJson := by
  cases s with
  | single f => exact (List.forall₂_cons.1 (Formula.toJson_rearranged [f])).1
  | many fs => exact ⟨_, Formula.toJson_rearranged fs, by rw [toJson, Formula.toJsons_eq_map]⟩

theorem layoutToJson_rearranged (l : List (Placement Position)) : LayoutRearranged l (layoutToJson l) :=
  ⟨_, List.forall₂_map_right_iff.2 (List.forall₂_same.2 fun _ _ => ⟨_, Json.holds_record _ _, Json.holds_record _ _⟩),
    Json.holds_record _ _⟩

theorem Rule.toJson_rearranged (r : Rule Position) : r.Rearranged r.toJson := by
  refine ⟨_, _, _, List.forall₂_map_right_iff.2 (List.forall₂_same.2 fun s _ => s.toJson_rearranged),
    List.forall₂_map_right_iff.2 (List.forall₂_same.2 fun _ _ => Json.holds_record _ _), ?_, Json.holds_record _ _⟩
  cases r.layout with
  | none => exact .none
  | some l => exact .some (layoutToJson_rearranged l)

/-! ### What is read for one document is read for another -/

namespace Decoder

variable {α : Type} {d : Decoder α}

/-- What the decoder reads for `j` it reads for `j'` too, unless `j'` is nested too deep. -/
def Follows (d : Decoder α) (j j' : Json) : Prop :=
  ∀ room v, d room j = some v → j'.depth ≤ room → d room j' = some v

theorem mapM_follows {js js' : List Json} (h : List.Forall₂ d.Follows js js') {room : Nat} {vs : List α}
    (hread : js.mapM (d room) = some vs) (hdepth : ∀ j ∈ js', j.depth ≤ room) : js'.mapM (d room) = some vs := by
  induction h generalizing vs with
  | nil => exact hread
  | cons hj _ ih =>
    obtain ⟨hfirst, hrest⟩ := List.forall_mem_cons.1 hdepth
    simp only [List.mapM_cons, Option.bind_eq_bind, Option.bind_eq_some_iff, Option.pure_def] at hread ⊢
    obtain ⟨v, hv, vs, hvs, heq⟩ := hread
    exact ⟨v, hj room v hv hfirst, vs, ih hvs hrest, heq⟩

theorem listOf_follows {js js' : List Json} (h : List.Forall₂ d.Follows js js') :
    (listOf d).Follows (.array js) (.array js') := by
  intro room vs hread hdepth
  cases room with
  | zero => cases hread
  | succ room => exact mapM_follows h hread (Json.depth_array_le_iff.1 hdepth)

theorem nullable_follows {j j' : Json} (h : d.Follows j j') (hj : j ≠ .null) (hj' : j' ≠ .null) :
    d.nullable.Follows j j' := by
  intro room v hread hdepth
  rw [nullable_of_ne hj] at hread
  obtain ⟨a, ha, rfl⟩ := Option.map_eq_some_iff.1 hread
  rw [nullable_of_ne hj', h room a ha hdepth]
  rfl

theorem record_follows {names : List String} {build : Nat → List (Option Json) → Option α} {j j' : Json}
    {fields fields' : List (Option Json)} (hj : j.fields? names = some fields) (hj' : j'.fields? names = some fields')
    (h : ∀ room v, build room fields = some v → j'.depth ≤ room + 1 → build room fields' = some v) :
    (record names build).Follows j j' := by
  intro room v hread hdepth
  cases room with
  | zero => cases hread
  | succ room =>
    rw [record, hj] at hread
    rw [record, hj']
    exact h room v hread hdepth

/-- With the same fields it is read alike. -/
theorem record_congr {names : List String} {build : Nat → List (Option Json) → Option α} {j j' : Json}
    (h : j'.fields? names = j.fields? names) (room : Nat) :
    record names build room j' = record names build room j := by
  cases room with
  | zero => rfl
  | succ room => rw [record, record, h]

end Decoder

/-! ### Trees -/

namespace Formula

variable {room : Nat} {j rest : Json}

theorem decode_test_eq (htag : j.tagged? "type" = some (.text "condition", rest)) :
    decode (room + 1) j = (Comparison.decode (room + 1) rest).map .test := by
  rw [decode, htag]
  rfl

theorem decode_gate_eq {op : Connective} {js : List Json} (htag : j.tagged? "type" = some (.text "logic", rest))
    (hfields : rest.fields? ["logicType", "children"] = some [some op.toJson, some (.array js)]) :
    decode (room + 1) j = (js.mapM (decode room)).map (.gate op) := by
  have hop : choice true Connective.names room op.toJson = some op := (choice_text _ _ _ _).trans op.lookup_word
  rw [decode, htag]
  simp [isTag, Json.text, hfields, required, hop, Option.map_eq_bind]

theorem decode_rearranged (fs : List Formula) {js : List Json} (h : List.Forall₂ Rearranged fs js) :
    List.Forall₂ decode.Follows (fs.map toJson) js := by
  induction fs using forest_induction generalizing js with
  | nil => cases h; exact .nil
  | test t fs ih =>
    obtain ⟨j, js, hj, hjs, rfl⟩ := List.forall₂_cons_left_iff.1 h
    refine .cons (fun room v hread _ => ?_) (ih hjs)
    have hkeys : ("type" :: t.members.map Prod.fst).Nodup := by simp [Comparison.members]
    obtain ⟨rest, htag, hrest⟩ := Json.Holds.tagged?_eq hj hkeys List.mem_cons_self
    have hfields : rest.fields? ["field", "operator", "value"] = (Json.record t.members).fields? _ :=
      hrest.fields?_eq hkeys.of_cons (List.subset_cons_self _ _)
    cases room with
    | zero => cases hread
    | succ room =>
      rw [toJson, decode_test_eq (Json.tagged?_record (List.nodup_cons.1 hkeys).1 _)] at hread
      rw [decode_test_eq htag, Comparison.decode, record_congr hfields]
      exact hread
  | gate op gs fs ihg ih =>
    obtain ⟨j, js, hj, hjs, rfl⟩ := List.forall₂_cons_left_iff.1 h
    refine .cons (fun room v hread hdepth => ?_) (ih hjs)
    obtain ⟨items, hitems, hholds⟩ := hj
    obtain ⟨rest, htag, hrest⟩ := hholds.tagged?_eq (by simp) List.mem_cons_self
    have hfields (js : List Json) : (Json.record [("logicType", op.toJson), ("children", .array js)]).fields?
        ["logicType", "children"] = some [some op.toJson, some (.array js)] :=
      (Json.fields?_record (by simp) _).trans (by simp [List.lookup_cons])
    cases room with
    | zero => cases hread
    | succ room =>
      have hroom : (Json.array items).depth ≤ room := hholds.depth_le hdepth ("children", .array items) (by simp)
      have hbelow : ∀ item ∈ items, item.depth ≤ room := fun item hitem =>
        (Json.depth_lt_of_mem_array hitem).le.trans hroom
      rw [toJson, toJsons_eq_map, decode_gate_eq (Json.tagged?_record (by simp) _) (hfields _)] at hread
      obtain ⟨gs', hgs', rfl⟩ := Option.map_eq_some_iff.1 hread
      rw [decode_gate_eq htag ((hrest.fields?_eq (by simp) (by simp)).trans (hfields _)),
        mapM_follows (ihg (rearrangedAll_iff.1 hitems)) hgs' hbelow]
      rfl

theorem isReadable_rearranged (fs : List Formula) {js : List Json} (h : List.Forall₂ Rearranged fs js)
    (hread : ∀ f ∈ fs, f.toJson.isReadable = true) : ∀ j ∈ js, j.isReadable = true := by
  induction fs using forest_induction generalizing js with
  | nil => cases h; exact nofun
  | test t fs ih =>
    obtain ⟨j, js, hj, hjs, rfl⟩ := List.forall₂_cons_left_iff.1 h
    obtain ⟨ht, hfs⟩ := List.forall_mem_cons.1 hread
    refine List.forall_mem_cons.2 ⟨?_, ih hjs hfs⟩
    rw [Json.Holds.isReadable_eq hj, ← Json.isReadable_record]
    exact ht
  | gate op gs fs ihg ih =>
    obtain ⟨j, js, hj, hjs, rfl⟩ := List.forall₂_cons_left_iff.1 h
    obtain ⟨hgate, hfs⟩ := List.forall_mem_cons.1 hread
    refine List.forall_mem_cons.2 ⟨?_, ih hjs hfs⟩
    obtain ⟨items, hitems, hholds⟩ := hj
    have hchildren : ∀ g ∈ gs, g.toJson.isReadable = true := by
      rw [toJson, toJsons_eq_map, Json.isReadable_record] at hgate
      simpa [Json.isReadable_array] using List.all_eq_true.1 hgate ("children", .array (gs.map toJson)) (by simp)
    have hitems := ihg (rearrangedAll_iff.1 hitems) hchildren
    rw [hholds.isReadable_eq]
    simpa [Connective.toJson, Json.isReadable_array] using hitems

/-- A list of objects is no tree. -/
theorem decode_rearranged_array {fs : List Formula} {js : List Json} (h : List.Forall₂ Rearranged fs js)
    (room : Nat) : decode room (.array js) = none := by
  cases room with
  | zero => rfl
  | succ room =>
    cases h with
    | nil => rfl
    | @cons f j fs js hj _ =>
      obtain ⟨ms, rfl⟩ : ∃ ms, j = .object ms := by
        cases f with
        | test t => obtain ⟨all, -, rfl, -⟩ := hj; exact ⟨_, rfl⟩
        | gate op gs => obtain ⟨-, -, all, -, rfl, -⟩ := hj; exact ⟨_, rfl⟩
      rfl

/-- A tree is no list. -/
theorem listOf_toJson_none (f : Formula) (room : Nat) : listOf decode room f.toJson = none := by
  cases room <;> cases f <;> rfl

end Formula

/-! ### Slots, awards and places -/

theorem Slot.decode_rearranged {s : Slot} {j : Json} (h : s.Rearranged j) : Slot.decode.Follows s.toJson j := by
  intro room v hread hdepth
  rw [decode, checked, Option.ite_none_right_eq_some] at hread ⊢
  obtain ⟨⟨-, hreadable⟩, hread⟩ := hread
  cases s with
  | single f =>
    have hreadable := Formula.isReadable_rearranged [f] (.cons h .nil) (List.forall_mem_singleton.2 hreadable)
    have hfollows := (List.forall₂_cons.1 (Formula.decode_rearranged [f] (.cons h .nil))).1
    refine ⟨⟨hdepth, hreadable j (List.mem_singleton_self j)⟩, ?_⟩
    rw [toJson, Formula.listOf_toJson_none, Option.map_none, Option.or_none] at hread
    obtain ⟨g, hg, rfl⟩ := Option.map_eq_some_iff.1 hread
    rw [hfollows room g hg hdepth]
    rfl
  | many fs =>
    obtain ⟨js, hjs, rfl⟩ := h
    rw [toJson, Formula.toJsons_eq_map] at hreadable hread
    have hreadable := Formula.isReadable_rearranged fs hjs (by
      simpa [Json.isReadable_array] using hreadable)
    have hfollows := listOf_follows (Formula.decode_rearranged fs hjs)
    refine ⟨⟨hdepth, by rwa [Json.isReadable_array, List.all_eq_true]⟩, ?_⟩
    rw [Formula.decode_array_none, Option.map_none, Option.none_or] at hread
    obtain ⟨gs, hgs, rfl⟩ := Option.map_eq_some_iff.1 hread
    rw [Formula.decode_rearranged_array hjs, hfollows room gs hgs hdepth]
    rfl

theorem Award.decode_rearranged {a : Award} {j : Json} (h : a.Rearranged j) : decodeAction.Follows a.toAction j := by
  intro room v hread _
  have hkeys : ((("type", Json.text action) :: a.members).map Prod.fst).Nodup := by
    obtain ⟨badge, name, quantity⟩ := a
    cases name <;> simp [members, Json.optional]
  rw [decodeAction, record_congr (h.fields?_eq hkeys (List.Subset.refl _))]
  exact hread

theorem Point.decode_rearranged {p : Position} {j : Json} (h : Point.Rearranged p j) :
    Point.decode.Follows p.toJson j := by
  intro room v hread _
  rw [decode, record_congr (h.fields?_eq (by simp) (List.Subset.refl _))]
  exact hread

theorem Placement.decode_rearranged {p : Placement Position} {j : Json} (h : p.Rearranged j) :
    Placement.decode.Follows p.toJson j := by
  obtain ⟨position, hposition, hj⟩ := h
  have hfields (q : Json) : (Json.record [("id", .text p.id), ("position", q)]).fields? ["id", "position"] =
      some [some (.text p.id), some q] :=
    (Json.fields?_record (by simp) _).trans (by simp [List.lookup_cons])
  refine record_follows (hfields _) ((hj.fields?_eq (by simp) (List.Subset.refl _)).trans (hfields _)) ?_
  intro room v hread hdepth
  have hroom : position.depth ≤ room := hj.depth_le hdepth ("position", position) (by simp)
  simp only [Option.bind_eq_bind, Option.bind_eq_some_iff, required, Option.bind_some] at hread ⊢
  obtain ⟨id, hid, q, hq, heq⟩ := hread
  exact ⟨id, hid, q, Point.decode_rearranged hposition room q hq hroom, heq⟩

theorem decodeLayout_rearranged {l : List (Placement Position)} {j : Json} (h : LayoutRearranged l j) :
    decodeLayout.Follows (layoutToJson l) j := by
  obtain ⟨js, hjs, hj⟩ := h
  have hfields (js : List Json) : (Json.record [("nodes", .array js)]).fields? ["nodes"] = some [some (.array js)] :=
    (Json.fields?_record (by simp) _).trans (by simp [List.lookup_cons])
  refine record_follows (hfields _) ((hj.fields?_eq (by simp) (List.Subset.refl _)).trans (hfields _)) ?_
  intro room v hread hdepth
  have hplaces : List.Forall₂ Placement.decode.Follows (l.map Placement.toJson) js :=
    List.forall₂_map_left_iff.2 (hjs.imp fun _ _ => Placement.decode_rearranged)
  exact listOf_follows hplaces room v hread (hj.depth_le hdepth ("nodes", .array js) (by simp))

/-- The layout may be missing. -/
theorem layout_rearranged {l : Option (List (Placement Position))} {field : Option Json}
    (h : Option.Rel LayoutRearranged l field) {room : Nat} {v : Option (List (Placement Position))}
    (hread : withDefault none decodeLayout.nullable room (l.map layoutToJson) = some v)
    (hdepth : ∀ j ∈ field, j.depth ≤ room) : withDefault none decodeLayout.nullable room field = some v := by
  cases h with
  | none => exact hread
  | @some l j hl =>
    have hnull : j ≠ .null := by
      obtain ⟨-, -, all, -, rfl, -⟩ := hl
      exact nofun
    exact nullable_follows (decodeLayout_rearranged hl) nofun hnull room v hread (hdepth j rfl)

/-! ### Rules -/

namespace Rule

theorem decode_rearranged {r : Rule Position} {j : Json} (h : r.Rearranged j) : decode.Follows r.toJson j := by
  obtain ⟨slots, awards, layout, hslots, hawards, hlayout, hj⟩ := h
  have hslots := listOf_follows (List.forall₂_map_left_iff.2 (hslots.imp fun _ _ => Slot.decode_rearranged))
  have hawards := listOf_follows (List.forall₂_map_left_iff.2 (hawards.imp fun _ _ => Award.decode_rearranged))
  refine record_follows (r.fields?_membersWith _ _ _)
    ((hj.fields?_eq (r.keys_membersWith _ _ _) (List.Subset.refl _)).trans (r.fields?_membersWith _ _ _)) ?_
  intro room v hread hdepth
  have hroom := hj.depth_le hdepth
  have hslots := fun v hv => hslots room v hv (hroom ("conditions", .array slots) (by simp [membersWith]))
  have hawards := fun v hv => hawards room v hv (hroom ("actions", .array awards) (by simp [membersWith]))
  have hlayout := fun v hv => layout_rearranged hlayout (v := v) hv fun j hj =>
    hroom ("layout", j) (by simp [membersWith, Option.mem_def.1 hj, Json.optional])
  simp only [Option.bind_eq_bind, Option.bind_eq_some_iff, required, Option.bind_some, withDefault] at hread ⊢
  obtain ⟨id, hid, name, hname, description, hdescription, ss, hss, as, has, l, hl, heq⟩ := hread
  exact ⟨id, hid, name, hname, description, hdescription, ss, hslots ss hss, as, hawards as has, l, hlayout l hl, heq⟩

/-- A text is read by `deserialize` like that of the rule if its document is `Rearranged` from that of the rule and has
at most 127 levels. -/
theorem deserialize_rearranged {r : Rule Position} {j : Json} {text : String} (hj : r.Rearranged j)
    (htext : Json.parse? text = some j) (hdepth : j.depth ≤ 127)
    (hread : (deserialize r.serialize).1.isSome = true) : deserialize text = deserialize r.serialize := by
  obtain ⟨v, hv⟩ := Option.isSome_iff_exists.1 hread
  rw [fst_deserialize, parse?_serialize] at hv
  have hsame : parse? text = parse? r.serialize := by
    rw [parse?_serialize, hv, parse?, htext]
    exact decode_rearranged hj maxDepth v hv hdepth
  rw [deserialize, deserialize, hsame]

/-- A rule with an object of every kind. -/
def sample : Rule Position where
  id := "r1"
  name := "Points"
  slots := [.single (.gate .not [.test ⟨"tier", .oneOf, .list ["GOLD"]⟩])]
  awards := [⟨"gold", none, 1⟩]
  layout := some [⟨"a", ⟨0, 2.5⟩⟩]

/-- An object with its members in reverse, further ones in front. -/
def reversed (ms others : List (String × Json)) : Json := .record (ms ++ others).reverse

theorem reversed_holds {keys : List String} {ms others : List (String × Json)}
    (h : ∀ m ∈ others, m.1 ∉ keys ∧ m.2.isReadable = true) : (reversed ms others).Holds keys ms :=
  ⟨_, others, rfl, List.reverse_perm _, h⟩

/-- The document of `sample` with the members of all objects in reverse, the tags last. -/
def sampleReversed : Json :=
  let test := reversed (("type", .text "condition") :: (⟨"tier", .oneOf, .list ["GOLD"]⟩ : Comparison).members) []
  let gate := reversed [("type", .text "logic"), ("logicType", Connective.not.toJson), ("children", .array [test])]
    [("field", .null), ("value", .array [])]
  let award := reversed (("type", .text "award_badge") :: (⟨"gold", none, 1⟩ : Award).members) []
  let position := reversed [("x", .ofFloat 0), ("y", .ofFloat 2.5)] [("z", .int 7)]
  let layout := reversed [("nodes", .array [reversed [("id", .text "a"), ("position", position)] []])] []
  reversed (sample.membersWith (.array [gate]) (.array [award]) (some layout)) [("v", .int 2), ("v", .text "two")]

/-- The members of all objects stand in reverse, in two of them behind unknown ones. -/
theorem deserialize_rearranged_reversed : sample.Rearranged sampleReversed ∧
    Json.parse? sampleReversed.compact = some sampleReversed ∧ sampleReversed.depth ≤ 127 ∧
      (deserialize sample.serialize).1.isSome = true ∧
      deserialize sampleReversed.compact = deserialize sample.serialize := by
  have hj : sample.Rearranged sampleReversed := by
    refine ⟨_, _, _, .cons ?slot .nil, .cons ?award .nil, .some ?layout, reversed_holds (by decide +kernel)⟩
    case slot =>
      exact ⟨_, Formula.rearrangedAll_iff.2 (.cons (reversed_holds (by decide)) .nil), reversed_holds (by decide)⟩
    case award => exact reversed_holds (by decide)
    case layout =>
      exact ⟨_, .cons ⟨_, reversed_holds (by decide +kernel), reversed_holds (by decide)⟩ .nil,
        reversed_holds (by decide)⟩
  have hread : (deserialize sample.serialize).1.isSome = true := by
    rw [fst_deserialize, parse?_serialize, (reads (by decide +kernel)).eq_ite, if_pos (by decide +kernel),
      if_pos (by decide +kernel)]
    rfl
  have htext := Json.parse?_compact sampleReversed
  have hdepth : sampleReversed.depth ≤ 127 := by decide +kernel
  exact ⟨hj, htext, hdepth, hread, deserialize_rearranged hj htext hdepth hread⟩

end Rule

end BadgeRules
