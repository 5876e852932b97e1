import BadgeRules.Proofs.Decoding

/-!
# What accepted documents look like

A decoder finds things in the parts of a document: in the items of a list (`Decoder.listOf_eq_some`), in the fields
of an object or array (`Json.depth_lt_of_fields?`), in what stands beside a tag (`Json.depth_of_tagged?`).
Parts are nested less deep than the whole. So what holds of the leaves of trees, and of a logic node if it
holds of the operands, holds of every tree that is read (`Formula.decode_induction`).
-/

namespace BadgeRules
open Decoder

variable {α β : Type}

/-! ### Parts of documents -/

namespace Json

variable {j rest tag : Json}

theorem depth_lt_of_mem_array {js : List Json} (h : j ∈ js) : j.depth < (array js).depth := by
  rw [depth, Nat.add_comm]
  exact Nat.lt_succ_of_le (depth_ofItems_le_iff.1 (Nat.le_refl _) j h)

theorem depth_lt_of_mem_object {ms : List (Option String × Json)} {k : Option String} (h : (k, j) ∈ ms) :
    j.depth < (object ms).depth := by
  rw [depth, Nat.add_comm]
  exact Nat.lt_succ_of_le (depth_ofMembers_le_iff.1 (Nat.le_refl _) (k, j) h)

/-- A field is part of the document. -/
theorem depth_lt_of_fields? {names : List String} {fields : List (Option Json)} (h : j.fields? names = some fields)
    {field : Json} (hfield : some field ∈ fields) : field.depth < j.depth := by
  unfold fields? at h
  split at h
  · split at h <;> cases h
    obtain ⟨n, -, hn⟩ := List.mem_map.1 hfield
    obtain ⟨before, after, rfl, -⟩ := List.lookup_eq_some_iff.1 hn
    exact depth_lt_of_mem_object (List.mem_append_right before List.mem_cons_self)
  · split at h <;> cases h
    rcases List.mem_append.1 hfield with hitem | hmissing
    · obtain ⟨item, hitem, heq⟩ := List.mem_map.1 hitem
      exact depth_lt_of_mem_array (Option.some_inj.1 heq ▸ hitem)
    · exact absurd (List.eq_of_mem_replicate hmissing) (Option.some_ne_none _)
  · cases h

/-- What stands beside a tag is an object or array, and nested no deeper than the whole. -/
theorem depth_of_tagged? {name : String} (h : j.tagged? name = some (tag, rest)) :
    0 < rest.depth ∧ rest.depth ≤ j.depth := by
  unfold tagged? at h
  split at h
  · split at h <;> cases h
    rw [depth, depth, Nat.add_le_add_iff_left, depth_ofMembers_le_iff]
    refine ⟨Nat.add_pos_left Nat.one_pos _, fun m hm => ?_⟩
    exact depth_ofMembers_le_iff.1 (Nat.le_refl _) m (List.mem_filter.1 hm).1
  · cases h
    rw [depth, depth, Nat.add_le_add_iff_left]
    exact ⟨Nat.add_pos_left Nat.one_pos _, Nat.le_max_right _ _⟩
  · cases h

end Json

/-! ### Decoders -/

namespace Decoder

variable {d : Decoder α} {room : Nat} {j : Json}

theorem exists_of_mem_mapM {f : α → Option β} {as : List α} {bs : List β} (h : as.mapM f = some bs) :
    ∀ b ∈ bs, ∃ a ∈ as, f a = some b := by
  induction as generalizing bs with
  | nil => cases h; exact fun _ hb => (List.not_mem_nil hb).elim
  | cons a as ih =>
    obtain ⟨b, hb, bs', hbs, heq⟩ : ∃ b, f a = some b ∧ ∃ bs', as.mapM f = some bs' ∧ b :: bs' = bs := by
      simpa [List.mapM_cons, Option.bind_eq_some_iff] using h
    subst heq
    refine List.forall_mem_cons.2 ⟨⟨a, List.mem_cons_self, hb⟩, fun b' hb' => ?_⟩
    obtain ⟨a', ha', heq⟩ := ih hbs b' hb'
    exact ⟨a', List.mem_cons_of_mem a ha', heq⟩

theorem record_eq_some {names : List String} {build : Nat → List (Option Json) → Option α} {a : α}
    (h : record names build room j = some a) :
    ∃ room' fields, room = room' + 1 ∧ j.fields? names = some fields ∧ build room' fields = some a := by
  cases room with
  | zero => cases h
  | succ room =>
    obtain ⟨fields, hfields, h⟩ := Option.bind_eq_some_iff.1 h
    exact ⟨room, fields, rfl, hfields, h⟩

theorem listOf_eq_some {as : List α} (h : listOf d room j = some as) :
    ∀ a ∈ as, ∃ room' item, room = room' + 1 ∧ item.depth < j.depth ∧ d room' item = some a := by
  unfold listOf at h
  split at h
  · intro a ha
    obtain ⟨item, hitem, heq⟩ := exists_of_mem_mapM h a ha
    exact ⟨_, item, rfl, Json.depth_lt_of_mem_array hitem, heq⟩
  · cases h

/-- A list that is missing is empty. -/
theorem withDefault_listOf_eq_some {field : Option Json} {as : List α}
    (h : withDefault [] (listOf d) room field = some as) :
    ∀ a ∈ as, ∃ room' item, room = room' + 1 ∧ d room' item = some a := by
  intro a ha
  cases field with
  | none => cases h; exact (List.not_mem_nil ha).elim
  | some j =>
    obtain ⟨room', item, hroom, -, hitem⟩ := listOf_eq_some h a ha
    exact ⟨room', item, hroom, hitem⟩

/-- What may be missing or `null` is read where it is neither. -/
theorem withDefault_nullable_eq_some {field : Option Json} {o : Option α}
    (h : withDefault none d.nullable room field = some o) : ∀ a ∈ o, ∃ j, d room j = some a := by
  rintro a rfl
  cases field with
  | none => cases h
  | some j =>
    have h : d.nullable room j = some (some a) := h
    unfold nullable at h
    split at h
    · cases h
    · obtain ⟨b, hb, heq⟩ := Option.map_eq_some_iff.1 h
      cases heq
      exact ⟨j, hb⟩

end Decoder

/-! ### Trees -/

theorem Comparison.operand_of_decode {room : Nat} {j : Json} {t : Comparison} (h : decode room j = some t) :
    ∃ room' operand, operand.depth < j.depth ∧ Operand.decode room' operand = some t.operand := by
  obtain ⟨room', fields, -, hfields, h⟩ := record_eq_some h
  split at h
  · simp only [required, Option.bind_eq_bind, Option.bind_eq_some_iff, Option.pure_def, Option.some_inj] at h
    obtain ⟨_, -, _, -, operand, ⟨part, rfl, hpart⟩, rfl⟩ := h
    exact ⟨room', part, Json.depth_lt_of_fields? hfields (by simp), hpart⟩
  · cases h

namespace Formula

/-- The leaves of a tree are read from an operand inside, and the operands of a logic node from parts that
are two levels further down. A logic node may also come without operands. -/
theorem decode_induction {P : Json → Formula → Prop}
    (test : ∀ (j operand : Json) (room : Nat) (t : Comparison), operand.depth < j.depth →
      Operand.decode room operand = some t.operand → P j (.test t))
    (bare : ∀ (j : Json) (op : Connective), 0 < j.depth → P j (.gate op []))
    (gate : ∀ (j : Json) (op : Connective) (fs : List Formula), 2 ≤ j.depth →
      (∀ f ∈ fs, ∃ part, part.depth + 2 ≤ j.depth ∧ P part f) → P j (.gate op fs)) :
    ∀ (room : Nat) (j : Json) (f : Formula), decode room j = some f → P j f := by
  intro room
  induction room with
  | zero => exact fun _ _ h => nomatch h
  | succ room ih =>
    intro j f h
    rw [decode] at h
    obtain ⟨⟨tag, rest⟩, htag, h⟩ := Option.bind_eq_some_iff.1 h
    obtain ⟨hpos, hrest⟩ := Json.depth_of_tagged? htag
    dsimp only at h
    split at h
    · obtain ⟨t, ht, rfl⟩ := Option.map_eq_some_iff.1 h
      obtain ⟨room', operand, hlt, hoperand⟩ := Comparison.operand_of_decode ht
      exact test j operand room' t (Nat.lt_of_lt_of_le hlt hrest) hoperand
    · split at h
      · obtain ⟨fields, hfields, h⟩ := Option.bind_eq_some_iff.1 h
        split at h
        · rename_i op operands
          obtain ⟨op, -, h⟩ := Option.bind_eq_some_iff.1 h
          split at h
          · cases h
            exact bare j op (Nat.lt_of_lt_of_le hpos hrest)
          · obtain ⟨fs, hfs, h⟩ := Option.bind_eq_some_iff.1 h
            cases h
            have hlist := Json.depth_lt_of_fields? hfields (List.mem_cons_of_mem _ List.mem_cons_self)
            have htwo : 1 < rest.depth := Nat.lt_of_le_of_lt (Nat.le_add_right 1 _) hlist
            refine gate j op fs (Nat.le_trans htwo hrest) fun f hf => ?_
            obtain ⟨part, hpart, hread⟩ := exists_of_mem_mapM hfs f hf
            have hlt := Json.depth_lt_of_mem_array hpart
            exact ⟨part, by omega, ih part f hread⟩
          · cases h
        · cases h
      · cases h

end Formula

/-! ### Rules -/

/-- A slot is one tree, or a list of trees that are one level further down. It was looked at as a whole. -/
theorem Slot.roots_of_decode {room : Nat} {j : Json} {s : Slot} (h : decode room j = some s) : j.depth ≤ room ∧
    ((∃ f, s = .single f ∧ Formula.decode room j = some f) ∨
      ∃ fs, s = .many fs ∧
        ∀ f ∈ fs, ∃ room' item, room = room' + 1 ∧ item.depth < j.depth ∧ Formula.decode room' item = some f) := by
  unfold decode checked at h
  split at h
  · rename_i hchecked
    refine ⟨hchecked.1, ?_⟩
    rcases Option.or_eq_some_iff.1 h with hsingle | ⟨-, hmany⟩
    · obtain ⟨f, hf, rfl⟩ := Option.map_eq_some_iff.1 hsingle
      exact .inl ⟨f, rfl, hf⟩
    · obtain ⟨fs, hfs, rfl⟩ := Option.map_eq_some_iff.1 hmany
      exact .inr ⟨fs, rfl, listOf_eq_some hfs⟩
  · cases h

namespace Rule

variable {room : Nat} {j : Json} {r : Rule Position}

theorem parts_of_decode (h : decode room j = some r) : ∃ room' slots layout, room = room' + 1 ∧
    withDefault [] (listOf Slot.decode) room' slots = some r.slots ∧
      withDefault none decodeLayout.nullable room' layout = some r.layout := by
  obtain ⟨room', fields, hroom, -, h⟩ := record_eq_some h
  split at h
  · rename_i slots awards layout
    simp only [Option.bind_eq_bind, Option.bind_eq_some_iff, Option.pure_def, Option.some_inj] at h
    obtain ⟨_, -, _, -, _, -, _, hslots, _, -, _, hlayout, rfl⟩ := h
    exact ⟨room', slots, layout, hroom, hslots, hlayout⟩
  · cases h

theorem slots_of_decode (h : decode room j = some r) :
    ∀ s ∈ r.slots, ∃ room' item, room = room' + 2 ∧ Slot.decode room' item = some s := by
  obtain ⟨_, slots, _, rfl, hslots, -⟩ := parts_of_decode h
  intro s hs
  obtain ⟨room', item, rfl, hitem⟩ := withDefault_listOf_eq_some hslots s hs
  exact ⟨room', item, rfl, hitem⟩

theorem places_of_decodeLayout {l : List (Placement Position)} (h : decodeLayout room j = some l) :
    ∀ p ∈ l, ∃ room' item, Placement.decode room' item = some p := by
  obtain ⟨room', fields, -, -, h⟩ := record_eq_some h
  split at h
  · intro p hp
    obtain ⟨room'', item, -, hitem⟩ := withDefault_listOf_eq_some h p hp
    exact ⟨room'', item, hitem⟩
  · cases h

theorem places_of_decode (h : decode room j = some r) :
    ∀ p ∈ r.layout.getD [], ∃ room' item, Placement.decode room' item = some p := by
  obtain ⟨_, _, _, -, -, hlayout⟩ := parts_of_decode h
  cases hl : r.layout with
  | none => exact fun _ hp => (List.not_mem_nil hp).elim
  | some l =>
    obtain ⟨item, hitem⟩ := withDefault_nullable_eq_some hlayout l hl
    exact places_of_decodeLayout hitem

end Rule

end BadgeRules
