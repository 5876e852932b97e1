import BadgeRules.Document.Rule

/-!
# What decoders read

A decoder reads a value from a document if it finds that value wherever the document is not nested too
deep (`Decoder.Reads`). Records and lists are read if their parts are (`record_reads`, `listOf_reads`).
-/

namespace BadgeRules
open Decoder

variable {α β : Type}

namespace Json

theorem lookup_record (ms : List (String × Json)) (k : String) :
    (ms.map fun (k, j) => (some k, j)).lookup (some k) = ms.lookup k := by
  induction ms with
  | nil => rfl
  | cons m ms ih =>
    obtain ⟨k', j⟩ := m
    rw [List.map_cons, List.lookup_cons, List.lookup_cons, ih]
    rfl

theorem fields?_record {ms : List (String × Json)} (h : (ms.map Prod.fst).Nodup) (names : List String) :
    (record ms).fields? names = some (names.map fun n => ms.lookup n) := by
  have hkeys : (ms.map fun (k, j) => (some k, j)).all (·.1.isSome) = true := by simp
  have honce : names.all (fun n => ((ms.map fun (k, j) => (some k, j)).countP (·.1 == some n)) ≤ 1) = true := by
    refine List.all_eq_true.2 fun n _ => decide_eq_true ?_
    have hcount := List.nodup_iff_count.1 h n
    rw [List.count_eq_countP, List.countP_map] at hcount
    rw [List.countP_map]
    simpa [Function.comp_def] using hcount
  simp only [fields?, record, hkeys, honce, and_self, if_true, lookup_record]

theorem tagged?_record {tag : String} {ms : List (String × Json)} (h : tag ∉ ms.map Prod.fst) (t : Json) :
    (record ((tag, t) :: ms)).tagged? tag = some (t, record ms) := by
  have hne : ∀ m ∈ ms.map fun (k, j) => (some k, j), m.1 ≠ some tag := by
    rintro m hm heq
    obtain ⟨⟨k, j⟩, hmem, rfl⟩ := List.mem_map.1 hm
    exact h (List.mem_map.2 ⟨_, hmem, Option.some_inj.1 heq⟩)
  have hnone : (ms.map fun (k, j) => (some k, j)).filter (·.1 == some tag) = [] :=
    List.filter_eq_nil_iff.2 fun m hm => by simpa using hne m hm
  have hall : (ms.map fun (k, j) => (some k, j)).filter (·.1 != some tag) = ms.map fun (k, j) => (some k, j) :=
    List.filter_eq_self.2 fun m hm => by simpa using hne m hm
  simp [tagged?, record, hnone, hall]

/-! ### Levels -/

@[simp] theorem depth_text (s : String) : (text s).depth = 0 := rfl

@[simp] theorem depth_int (n : Int) : (int n).depth = 0 := rfl

theorem depth_ofItems_le_iff {js : List Json} {n : Nat} : depth.ofItems js ≤ n ↔ ∀ j ∈ js, j.depth ≤ n := by
  induction js with
  | nil => simp [depth.ofItems]
  | cons j js ih => rw [depth.ofItems, Nat.max_le, ih, List.forall_mem_cons]

theorem depth_ofMembers_le_iff {ms : List (Option String × Json)} {n : Nat} :
    depth.ofMembers ms ≤ n ↔ ∀ m ∈ ms, m.2.depth ≤ n := by
  induction ms with
  | nil => simp [depth.ofMembers]
  | cons m ms ih => rw [depth.ofMembers, Nat.max_le, ih, List.forall_mem_cons]

theorem depth_record_le_iff {ms : List (String × Json)} {n : Nat} :
    (record ms).depth ≤ n + 1 ↔ ∀ m ∈ ms, m.2.depth ≤ n := by
  rw [record, depth, Nat.add_comm 1, Nat.add_le_add_iff_right, depth_ofMembers_le_iff, List.forall_mem_map]

theorem depth_array_le_iff {js : List Json} {n : Nat} :
    (array js).depth ≤ n + 1 ↔ ∀ j ∈ js, j.depth ≤ n := by
  rw [depth, Nat.add_comm 1, Nat.add_le_add_iff_right, depth_ofItems_le_iff]

@[simp] theorem isReadable_text (s : String) : (text s).isReadable = true := rfl

theorem isReadable_record (ms : List (String × Json)) : (record ms).isReadable = ms.all (·.2.isReadable) := by
  have hmembers : ∀ ms : List (String × Json),
      isReadable.ofMembers (ms.map fun (k, j) => (some k, j)) = ms.all (·.2.isReadable) := by
    intro ms
    induction ms with
    | nil => rfl
    | cons m ms ih => rw [List.map_cons, isReadable.ofMembers, ih, List.all_cons]; rfl
  exact hmembers ms

theorem isReadable_array (js : List Json) : (array js).isReadable = js.all isReadable := by
  have hitems : ∀ js : List Json, isReadable.ofItems js = js.all isReadable := by
    intro js
    induction js with
    | nil => rfl
    | cons j js ih => rw [isReadable.ofItems, ih, List.all_cons]
  exact hitems js

end Json

namespace Decoder

/-- From `j` the decoder reads `a`, or nothing if `a` is `none`. -/
def Reads (d : Decoder α) (j : Json) (a : Option α) : Prop :=
  ∀ room v, d room j = some v ↔ j.depth ≤ room ∧ a = some v

theorem Reads.eq_ite {d : Decoder α} {j : Json} {a : Option α} (h : d.Reads j a) (room : Nat) :
    d room j = if j.depth ≤ room then a else none := by
  refine Option.ext fun v => ?_
  rw [h room v]
  split <;> simp [*]

theorem record_reads {names : List String} {build : Nat → List (Option Json) → Option α}
    {ms : List (String × Json)} {a : Option α} (hms : (ms.map Prod.fst).Nodup)
    (h : ∀ room v, build room (names.map fun n => ms.lookup n) = some v ↔ (∀ m ∈ ms, m.2.depth ≤ room) ∧ a = some v) :
    (record names build).Reads (.record ms) a := by
  intro room v
  cases room with
  | zero => simp [record, Json.record, Json.depth]
  | succ room =>
    rw [record, Json.fields?_record hms, Json.depth_record_le_iff]
    exact h room v

theorem listOf_reads {d : Decoder α} {toJson : β → Json} {read : β → Option α} {bs : List β}
    (h : ∀ b ∈ bs, d.Reads (toJson b) (read b)) :
    (listOf d).Reads (.array (bs.map toJson)) (bs.mapM read) := by
  intro room v
  cases room with
  | zero => simp [listOf, Json.depth]
  | succ room =>
    rw [listOf, Json.depth_array_le_iff, List.forall_mem_map]
    induction bs generalizing v with
    | nil => simp
    | cons b bs ih =>
      obtain ⟨hb, hbs⟩ := List.forall_mem_cons.1 h
      simp only [List.map_cons, List.mapM_cons, List.forall_mem_cons, Option.bind_eq_bind, Option.bind_eq_some_iff,
        hb room, ih hbs, Option.pure_def]
      constructor
      · rintro ⟨a, ⟨hd, ha⟩, as, ⟨hds, has⟩, hv⟩
        exact ⟨⟨hd, hds⟩, a, ha, as, has, hv⟩
      · rintro ⟨⟨hd, hds⟩, a, ha, as, has, hv⟩
        exact ⟨a, ⟨hd, ha⟩, as, ⟨hds, has⟩, hv⟩

theorem mapM_some (f : α → β) (as : List α) : as.mapM (fun a => some (f a)) = some (as.map f) := by
  induction as with
  | nil => rfl
  | cons a as ih => rw [List.mapM_cons, ih]; rfl

theorem mapM_guard (p : α → Prop) [DecidablePred p] (f : α → β) (as : List α) :
    as.mapM (fun a => if p a then some (f a) else none) = if ∀ a ∈ as, p a then some (as.map f) else none := by
  induction as with
  | nil => simp
  | cons a as ih =>
    rw [List.mapM_cons, ih]
    by_cases ha : p a
    · by_cases has : ∀ b ∈ as, p b
      · rw [if_pos ha, if_pos has, if_pos (List.forall_mem_cons.2 ⟨ha, has⟩)]; rfl
      · rw [if_pos ha, if_neg has, if_neg fun h => has (List.forall_mem_cons.1 h).2]; rfl
    · rw [if_neg ha, if_neg fun h => ha (List.forall_mem_cons.1 h).1]; rfl

theorem nullable_of_ne {d : Decoder α} {j : Json} (hj : j ≠ .null) (room : Nat) :
    d.nullable room j = (d room j).map some := by
  unfold nullable
  split
  · exact absurd rfl hj
  · rfl

theorem nullable_reads {d : Decoder α} {j : Json} {a : Option α} (h : d.Reads j a) (hj : j ≠ .null) :
    d.nullable.Reads j (a.map some) := by
  intro room v
  rw [nullable_of_ne hj, h.eq_ite]
  split <;> simp [*]

theorem string_reads (s : String) : string.Reads (.text s) (some s) := fun room v => by
  simp [string, Json.text, Json.depth]

@[simp] theorem optionalText_none (room : Nat) : optionalText room none = some none := rfl

@[simp] theorem optionalText_some (room : Nat) (s : String) :
    optionalText room (some (.text s)) = some (some s) := rfl

theorem word_reads (n : UInt32) : word.Reads (.int n.toNat) (some n) := by
  intro room v
  have hn := n.toNat_lt
  have hint : Numeral.ofInt n.toNat = ⟨false, n.toNat, [], none⟩ := by simp [Numeral.ofInt]
  simp only [word, Json.int, hint, Numeral.toNat?, Json.depth, Nat.zero_le, true_and]
  rw [if_pos hn, Nat.toUInt32, UInt32.ofNat_toNat]

theorem choice_text (lenient : Bool) (names : List (String × α)) (room : Nat) (s : String) :
    choice lenient names room (.text s) = names.lookup s := rfl

end Decoder

end BadgeRules
