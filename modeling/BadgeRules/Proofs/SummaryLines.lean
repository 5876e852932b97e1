import BadgeRules.Proofs.OperandTexts
import BadgeRules.Proofs.ReadingSummaries

/-!
# The lines of a summary

A summary has one line for each award as long as no text that stands in it as it is has a line break: the
field of a comparison, and the badge and the name of an award (`Rule.bareTexts`). Each line break in one of
them makes one more line (`Rule.lines_describe`). All else shows on the line it stands on (`Visible`): in the
text of an operand a line break is written as an escape (`Operand.visible`).
-/

namespace BadgeRules

/-! ### Characters that show -/

/-- Every character leaves a mark on the line. -/
def Visible (cs : List Char) : Prop := ∀ c ∈ cs, isUnseen c = false

instance (cs : List Char) : Decidable (Visible cs) :=
  decidable_of_iff (cs.all (!isUnseen ·) = true) (by simp [Visible])

section Visible

variable {cs ds : List Char} {c : Char}

theorem visible_append : Visible (cs ++ ds) ↔ Visible cs ∧ Visible ds := List.forall_mem_append

theorem visible_cons : Visible (c :: cs) ↔ isUnseen c = false ∧ Visible cs := List.forall_mem_cons

theorem visible_flatMap {f : Char → List Char} (h : ∀ c, Visible (f c)) : Visible (cs.flatMap f) :=
  List.forall_mem_flatMap.2 fun c _ => h c

theorem Visible.count_eq_zero (h : Visible cs) (hc : isUnseen c = true) : cs.count c = 0 := by
  refine List.count_eq_zero.2 fun hmem => ?_
  rw [h c hmem] at hc
  cases hc

theorem visible_of_plain (h : cs ⊆ plainChars) : Visible cs := by
  have hplain : Visible plainChars := by decide
  exact fun c hc => hplain c (h hc)

end Visible

theorem visible_toDigits {b : Nat} (hb : 1 < b) (hb' : b ≤ 16) (n : Nat) : Visible (Nat.toDigits b n) := by
  intro c hc
  obtain ⟨d, rfl⟩ := exists_digit_of_mem_toDigits hb hb' c hc
  have hdigit : ∀ d : Fin 16, isUnseen (Nat.digitChar d) = false := by decide
  exact hdigit d

theorem visible_toString (n : Nat) : Visible (toString n).toList := by
  rw [Nat.toString_eq_repr, Nat.toList_repr]
  exact visible_toDigits (by decide) (by decide) n

theorem visible_quotedChar (c : Char) : Visible (quotedChar c) := by
  unfold quotedChar
  split
  iterate 6 decide
  split
  · simp only [visible_append]
    exact ⟨⟨by decide, visible_toDigits (by decide) (by decide) _⟩, by decide⟩
  · next hseen => exact List.forall_mem_singleton.2 (Bool.not_eq_true _ ▸ hseen)

theorem visible_quoted (s : String) : Visible (quoted s) := by
  rw [quoted, List.cons_append, visible_cons, visible_append]
  exact ⟨rfl, visible_flatMap visible_quotedChar, by decide⟩

theorem Scalar.visible (s : Scalar) : Visible s.chars := by
  rw [← s.chars_lexeme]
  rcases s.lexeme.chars_cases with ⟨t, h⟩ | ⟨-, hplain⟩
  · rw [h]
    exact visible_quoted t
  · exact visible_of_plain hplain

namespace Operand

theorem visible_joined (ss : List Scalar) : Visible (joined ss) := by
  fun_induction joined ss with
  | case1 => exact List.forall_mem_nil _
  | case2 s => exact s.visible
  | case3 s ss _ ih =>
    simp only [visible_append]
    exact ⟨⟨s.visible, by decide⟩, ih⟩

/-- Whatever texts it holds, an operand is written on one line. -/
theorem visible (o : Operand) : Visible o.chars := by
  cases o with
  | single s => exact s.visible
  | list ss =>
    rw [chars, List.cons_append, visible_cons, visible_append]
    exact ⟨rfl, visible_joined ss, by decide⟩

end Operand

/-! ### What stands in a summary as it is -/

/-- How often a character stands in the texts. -/
def countIn (x : Char) (ts : List String) : Nat := (ts.map (·.toList.count x)).sum

theorem countIn_append (x : Char) (ts us : List String) : countIn x (ts ++ us) = countIn x ts + countIn x us := by
  rw [countIn, List.map_append, List.sum_append]
  rfl

theorem countIn_eq_zero_iff {x : Char} {ts : List String} : countIn x ts = 0 ↔ ∀ t ∈ ts, x ∉ t.toList := by
  rw [countIn, List.sum_eq_zero_iff, List.forall_mem_map]
  simp only [List.count_eq_zero]

/-- The field that a piece names, if it is a leaf. -/
def Piece.fields : Piece → List String
  | .leaf t => [t.field]
  | _ => []

namespace Formula

/-- The fields of the comparisons in a tree, from left to right. -/
def fields : Formula → List String
  | .test t => [t.field]
  | .gate _ fs => fieldsOf fs
where
  fieldsOf : List Formula → List String
    | [] => []
    | f :: fs => f.fields ++ fieldsOf fs

end Formula

open Formula.fields

theorem fields_joinPieces {sep : List Piece} (hsep : sep.flatMap Piece.fields = []) (pss : List (List Piece)) :
    (joinPieces sep pss).flatMap Piece.fields = pss.flatMap (·.flatMap Piece.fields) := by
  fun_induction joinPieces sep pss with
  | case1 => rfl
  | case2 ps => simp
  | case3 ps pss _ ih => rw [List.flatMap_append, List.flatMap_append, hsep, ih, List.append_nil, List.flatMap_cons]

theorem fields_gatePieces (op : Connective) (pss : List (List Piece)) :
    (gatePieces op pss).flatMap Piece.fields = pss.flatMap (·.flatMap Piece.fields) := by
  unfold gatePieces
  split
  · simp [Piece.fields]
  · simp [Piece.fields, fields_joinPieces]
  · rfl
  · exact fields_joinPieces rfl _

theorem fields_operandText (f : Formula) :
    f.operandText.flatMap Piece.fields = f.pieces.flatMap Piece.fields := by
  unfold Formula.operandText
  split
  · simp [Piece.fields]
  · rfl

/-- The pieces of a tree name the fields of its comparisons and nothing else. -/
theorem fields_pieces (fs : List Formula) : fs.flatMap (·.pieces.flatMap Piece.fields) = fieldsOf fs := by
  induction fs using Formula.forest_induction with
  | nil => rfl
  | test t fs ih => rw [List.flatMap_cons, ih]; rfl
  | gate op gs fs ihg ih =>
    rw [List.flatMap_cons, ih, Formula.pieces_gate, fields_gatePieces, List.flatMap_map]
    simp only [fields_operandText, ihg]
    rfl

theorem fields_guardPieces (fs : List Formula) : (guardPieces fs).flatMap Piece.fields = fieldsOf fs := by
  unfold guardPieces
  split
  · rw [← fields_pieces, List.flatMap_singleton]
  · rw [fields_joinPieces rfl, Formula.operandPieces_eq_map, List.flatMap_map, ← fields_pieces]
    simp only [fields_operandText]

/-- Apart from the leaves all pieces are words and marks. -/
theorem Piece.visible {p : Piece} (hp : p.fields = []) : Visible p.text.toList := by
  cases p with
  | leaf t => cases hp
  | word op => cases op <;> decide
  | opening | closing | comma | blank => decide

section Count

variable {x : Char} (hx : isUnseen x = true)
include hx

theorem count_comparison (t : Comparison) : t.text.toList.count x = t.field.toList.count x := by
  have hsymbol : Visible t.operator.symbol.toList := by cases t.operator <;> decide
  have hblank : Visible " ".toList := by decide
  have hoperand : Visible t.operand.text.toList := by
    rw [Operand.text, String.toList_ofList]
    exact t.operand.visible
  simp only [Comparison.text, String.toList_append, List.count_append, hsymbol.count_eq_zero hx,
    hblank.count_eq_zero hx, hoperand.count_eq_zero hx, Nat.add_zero]

theorem count_piece (p : Piece) : p.text.toList.count x = countIn x p.fields := by
  cases p with
  | leaf t => exact count_comparison hx t
  | word op => exact (Piece.visible rfl).count_eq_zero hx
  | opening | closing | comma | blank => exact (Piece.visible rfl).count_eq_zero hx

theorem count_pieces (ps : List Piece) : (piecesText ps).toList.count x = countIn x (ps.flatMap Piece.fields) := by
  rw [piecesText, String.toList_join, List.flatMap_map]
  induction ps with
  | nil => rfl
  | cons p ps ih => rw [List.flatMap_cons, List.flatMap_cons, List.count_append, countIn_append, count_piece hx, ih]

theorem count_guardText (roots : List Formula) : (guardText roots).toList.count x = countIn x (fieldsOf roots) := by
  unfold guardText
  split
  · have hwords : Visible "(no conditions)".toList := by decide
    exact hwords.count_eq_zero hx
  · rw [count_pieces hx, fields_guardPieces]

theorem count_award (a : Award) : a.text.toList.count x = countIn x (a.badge :: a.name.toList) := by
  have hverb : Visible "award ".toList := by decide
  have htimes : Visible " x".toList := by decide
  have hnumber := visible_toString a.quantity.toNat
  simp only [Award.text, String.toList_append, List.count_append, hverb.count_eq_zero hx, htimes.count_eq_zero hx,
    hnumber.count_eq_zero hx, Nat.zero_add, Nat.add_zero]
  cases a.name with
  | none => rfl
  | some n =>
    have hopening : Visible " (".toList := by decide
    have hclosing : Visible ")".toList := by decide
    simp only [String.toList_append, List.count_append, hopening.count_eq_zero hx, hclosing.count_eq_zero hx,
      Nat.zero_add, Nat.add_zero]
    rfl

end Count

/-! ### Lines -/

def cutLines : List Char → List (List Char)
  | [] => []
  | c :: cs => if c = '\n' then [] :: cutLines cs else (c :: (cutLines cs).headD []) :: (cutLines cs).tail

/-- The lines of a text. A line feed ends a line; at the end of the text it may be left out. -/
def textLines (s : String) : List String := (cutLines s.toList).map String.ofList

section Lines

variable {cs : List Char} {c : Char}

theorem cutLines_ne_nil (h : cs ≠ []) : cutLines cs ≠ [] := by
  cases cs with
  | nil => exact absurd rfl h
  | cons c cs => rw [cutLines]; split <;> exact List.cons_ne_nil _ _

theorem cutLines_append (hc : c ≠ '\n') (cs ds : List Char) :
    cutLines (cs ++ c :: '\n' :: ds) = cutLines (cs ++ [c]) ++ cutLines ds := by
  induction cs with
  | nil => simp [cutLines, hc]
  | cons d cs ih =>
    have hne : cs ++ [c] ≠ [] := by simp
    obtain ⟨l, ls, hl⟩ := List.exists_cons_of_ne_nil (cutLines_ne_nil hne)
    rw [List.cons_append, List.cons_append, cutLines, cutLines, ih, hl]
    split <;> rfl

theorem length_cutLines (hc : c ≠ '\n') (cs : List Char) :
    (cutLines (cs ++ [c])).length = cs.count '\n' + 1 := by
  induction cs with
  | nil => simp [cutLines, hc]
  | cons d cs ih =>
    rw [List.cons_append, cutLines, List.count_cons]
    split
    · next hd => simp [hd, ih]
    · next hd =>
      simp [hd]
      omega

theorem cutLines_eq_singleton (hne : cs ≠ []) (h : '\n' ∉ cs) : cutLines cs = [cs] := by
  induction cs with
  | nil => exact absurd rfl hne
  | cons c cs ih =>
    obtain ⟨hc, hcs⟩ := not_or.1 (mt List.mem_cons.2 h)
    rw [cutLines, if_neg (Ne.symm hc)]
    cases cs with
    | nil => rfl
    | cons d ds => rw [ih (List.cons_ne_nil _ _) hcs]; rfl

end Lines

/-- The last character is there, and it shows. -/
def EndsVisibly (s : String) : Prop := ∃ cs c, s.toList = cs ++ [c] ∧ isUnseen c = false

theorem ne_lineFeed_of_seen {c : Char} (h : isUnseen c = false) : c ≠ '\n' := by
  rintro rfl
  exact absurd h (by decide)

theorem EndsVisibly.append_left {t : String} (h : EndsVisibly t) (s : String) : EndsVisibly (s ++ t) := by
  obtain ⟨cs, c, ht, hc⟩ := h
  exact ⟨s.toList ++ cs, c, by rw [String.toList_append, ht, List.append_assoc], hc⟩

/-- An award ends with a digit, that of how often it is given. -/
theorem Award.text_endsVisibly (a : Award) : EndsVisibly a.text := by
  refine EndsVisibly.append_left (t := toString a.quantity.toNat) ?_ _
  have hvisible := visible_toString a.quantity.toNat
  have hne : (toString a.quantity.toNat).toList ≠ [] := by
    rw [Nat.toString_eq_repr, Nat.toList_repr]
    exact Nat.toDigits_ne_nil
  obtain ⟨cs, c, hcs⟩ := (List.eq_nil_or_concat _).resolve_left hne
  rw [hcs, List.concat_eq_append] at hvisible
  exact ⟨cs, c, hcs.trans List.concat_eq_append, hvisible c (by simp)⟩

section TextLines

variable {s : String}

theorem length_textLines (h : EndsVisibly s) : (textLines s).length = s.toList.count '\n' + 1 := by
  obtain ⟨cs, c, hs, hc⟩ := h
  have hne := ne_lineFeed_of_seen hc
  rw [textLines, List.length_map, hs, length_cutLines hne, List.count_append, List.count_singleton]
  simp [hne]

theorem textLines_eq_singleton (h : EndsVisibly s) (hs : '\n' ∉ s.toList) : textLines s = [s] := by
  obtain ⟨cs, c, hcs, -⟩ := h
  rw [textLines, cutLines_eq_singleton (by simp [hcs]) hs, List.map_singleton, String.ofList_toList]

/-- Joined by line feeds, the texts keep their lines. -/
theorem textLines_intercalate {ls : List String} (h : ∀ l ∈ ls, EndsVisibly l) :
    textLines ("\n".intercalate ls) = ls.flatMap textLines := by
  induction ls with
  | nil => rfl
  | cons l ls ih =>
    obtain ⟨hl, hls⟩ := List.forall_mem_cons.1 h
    cases ls with
    | nil => rw [String.intercalate_singleton, List.flatMap_singleton]
    | cons l' ls =>
      obtain ⟨cs, c, hcs, hc⟩ := hl
      have hfeed : "\n".toList = ['\n'] := rfl
      rw [String.intercalate_cons_cons, List.flatMap_cons, ← ih hls, textLines, textLines, textLines,
        String.toList_append, String.toList_append, hcs, hfeed, List.append_assoc, List.append_assoc,
        List.singleton_append, List.singleton_append, cutLines_append (ne_lineFeed_of_seen hc), List.map_append]

end TextLines

namespace Rule

variable {P : Type}

/-- The texts that stand in the line of an award as they are. -/
def bareTextsOf (g : Award × List Formula) : List String := fieldsOf g.2 ++ g.1.badge :: g.1.name.toList

/-- The texts that stand in the summary of a rule as they are, award by award. -/
def bareTexts (r : Rule P) : List String := r.guarded.flatMap bareTextsOf

theorem lines_eq_map (r : Rule P) : r.lines = r.guarded.map fun g => guardText g.2 ++ " => " ++ g.1.text := rfl

theorem endsVisibly_of_mem_lines {r : Rule P} : ∀ l ∈ r.lines, EndsVisibly l :=
  List.forall_mem_map.2 fun g _ => g.1.text_endsVisibly.append_left _

theorem count_line {x : Char} (hx : isUnseen x = true) (g : Award × List Formula) :
    (guardText g.2 ++ " => " ++ g.1.text).toList.count x = countIn x (bareTextsOf g) := by
  have harrow : Visible " => ".toList := by decide
  rw [String.toList_append, String.toList_append, List.count_append, List.count_append, count_guardText hx,
    harrow.count_eq_zero hx, count_award hx, bareTextsOf, countIn_append, Nat.add_zero]

/-- A line feed in a text that stands in the summary as it is makes one more line. -/
theorem length_lines_describe (r : Rule P) :
    (textLines r.describe).length = r.awards.length + countIn '\n' r.bareTexts := by
  rw [describe, textLines_intercalate endsVisibly_of_mem_lines, lines_eq_map, List.flatMap_map, bareTexts,
    ← length_guarded]
  induction r.guarded with
  | nil => rfl
  | cons g gs ih =>
    have hline := length_textLines (g.1.text_endsVisibly.append_left (guardText g.2 ++ " => "))
    rw [count_line (by decide)] at hline
    rw [List.flatMap_cons, List.length_append, ih, hline, List.flatMap_cons, countIn_append, List.length_cons]
    omega

theorem getElem?_lines (r : Rule P) (i : Nat) :
    r.lines[i]? = r.awards[i]?.map fun a => guardText (r.rootsAt i) ++ " => " ++ a.text := by
  rw [lines_eq_map, List.getElem?_map, getElem?_guarded, Option.map_map]
  rfl

/-- Line `i` of `Rule.lines` says what guards award `i`, and the award. The `textLines` of `describe` are those of all
of these: one for each award, and one more for each line feed in the `bareTexts`. So `describe` has a line for
each award, and these lines, exactly if there is no such line feed. -/
theorem lines_describe (r : Rule P) :
    (∀ i, r.lines[i]? = r.awards[i]?.map fun a => guardText (r.rootsAt i) ++ " => " ++ a.text) ∧
      textLines r.describe = r.lines.flatMap textLines ∧
      (textLines r.describe).length = r.awards.length + countIn '\n' r.bareTexts ∧
      ((textLines r.describe).length = r.awards.length ↔ ∀ t ∈ r.bareTexts, '\n' ∉ t.toList) ∧
      (textLines r.describe = r.lines ↔ ∀ t ∈ r.bareTexts, '\n' ∉ t.toList) := by
  have hlines : textLines r.describe = r.lines.flatMap textLines := textLines_intercalate endsVisibly_of_mem_lines
  have hlength := r.length_lines_describe
  have hone : (textLines r.describe).length = r.awards.length ↔ ∀ t ∈ r.bareTexts, '\n' ∉ t.toList := by
    rw [← countIn_eq_zero_iff, hlength]
    omega
  refine ⟨r.getElem?_lines, hlines, hlength, hone, fun h => ?_, fun h => ?_⟩
  · rw [← hone, h, lines_eq_map, List.length_map, length_guarded]
  · have hsingle : ∀ l ∈ r.lines, textLines l = [l] := by
      intro l hl
      refine textLines_eq_singleton (endsVisibly_of_mem_lines l hl) ?_
      obtain ⟨g, hg, rfl⟩ := List.mem_map.1 hl
      rw [← List.count_eq_zero, count_line (by decide), countIn_eq_zero_iff]
      exact fun t ht => h t (List.mem_flatMap.2 ⟨g, hg, ht⟩)
    rw [hlines, List.flatMap_congr hsingle, List.flatMap_singleton']

/-- A badge can be spelled such that one award reads as two. The line feed in the operand is escaped. -/
theorem lines_describe_forged :
    ∃ r r' : Rule Position, r.awards.length = 1 ∧ r'.awards.length = 2 ∧ r.describe = r'.describe ∧
      (textLines r.describe).length = 2 ∧ textLines r.describe ≠ r.lines ∧ textLines r'.describe = r'.lines := by
  let gold : Slot := .single (.test ⟨"tier", .equal, .single (.text "go\nld")⟩)
  let r : Rule Position :=
    { id := "r1", name := "Gold", slots := [gold],
      awards := [⟨"GOLD x1\n(no conditions) => award PLATINUM", none, 1⟩] }
  let r' : Rule Position := { r with awards := [⟨"GOLD", none, 1⟩, ⟨"PLATINUM", none, 1⟩] }
  obtain ⟨-, -, hlength, -, hlines⟩ := lines_describe r
  obtain ⟨-, -, -, -, hlines'⟩ := lines_describe r'
  exact ⟨r, r', rfl, rfl, by decide +kernel, hlength.trans (by decide), mt hlines.1 (by decide),
    hlines'.2 (by decide)⟩

end Rule

end BadgeRules
