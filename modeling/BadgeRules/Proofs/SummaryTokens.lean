import BadgeRules.Proofs.SummaryLines

/-!
# Summaries are unambiguous

A text in which every comparison counts as one sign is a list of `Glyph`s. Its tokens are comparisons,
brackets, commas and the four words (`lex`), and from the tokens of `Formula.text` the tree is read back, up to
gates that join a single tree (`Formula.collapse`). So two trees, or the guards of two awards, that are written
alike stand for the same condition, and so do two summaries, line by line, unless the badge or the name of an
award breaks a line (`summary_unambiguous`). Letter for letter it is not so: a field is written as it is, and
may hold a word and a blank (`describe_ambiguous`).
-/

namespace BadgeRules

/-! ### Texts with comparisons as signs -/

inductive Glyph
  | char (c : Char)
  | leaf (t : Comparison)

/-- The characters that the signs stand for. -/
def spelled (gs : List Glyph) : List Char :=
  gs.flatMap fun
    | .char c => [c]
    | .leaf t => t.text.toList

def glyphsOf (s : String) : List Glyph := s.toList.map .char

def Piece.glyphs : Piece → List Glyph
  | .leaf t => [.leaf t]
  | p => glyphsOf p.text

/-- The text of a tree with comparisons as signs. -/
def Formula.glyphs (f : Formula) : List Glyph := f.pieces.flatMap Piece.glyphs

def guardGlyphs : List Formula → List Glyph
  | [] => glyphsOf "(no conditions)"
  | fs => (guardPieces fs).flatMap Piece.glyphs

namespace Rule

variable {P : Type}

def glyphLine (g : Award × List Formula) : List Glyph :=
  guardGlyphs g.2 ++ glyphsOf " => " ++ glyphsOf g.1.text

def glyphLines (r : Rule P) : List (List Glyph) := r.guarded.map glyphLine

/-- The summary of a rule with comparisons as signs. -/
def glyphs (r : Rule P) : List Glyph := [.char '\n'].intercalate r.glyphLines

end Rule

theorem spelled_append (gs hs : List Glyph) : spelled (gs ++ hs) = spelled gs ++ spelled hs := List.flatMap_append

theorem spelled_glyphsOf (s : String) : spelled (glyphsOf s) = s.toList := by
  rw [spelled, glyphsOf, List.flatMap_map, List.flatMap_singleton']

theorem char_mem_glyphsOf {c : Char} {s : String} : .char c ∈ glyphsOf s ↔ c ∈ s.toList := by
  simp [glyphsOf]

theorem spelled_pieces (ps : List Piece) : spelled (ps.flatMap Piece.glyphs) = (piecesText ps).toList := by
  rw [spelled, List.flatMap_assoc, piecesText, String.toList_join, List.flatMap_map]
  refine List.flatMap_congr fun p _ => ?_
  cases p with
  | leaf t => exact List.append_nil _
  | word op => exact spelled_glyphsOf _
  | opening | closing | comma | blank => exact spelled_glyphsOf _

theorem spelled_guardGlyphs (fs : List Formula) : spelled (guardGlyphs fs) = (guardText fs).toList := by
  cases fs with
  | nil => exact spelled_glyphsOf _
  | cons f fs => exact spelled_pieces _

theorem spelled_intercalate (ls : List (List Glyph)) :
    spelled ([.char '\n'].intercalate ls) = ['\n'].intercalate (ls.map spelled) := by
  induction ls with
  | nil => rfl
  | cons l ls ih =>
    cases ls with
    | nil => rw [List.intercalate_singleton, List.map_singleton, List.intercalate_singleton]
    | cons l' ls =>
      rw [List.intercalate_cons_cons, spelled_append, spelled_append, ih, List.map_cons, List.map_cons, List.map_cons,
        List.intercalate_cons_cons]
      rfl

/-- The signs of a summary stand for the summary. -/
theorem Rule.spelled_glyphs {P : Type} (r : Rule P) : spelled r.glyphs = r.describe.toList := by
  rw [glyphs, spelled_intercalate, describe, String.toList_intercalate, glyphLines, lines_eq_map, List.map_map,
    List.map_map]
  refine congrArg _ (List.map_congr_left fun g _ => ?_)
  rw [Function.comp_apply, Function.comp_apply, glyphLine, spelled_append, spelled_append, spelled_guardGlyphs,
    spelled_glyphsOf, spelled_glyphsOf, String.toList_append, String.toList_append]

/-! ### Tokens -/

/-- The tokens of a text, unless it has other signs. Blanks do not count. -/
def lex : List Glyph → Option (List Piece)
  | [] => some []
  | .leaf t :: gs => (lex gs).map (.leaf t :: ·)
  | .char ' ' :: gs => lex gs
  | .char '(' :: gs => (lex gs).map (.opening :: ·)
  | .char ')' :: gs => (lex gs).map (.closing :: ·)
  | .char ',' :: gs => (lex gs).map (.comma :: ·)
  | .char 'A' :: .char 'N' :: .char 'D' :: gs => (lex gs).map (.word .and :: ·)
  | .char 'O' :: .char 'R' :: gs => (lex gs).map (.word .or :: ·)
  | .char 'X' :: .char 'O' :: .char 'R' :: gs => (lex gs).map (.word .xor :: ·)
  | .char 'N' :: .char 'O' :: .char 'T' :: gs => (lex gs).map (.word .not :: ·)
  | _ => none

theorem lex_pieces (ps : List Piece) : lex (ps.flatMap Piece.glyphs) = some (tokens ps) := by
  induction ps with
  | nil => rfl
  | cons p ps ih =>
    cases p with
    | blank => exact ih
    | leaf t => exact congrArg (Option.map (.leaf t :: ·)) ih
    | word op => cases op <;> exact congrArg (Option.map (_ :: ·)) ih
    | opening | closing | comma => exact congrArg (Option.map (_ :: ·)) ih

theorem lex_guardGlyphs (fs : List Formula) : lex (guardGlyphs fs) = guardTokens fs := by
  cases fs with
  | nil => rfl
  | cons f fs => exact lex_pieces _

/-- A guard is read back from its signs. -/
theorem bind_lex_guardGlyphs (fs : List Formula) : (lex (guardGlyphs fs)).bind ofTokens? = condition? fs := by
  rw [lex_guardGlyphs, bind_guardTokens]

/-! ### Lines -/

/-- The characters in which guards are written, apart from comparisons. -/
def guardChars : List Char := "(no conditions), AND OR XOR NOT".toList

theorem mem_guardChars_of_piece {p : Piece} {c : Char} (h : .char c ∈ p.glyphs) : c ∈ guardChars := by
  have hp : (∃ t, p = .leaf t) ∨ p.glyphs = glyphsOf p.text ∧ p.text.toList ⊆ guardChars := by
    cases p with
    | leaf t => exact .inl ⟨t, rfl⟩
    | word op => exact .inr ⟨rfl, by cases op <;> decide⟩
    | opening | closing | comma | blank => exact .inr ⟨rfl, by decide⟩
  rcases hp with ⟨t, rfl⟩ | ⟨hglyphs, hchars⟩
  · cases List.mem_singleton.1 h
  · rw [hglyphs, char_mem_glyphsOf] at h
    exact hchars h

theorem mem_guardChars {fs : List Formula} {c : Char} (h : .char c ∈ guardGlyphs fs) : c ∈ guardChars := by
  cases fs with
  | nil =>
    have hwords : "(no conditions)".toList ⊆ guardChars := by decide
    exact hwords (char_mem_glyphsOf.1 h)
  | cons f fs =>
    obtain ⟨p, -, hp⟩ := List.mem_flatMap.1 h
    exact mem_guardChars_of_piece hp

/-- Neither the badge nor its name breaks the line. -/
def Award.OneLine (a : Award) : Prop := ∀ t ∈ a.badge :: a.name.toList, '\n' ∉ t.toList

instance (a : Award) : Decidable a.OneLine := inferInstanceAs (Decidable (∀ t ∈ _, _))

theorem Award.OneLine.text {a : Award} (h : a.OneLine) : '\n' ∉ a.text.toList := by
  rw [← List.count_eq_zero, count_award (by decide), countIn_eq_zero_iff]
  exact h

namespace Rule

variable {P : Type} {r r' : Rule P}

theorem glyphLines_oneLine (h : ∀ a ∈ r.awards, a.OneLine) : ∀ l ∈ r.glyphLines, .char '\n' ∉ l := by
  refine List.forall_mem_map.2 fun g hg hmem => ?_
  have ha : g.1 ∈ r.awards := r.fst_guarded ▸ List.mem_map_of_mem hg
  rw [glyphLine, List.mem_append, List.mem_append, char_mem_glyphsOf, char_mem_glyphsOf] at hmem
  rcases hmem with (hguard | harrow) | haward
  · exact absurd (mem_guardChars hguard) (by decide)
  · exact absurd harrow (by decide)
  · exact (h _ ha).text haward

theorem glyphLines_nonempty : ∀ l ∈ r.glyphLines, (!l.isEmpty) = true :=
  List.forall_mem_map.2 fun g _ => by simp [glyphLine, glyphsOf]

open Classical in
/-- The lines of a summary are found where it is cut at its line feeds. -/
theorem glyphLines_eq (h : ∀ a ∈ r.awards, a.OneLine) :
    r.glyphLines = (r.glyphs.splitOn (.char '\n')).filter (!·.isEmpty) := by
  rcases eq_or_ne r.glyphLines [] with hnil | hne
  · rw [glyphs, hnil]
    rfl
  · rw [glyphs, List.splitOn_intercalate _ (glyphLines_oneLine h) hne, List.filter_eq_self.2 glyphLines_nonempty]

open Classical in
/-- A line says what guards the award in front of its first equals sign. -/
theorem guardGlyphs_of_line {g g' : Award × List Formula} (h : glyphLine g = glyphLine g') :
    guardGlyphs g.2 = guardGlyphs g'.2 := by
  have hsplit (g : Award × List Formula) : (glyphLine g).splitOn (.char '=') =
      (guardGlyphs g.2 ++ [.char ' ']) :: (glyphsOf "> " ++ glyphsOf g.1.text).splitOn (.char '=') := by
    have hguard : Glyph.char '=' ∉ guardGlyphs g.2 ++ [.char ' '] := by
      rw [List.mem_append, List.mem_singleton]
      rintro (hmem | heq)
      · exact absurd (mem_guardChars hmem) (by decide)
      · cases heq
    rw [← List.splitOn_append_cons_self_of_not_mem hguard, glyphLine, List.append_assoc, List.append_assoc]
    rfl
  have hheads := congrArg (List.head? <| ·.splitOn (.char '=')) h
  rw [hsplit, hsplit] at hheads
  exact List.append_cancel_right (Option.some_inj.1 hheads)

end Rule

/-- Trees whose texts have the same tokens are equal up to `Formula.collapse`, and so are the guards of slots, where
only a slot without roots has a text that is not read as tokens. Summaries that are alike are those of rules with
the same `Rule.conditions` if no badge and no name breaks a line. Throughout, a comparison is one sign of the text
that is printed (`spelled`). -/
theorem summary_unambiguous {P : Type} :
    (∀ f : Formula, spelled f.glyphs = f.text.toList ∧ (lex f.glyphs).isSome) ∧
      (∀ f g : Formula, lex f.glyphs = lex g.glyphs → f.collapse = g.collapse) ∧
      (∀ s : Slot, spelled (guardGlyphs s.roots) = (guardText s.roots).toList ∧
        (lex (guardGlyphs s.roots) = none ↔ s.roots = []) ∧
        (guardText s.roots = "(no conditions)" ↔ s.roots = [])) ∧
      (∀ s t : Slot, lex (guardGlyphs s.roots) = lex (guardGlyphs t.roots) →
        condition? s.roots = condition? t.roots) ∧
      (∀ r : Rule P, spelled r.glyphs = r.describe.toList) ∧
      ∀ r r' : Rule P, (∀ a ∈ r.awards, a.OneLine) → (∀ a ∈ r'.awards, a.OneLine) →
        r.glyphs = r'.glyphs → r.conditions = r'.conditions := by
  refine ⟨fun f => ?text, fun f g h => ?trees, fun s => ?guard, fun s t h => ?slots, Rule.spelled_glyphs,
    fun r r' hr hr' h => ?rules⟩
  case text => exact ⟨spelled_pieces _, by rw [Formula.glyphs, lex_pieces]; rfl⟩
  case trees =>
    have hread := congrArg (·.bind ofTokens?) h
    simp only [Formula.glyphs, lex_pieces, Option.bind_some, ofTokens?_pieces] at hread
    exact Option.some_inj.1 hread
  case guard =>
    refine ⟨spelled_guardGlyphs _, ?_, guardText_eq_noConditions_iff _⟩
    rw [lex_guardGlyphs]
    cases s.roots <;> simp [guardTokens]
  case slots => rw [← bind_lex_guardGlyphs, ← bind_lex_guardGlyphs, h]
  case rules =>
    have hlines : r.glyphLines = r'.glyphLines := by rw [Rule.glyphLines_eq hr, Rule.glyphLines_eq hr', h]
    rw [Rule.glyphLines, Rule.glyphLines, ← List.forall₂_eq_eq_eq, List.forall₂_map_left_iff,
      List.forall₂_map_right_iff] at hlines
    rw [Rule.conditions, Rule.conditions, ← List.forall₂_eq_eq_eq, List.forall₂_map_left_iff,
      List.forall₂_map_right_iff]
    refine hlines.imp fun g g' hline => ?_
    rw [← bind_lex_guardGlyphs, ← bind_lex_guardGlyphs, Rule.guardGlyphs_of_line hline]

/-- `member == true OR vip == true` is the text of one root and of two, with or without a gate that has nothing to
join. -/
theorem summary_unambiguous_roots :
    ∃ f g : Formula, ∃ r r' : Rule Position,
      lex f.glyphs = lex g.glyphs ∧ f.collapse = g.collapse ∧
      r.slots.map (·.roots.length) = [1] ∧ r'.slots.map (·.roots.length) = [2] ∧
      (∀ s ∈ r.slots, ∀ t ∈ r'.slots, lex (guardGlyphs s.roots) = lex (guardGlyphs t.roots) ∧
        condition? s.roots = condition? t.roots) ∧
      (∀ a ∈ r.awards, a.OneLine) ∧ (∀ a ∈ r'.awards, a.OneLine) ∧
      r.glyphs = r'.glyphs ∧ r.conditions = r'.conditions := by
  let member : Formula := .test ⟨"member", .equal, .single (.bool true)⟩
  let vip : Formula := .test ⟨"vip", .equal, .single (.bool true)⟩
  let f : Formula := .gate .or [member, .gate .and [vip]]
  let g : Formula := .gate .or [member, vip]
  let r : Rule Position := { id := "r1", name := "Gold", slots := [.single f], awards := [⟨"GOLD", none, 1⟩] }
  let r' : Rule Position := { r with slots := [.many [member, vip]] }
  have htokens : lex f.glyphs = lex g.glyphs := rfl
  have hslots : lex (guardGlyphs [f]) = lex (guardGlyphs [member, vip]) := rfl
  have hr : ∀ a ∈ r.awards, a.OneLine := by decide
  have hglyphs : r.glyphs = r'.glyphs := rfl
  obtain ⟨-, htrees, -, hguards, -, hrules⟩ := summary_unambiguous (P := Position)
  refine ⟨f, g, r, r', htokens, htrees f g htokens, rfl, rfl, ?_, hr, hr, hglyphs, hrules r r' hr hr hglyphs⟩
  intro s hs t ht
  rw [List.mem_singleton.1 hs, List.mem_singleton.1 ht]
  exact ⟨hslots, hguards (.single f) (.many [member, vip]) hslots⟩

/-- A field may hold what joins two comparisons, and a badge what ends a line and starts another one. -/
theorem describe_ambiguous :
    (∃ r r' : Rule Position, r.describe = r'.describe ∧ '\n' ∉ r.describe.toList ∧ r.conditions ≠ r'.conditions) ∧
      ∃ r r' : Rule Position, r.glyphs = r'.glyphs ∧ r.describe = r'.describe ∧ r.conditions ≠ r'.conditions := by
  let member : Formula := .test ⟨"member", .equal, .single (.bool true)⟩
  let vip : Formula := .test ⟨"vip", .equal, .single (.bool true)⟩
  let both : Formula := .test ⟨"vip == true AND member", .equal, .single (.bool true)⟩
  let r : Rule Position :=
    { id := "r1", name := "Gold", slots := [.single both], awards := [⟨"GOLD", none, 1⟩] }
  let s : Rule Position :=
    { r with slots := [.single vip], awards := [⟨"GOLD x1\n(no conditions) => award PLATINUM", none, 1⟩] }
  refine ⟨⟨r, { r with slots := [.single (.gate .and [vip, member])] }, by decide +kernel, by decide +kernel, ?_⟩,
    s, { s with awards := [⟨"GOLD", none, 1⟩, ⟨"PLATINUM", none, 1⟩] }, by cbv, by decide +kernel, ?_⟩
  · intro h
    cases h
  · intro h
    cases h

end BadgeRules
