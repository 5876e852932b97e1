import BadgeRules.Proofs.Numbering
import BadgeRules.Rule.Summary

/-!
# Summaries can be read back

The text of a tree is read from its right end, with a stack of brackets that are still open
(`readPiece`): in this direction a `NOT` is met after its operand, and a word is known to join trees or to
stand in front of a bracket by what is right of it. A tree is read back up to gates that join a single
tree (`Formula.readsWhole`, `ofTokens?_pieces`), so texts that have the same tokens stand for the same
condition.
-/

namespace BadgeRules

/-! ### Tokens -/

def Piece.isBlank : Piece → Bool
  | .blank => true
  | _ => false

/-- What counts in a text: all but the blanks. A leaf is one token. -/
def tokens (ps : List Piece) : List Piece := ps.filter (!·.isBlank)

/-- What counts in the text of a guard, and nothing where it says that there are no conditions. -/
def guardTokens : List Formula → Option (List Piece)
  | [] => none
  | fs => some (tokens (guardPieces fs))

/-! ### What a text stands for -/

/-- The condition that any of the roots holds. -/
def anyOf? : List Formula → Option Formula
  | [] => none
  | [f] => some f
  | fs => some (.gate .or fs)

namespace Formula

/-- A gate with these operands; to join a single one by `AND`, `OR` or `XOR` takes no gate. -/
def joined (op : Connective) : List Formula → Formula
  | [f] => if op = .not then .gate .not [f] else f
  | fs => .gate op fs

/-- The same tree without the `AND`, `OR` and `XOR` gates that have a single operand. -/
def collapse : Formula → Formula
  | .test t => .test t
  | .gate op fs => joined op (collapseAll fs)
where
  collapseAll : List Formula → List Formula
    | [] => []
    | f :: fs => f.collapse :: collapseAll fs

theorem collapseAll_eq_map (fs : List Formula) : collapse.collapseAll fs = fs.map collapse := by
  induction fs with
  | nil => rfl
  | cons f fs ih => rw [collapse.collapseAll, ih, List.map_cons]

theorem collapse_gate (op : Connective) (fs : List Formula) :
    (gate op fs).collapse = joined op (fs.map collapse) := by rw [collapse, collapseAll_eq_map]

/-- The text of a tree as an operand. -/
def operandText (f : Formula) : List Piece :=
  if f.needsParens then [.opening] ++ f.pieces ++ [.closing] else f.pieces

theorem operandText_bare {f : Formula} (hf : f.needsParens = false) : f.operandText = f.pieces := by
  rw [operandText, if_neg (by simp [hf])]

theorem operandPieces_eq_map (fs : List Formula) : pieces.operandPieces fs = fs.map operandText := by
  induction fs with
  | nil => rfl
  | cons f fs ih => rw [pieces.operandPieces, ih]; rfl

/-- All connectives but `NOT` stand between their operands. -/
theorem gatePieces_between {op : Connective} (hop : op ≠ .not) (p : List Piece) (ps : List (List Piece)) :
    gatePieces op (p :: ps) = joinPieces [.blank, .word op, .blank] (p :: ps) := by
  cases op with
  | not => exact absurd rfl hop
  | and | or | xor => rfl

theorem pieces_gate (op : Connective) (fs : List Formula) :
    (gate op fs).pieces = gatePieces op (fs.map operandText) := by rw [pieces, operandPieces_eq_map]

end Formula

/-- What guards an award, up to gates that join a single tree. Nothing does if there are no roots. -/
def condition? (roots : List Formula) : Option Formula := (anyOf? roots).map Formula.collapse

/-- What guards the awards of a rule, in order. -/
def Rule.conditions {P : Type} (r : Rule P) : List (Option Formula) := r.guarded.map fun g => condition? g.2

/-! ### Reading from the right -/

/-- What was read last: a tree, or the trees in a bracket, for the word in front of it. -/
inductive Phrase
  | tree (f : Formula)
  | group (fs : List Formula)

/-- A bracket as far as it was read: the phrase at its left end, unless it starts with a separator or is
empty, and the trees after that, with the connective between them unless there are commas. -/
structure Bracket where
  phrase : Option Phrase := none
  separator : Option Connective := none
  trees : List Formula := []

/-- What a bracket holds when its left end is reached. -/
def Bracket.close : Bracket → Phrase
  | ⟨some (.tree f), _, []⟩ => .tree f
  | ⟨some (.tree f), some op, fs⟩ => .tree (.gate op (f :: fs))
  | ⟨some (.tree f), none, fs⟩ => .group (f :: fs)
  | ⟨_, _, fs⟩ => .group fs

/-- The brackets that are open after another piece, the innermost one first. -/
def readPiece : Piece → List Bracket → List Bracket
  | .leaf t, b :: bs => { b with phrase := some (.tree (.test t)) } :: bs
  | .word op, ⟨some (.group gs), s, fs⟩ :: bs => ⟨some (.tree (.gate op gs)), s, fs⟩ :: bs
  | .word .not, ⟨some (.tree f), s, fs⟩ :: bs => ⟨some (.tree (.gate .not [f])), s, fs⟩ :: bs
  | .word op, ⟨some (.tree f), _, fs⟩ :: bs => ⟨none, some op, f :: fs⟩ :: bs
  | .comma, ⟨some (.tree f), _, fs⟩ :: bs => ⟨none, none, f :: fs⟩ :: bs
  | .closing, bs => {} :: bs
  | .opening, b :: b' :: bs => { b' with phrase := some b.close } :: bs
  | _, bs => bs

def readPieces (ps : List Piece) (bs : List Bracket) : List Bracket := ps.foldr readPiece bs

/-- The tree that a text stands for. -/
def ofTokens? (ps : List Piece) : Option Formula :=
  match readPieces ps [{}] with
  | [b] =>
    match b.close with
    | .tree f => some f
    | .group _ => none
  | _ => none

section Reading

variable {bs : List Bracket}

theorem readPieces_append (ps qs : List Piece) (bs : List Bracket) :
    readPieces (ps ++ qs) bs = readPieces ps (readPieces qs bs) := List.foldr_append

theorem readPiece_blank (bs : List Bracket) : readPiece .blank bs = bs := by cases bs <;> rfl

theorem readPieces_between {op : Connective} (hop : op ≠ .not) {f : Formula} {s : Option Connective}
    {fs : List Formula} : readPieces [.blank, .word op, .blank] (⟨some (.tree f), s, fs⟩ :: bs) =
      ⟨none, some op, f :: fs⟩ :: bs := by
  cases op with
  | not => exact absurd rfl hop
  | and | or | xor => rfl

theorem readPieces_tokens (ps : List Piece) (bs : List Bracket) :
    readPieces (tokens ps) bs = readPieces ps bs := by
  induction ps with
  | nil => rfl
  | cons p ps ih =>
    cases p with
    | blank => exact ih.trans (readPiece_blank _).symm
    | leaf t => exact congrArg (readPiece (.leaf t)) ih
    | word op => exact congrArg (readPiece (.word op)) ih
    | opening => exact congrArg (readPiece .opening) ih
    | closing => exact congrArg (readPiece .closing) ih
    | comma => exact congrArg (readPiece .comma) ih

namespace Formula

/-- As an operand the tree is read as what it stands for. -/
def Reads (f : Formula) : Prop := ∀ s fs bs,
  readPieces f.operandText (⟨none, s, fs⟩ :: bs) = ⟨some (.tree f.collapse), s, fs⟩ :: bs

/-- In a bracket of its own the tree is read as what it stands for. -/
def ReadsWhole (f : Formula) : Prop := ∀ bs, ∃ b,
  readPieces f.pieces ({} :: bs) = b :: bs ∧ b.close = .tree f.collapse

variable {f g : Formula} {fs : List Formula} {op : Connective}

theorem Reads.whole (h : f.Reads) (hf : f.needsParens = false) : f.ReadsWhole := by
  intro bs
  have hread := h none [] bs
  rw [operandText_bare hf] at hread
  exact ⟨_, hread, rfl⟩

theorem ReadsWhole.reads (h : f.ReadsWhole) (hf : f.needsParens = true) : f.Reads := by
  intro s fs bs
  obtain ⟨b, hb, hclose⟩ := h (⟨none, s, fs⟩ :: bs)
  rw [operandText, if_pos hf, readPieces_append, readPieces_append]
  show readPiece .opening (readPieces f.pieces ({} :: ⟨none, s, fs⟩ :: bs)) = _
  rw [hb, readPiece, hclose]

theorem reads_test (t : Comparison) : (test t).Reads := fun _ _ _ => rfl

theorem reads_gate_nil (op : Connective) : (gate op []).Reads := by
  intro s fs bs
  rw [operandText_bare rfl, pieces_gate]
  cases op <;> rfl

theorem reads_gate_singleton (hf : f.Reads) : (gate op [f]).Reads := by
  intro s fs bs
  rw [operandText_bare rfl, pieces_gate, collapse_gate, List.map_singleton, List.map_singleton]
  by_cases hop : op = .not
  · subst hop
    show readPieces ([.word .not, .blank] ++ f.operandText) _ = _
    rw [readPieces_append, hf]
    rfl
  · rw [gatePieces_between hop, joinPieces, hf, joined, if_neg hop]

/-- Operands that a separator stands between are read from the last one on. -/
theorem read_join {sep : List Piece} {s : Option Connective}
    (hsep : ∀ f s' fs bs, readPieces sep (⟨some (.tree f), s', fs⟩ :: bs) = ⟨none, s, f :: fs⟩ :: bs)
    (hf : f.Reads) (hfs : ∀ g ∈ fs, g.Reads) (bs : List Bracket) :
    readPieces (joinPieces sep ((f :: fs).map operandText)) ({} :: bs) =
      ⟨some (.tree f.collapse), if fs.isEmpty then none else s, fs.map collapse⟩ :: bs := by
  induction fs generalizing f with
  | nil => exact hf none [] bs
  | cons g fs ih =>
    -- the operands after the first are read first, then the separator, which makes room for it
    have hrest := ih (hfs g List.mem_cons_self) fun h hh => hfs h (List.mem_cons_of_mem _ hh)
    show readPieces (f.operandText ++ sep ++ joinPieces sep ((g :: fs).map operandText)) _ = _
    rw [readPieces_append, readPieces_append, hrest, hsep, hf]
    rfl

theorem readsWhole_gate (hf : f.Reads) (hg : g.Reads) (hfs : ∀ h ∈ fs, h.Reads) :
    (gate op (f :: g :: fs)).ReadsWhole := by
  intro bs
  have hgs : ∀ h ∈ g :: fs, h.Reads := List.forall_mem_cons.2 ⟨hg, hfs⟩
  by_cases hop : op = .not
  · subst hop
    have hjoin : readPieces (joinPieces [.comma, .blank] ((f :: g :: fs).map operandText)) ({} :: {} :: bs) = _ :=
      read_join (fun _ _ _ _ => rfl) hf hgs ({} :: bs)
    refine ⟨⟨some (.tree (.gate .not ((f :: g :: fs).map collapse))), none, []⟩, ?_, by rw [collapse_gate]; rfl⟩
    rw [pieces_gate]
    show readPieces ([.word .not, .blank, .opening] ++
      joinPieces [.comma, .blank] ((f :: g :: fs).map operandText) ++ [.closing]) _ = _
    rw [readPieces_append, readPieces_append]
    show readPieces [.word .not, .blank, .opening] (readPieces _ ({} :: {} :: bs)) = _
    rw [hjoin]
    rfl
  · refine ⟨⟨some (.tree f.collapse), some op, (g :: fs).map collapse⟩, ?_, ?_⟩
    · rw [pieces_gate, List.map_cons, gatePieces_between hop]
      exact read_join (fun _ _ _ _ => readPieces_between hop) hf hgs bs
    · rw [collapse_gate]
      rfl

theorem reads_forest (fs : List Formula) : ∀ f ∈ fs, f.Reads := by
  induction fs using Formula.forest_induction with
  | nil => exact fun _ hf => (List.not_mem_nil hf).elim
  | test t fs ih => exact List.forall_mem_cons.2 ⟨reads_test t, ih⟩
  | gate op gs fs ihg ih =>
    refine List.forall_mem_cons.2 ⟨?_, ih⟩
    match gs, ihg with
    | [], _ => exact reads_gate_nil op
    | [g], ihg => exact reads_gate_singleton (ihg g List.mem_cons_self)
    | g :: h :: gs, ihg =>
      obtain ⟨hg, hh, hgs⟩ := by simpa only [List.forall_mem_cons] using ihg
      exact (readsWhole_gate hg hh hgs).reads (by simp [needsParens])

theorem reads (f : Formula) : f.Reads := reads_forest [f] f List.mem_cons_self

theorem readsWhole (f : Formula) : f.ReadsWhole := by
  match f with
  | .test t => exact (reads_test t).whole rfl
  | .gate op [] => exact (reads_gate_nil op).whole rfl
  | .gate op [g] => exact (reads_gate_singleton g.reads).whole rfl
  | .gate op (g :: h :: gs) => exact readsWhole_gate g.reads h.reads fun k _ => k.reads

end Formula

end Reading

theorem ofTokens?_pieces (f : Formula) : ofTokens? (tokens f.pieces) = some f.collapse := by
  obtain ⟨b, hb, hclose⟩ := f.readsWhole []
  rw [ofTokens?, readPieces_tokens, hb]
  simp only [hclose]

/-! ### Guards -/

theorem guardPieces_eq {fs : List Formula} {f : Formula} (h : anyOf? fs = some f) :
    guardPieces fs = f.pieces := by
  match fs, h with
  | [], h => cases h
  | [g], h => cases h; rfl
  | g :: g' :: gs, h => cases h; rfl

/-- A guard is read back from its tokens. -/
theorem bind_guardTokens (fs : List Formula) :
    (guardTokens fs).bind ofTokens? = condition? fs := by
  cases fs with
  | nil => rfl
  | cons g gs =>
    obtain ⟨f, hf⟩ : ∃ f, anyOf? (g :: gs) = some f := by
      cases gs with
      | nil => exact ⟨_, rfl⟩
      | cons g' gs => exact ⟨_, rfl⟩
    rw [condition?, hf, Option.map_some, ← ofTokens?_pieces, ← guardPieces_eq hf]
    rfl

/-- No pieces make up the words that stand for an empty guard: the small letters would have to be in a
leaf, and a leaf has two blanks. -/
theorem piecesText_ne_noConditions (ps : List Piece) : piecesText ps ≠ "(no conditions)" := by
  intro h
  have hchars : (ps.map fun p => p.text.toList).flatten = "(no conditions)".toList := by
    rw [← h, piecesText, String.toList_join, List.flatMap_map]
    rfl
  have hn : 'n' ∈ (ps.map fun p => p.text.toList).flatten := by rw [hchars]; decide
  obtain ⟨cs, hcs, hnp⟩ := List.mem_flatten.1 hn
  obtain ⟨p, hp, rfl⟩ := List.mem_map.1 hcs
  have hleaf : ∃ t, p = .leaf t := by
    cases p with
    | leaf t => exact ⟨t, rfl⟩
    | word op => exact absurd hnp (by cases op <;> decide)
    | opening | closing | comma | blank => exact absurd hnp (by decide)
  obtain ⟨t, rfl⟩ := hleaf
  have hblanks : 2 ≤ (Piece.leaf t).text.toList.count ' ' := by
    simp only [Piece.text, Comparison.text, String.toList_append, List.count_append]
    have hone : " ".toList.count ' ' = 1 := by decide
    omega
  have hcount := (List.sublist_flatten_of_mem hcs).count_le ' '
  rw [hchars] at hcount
  have hwords : "(no conditions)".toList.count ' ' = 1 := by decide
  omega

theorem guardText_eq_noConditions_iff (fs : List Formula) : guardText fs = "(no conditions)" ↔ fs = [] := by
  cases fs with
  | nil => exact ⟨fun _ => rfl, fun _ => rfl⟩
  | cons f fs => exact ⟨fun h => absurd h (piecesText_ne_noConditions _), nofun⟩

end BadgeRules
