import BadgeRules.Rule.Basic

/-!
# Summaries

A rule in one line per award: `amount >= 100 AND (a OR b) => award B1 (Big Spender) x1`. The text of
a tree is put together from pieces (`Formula.pieces`): comparisons, and the words and marks between them.
-/

namespace BadgeRules

inductive Piece
  | leaf (comparison : Comparison)
  | word (op : Connective)
  | opening
  | closing
  | comma
  | blank

namespace Piece

def text : Piece → String
  | leaf c => c.text
  | word op => op.word
  | opening => "("
  | closing => ")"
  | comma => ","
  | blank => " "

end Piece

def joinPieces (separator : List Piece) : List (List Piece) → List Piece
  | [] => []
  | [ps] => ps
  | ps :: pss => ps ++ separator ++ joinPieces separator pss

/-- The text of a gate, given the texts of its operands. `NOT` is written in front of its operands,
the other connectives between them. -/
def gatePieces (op : Connective) (operands : List (List Piece)) : List Piece :=
  match op, operands with
  | .not, [ps] => [.word .not, .blank] ++ ps
  | .not, pss => [.word .not, .blank, .opening] ++ joinPieces [.comma, .blank] pss ++ [.closing]
  | op, [] => [.word op, .opening, .closing]
  | op, pss => joinPieces [.blank, .word op, .blank] pss

namespace Formula

/-- An operand with several operands of its own is put in parentheses. -/
def needsParens : Formula → Bool
  | .test _ => false
  | .gate _ fs => 1 < fs.length

def pieces : Formula → List Piece
  | .test c => [.leaf c]
  | .gate op fs => gatePieces op (operandPieces fs)
where
  /-- The texts of operands, in parentheses where needed. -/
  operandPieces : List Formula → List (List Piece)
    | [] => []
    | f :: fs =>
      (if f.needsParens then [.opening] ++ f.pieces ++ [.closing] else f.pieces) ::
        operandPieces fs

end Formula

def piecesText (ps : List Piece) : String := String.join (ps.map Piece.text)

def Formula.text (f : Formula) : String := piecesText f.pieces

/-- The text of the roots of a slot. Any of them will do, so they are joined by `OR`. -/
def guardPieces : List Formula → List Piece
  | [f] => f.pieces
  | fs => joinPieces [.blank, .word .or, .blank] (Formula.pieces.operandPieces fs)

def guardText (roots : List Formula) : String :=
  match roots with
  | [] => "(no conditions)"
  | roots => piecesText (guardPieces roots)

/-- `award B1 (Big Spender) x1` -/
def Award.text (a : Award) : String :=
  "award " ++ a.badge ++ (match a.name with | some n => " (" ++ n ++ ")" | none => "") ++ " x" ++
    toString a.quantity.toNat

namespace Rule

variable {P : Type}

def lines (r : Rule P) : List String :=
  r.guarded.map fun (a, roots) => guardText roots ++ " => " ++ a.text

def describe (r : Rule P) : String := "\n".intercalate r.lines

end Rule

end BadgeRules
