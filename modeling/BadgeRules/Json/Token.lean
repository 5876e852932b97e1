import BadgeRules.Json.Basic
import BadgeRules.Json.Text

/-!
# Tokens of a document

`Token.scan` cuts a text into the tokens of a JSON document. Blanks between tokens are dropped.
-/

namespace BadgeRules

inductive Token
  | atom (value : Atom)
  | openArray
  | closeArray
  | openObject
  | closeObject
  | comma
  | colon
deriving DecidableEq

namespace Token

/-- The blanks of a document: space, tab, line feed and carriage return. -/
def isSpace (c : Char) : Bool := c == ' ' || c == '\t' || c == '\n' || c == '\r'

def dropWord (word cs : List Char) : Option (List Char) :=
  match word, cs with
  | [], cs => some cs
  | _ :: _, [] => none
  | w :: word, c :: cs => if w = c then dropWord word cs else none

/-- Reads the token at the front of a text that does not start with a blank. -/
def scanOne (cs : List Char) : Option (Token × List Char) :=
  match cs with
  | [] => none
  | '[' :: rest => some (.openArray, rest)
  | ']' :: rest => some (.closeArray, rest)
  | '\x7b' :: rest => some (.openObject, rest)
  | '\x7d' :: rest => some (.closeObject, rest)
  | ',' :: rest => some (.comma, rest)
  | ':' :: rest => some (.colon, rest)
  | '"' :: rest => (Json.scanText rest).map fun (s, rest) => (.atom (.text s), rest)
  | 'n' :: rest => (dropWord ['u', 'l', 'l'] rest).map fun rest => (.atom .null, rest)
  | 't' :: rest => (dropWord ['r', 'u', 'e'] rest).map fun rest => (.atom (.bool true), rest)
  | 'f' :: rest => (dropWord ['a', 'l', 's', 'e'] rest).map fun rest => (.atom (.bool false), rest)
  | cs => (Numeral.scan cs).map fun (n, rest) => (.atom (.number n), rest)

theorem length_dropWord {word cs rest : List Char} (h : dropWord word cs = some rest) :
    rest.length ≤ cs.length := by
  fun_induction dropWord word cs with
  | case1 => simp_all
  | case2 => simp at h
  | case3 w word cs ih => have := ih h; simp only [List.length_cons]; omega
  | case4 => simp at h

theorem length_scanOne {cs rest : List Char} {t : Token} (h : scanOne cs = some (t, rest)) :
    rest.length < cs.length := by
  unfold scanOne at h
  split at h
  all_goals try (simp only [Option.some.injEq, Prod.mk.injEq, reduceCtorEq] at h)
  all_goals try (obtain ⟨-, rfl⟩ := h; simp only [List.length_cons]; omega)
  · simp only [Option.map_eq_some_iff, Prod.mk.injEq] at h
    obtain ⟨⟨s, r⟩, h, -, rfl⟩ := h
    have := Json.length_scanText h
    simp only [List.length_cons]; omega
  iterate 3
    · simp only [Option.map_eq_some_iff, Prod.mk.injEq] at h
      obtain ⟨r, h, -, rfl⟩ := h
      have := length_dropWord h
      simp only [List.length_cons]; omega
  · simp only [Option.map_eq_some_iff, Prod.mk.injEq] at h
    obtain ⟨⟨n, r⟩, h, -, rfl⟩ := h
    exact Numeral.length_scan h

/-- The tokens of a text, after the tokens `ts` in reverse. -/
def scanOnto (ts : List Token) (cs : List Char) : Option (List Token) :=
  match cs with
  | [] => some ts.reverse
  | c :: cs =>
    if isSpace c then scanOnto ts cs
    else
      match _h : scanOne (c :: cs) with
      | some (t, rest) => scanOnto (t :: ts) rest
      | none => none
termination_by cs.length
decreasing_by
  · simp
  · exact length_scanOne _h

/-- The tokens of a text, unless something in it is no token. -/
def scan (cs : List Char) : Option (List Token) := scanOnto [] cs

end Token

end BadgeRules
