import BadgeRules.Json.Token

/-!
# Writing documents

A document is written on one line (`compact`), or with every item and member on a line of its own
(`pretty`). Empty arrays and objects are two brackets in both.
-/

namespace BadgeRules

def Atom.chars : Atom → List Char
  | .null => "null".toList
  | .bool true => "true".toList
  | .bool false => "false".toList
  | .number n => n.chars
  | .text s => Json.textChars s

namespace Json

inductive Style
  | compact
  | pretty
deriving DecidableEq

namespace Style

/-- The break in front of a line at nesting level `n`. -/
def newline (style : Style) (n : Nat) : List Char :=
  match style with
  | compact => []
  | pretty => '\n' :: List.replicate (2 * n) ' '

def colon (style : Style) : List Char :=
  match style with
  | compact => [':']
  | pretty => [':', ' ']

end Style

def render (style : Style) (n : Nat) : Json → List Char
  | .atom a => a.chars
  | .array [] => ['[', ']']
  | .array (j :: js) =>
    '[' :: (style.newline (n + 1) ++ (j.render style (n + 1) ++ moreItems style n js))
  | .object [] => ['\x7b', '\x7d']
  | .object ((k, j) :: ms) =>
    '\x7b' :: (style.newline (n + 1) ++ (textChars k ++ (style.colon ++
      (j.render style (n + 1) ++ moreMembers style n ms))))
where
  moreItems (style : Style) (n : Nat) : List Json → List Char
    | [] => style.newline n ++ [']']
    | j :: js =>
      ',' :: (style.newline (n + 1) ++ (j.render style (n + 1) ++ moreItems style n js))
  moreMembers (style : Style) (n : Nat) : List (Option String × Json) → List Char
    | [] => style.newline n ++ ['\x7d']
    | (k, j) :: ms =>
      ',' :: (style.newline (n + 1) ++ (textChars k ++ (style.colon ++
        (j.render style (n + 1) ++ moreMembers style n ms))))

def compact (j : Json) : String := String.ofList (j.render .compact 0)

def pretty (j : Json) : String := String.ofList (j.render .pretty 0)

end Json

end BadgeRules
