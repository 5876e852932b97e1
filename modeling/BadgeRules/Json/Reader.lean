import BadgeRules.Json.Token

/-!
# Reading documents

`Json.ofTokens?` builds a document from its tokens with a stack of unfinished arrays and objects,
one step a token, so that nesting of any depth can be read. `Json.parse?` reads a text.
-/

namespace BadgeRules.Json

/-- An unfinished array or object that awaits a value. What it has so far is in reverse. -/
inductive Frame
  | array (items : List Json)
  | object (members : List (Option String × Json)) (key : Option String)

inductive State
  | value (stack : List Frame)
  | opened (stack : List Frame)
  | openedObject (stack : List Frame)
  /-- A comma ended a member: a key has to follow. -/
  | key (members : List (Option String × Json)) (stack : List Frame)
  /-- A key was read: a colon has to follow. -/
  | colon (members : List (Option String × Json)) (key : Option String) (stack : List Frame)
  | ended (value : Json) (stack : List Frame)

namespace State

/-- A token where a value has to stand. -/
def begin (stack : List Frame) (t : Token) : Option State :=
  match t with
  | .atom a => some (.ended (.atom a) stack)
  | .openArray => some (.opened stack)
  | .openObject => some (.openedObject stack)
  | _ => none

def step (st : State) (t : Token) : Option State :=
  match st, t with
  | .value stack, t => begin stack t
  | .opened stack, .closeArray => some (.ended (.array []) stack)
  | .opened stack, t => begin (.array [] :: stack) t
  | .openedObject stack, .closeObject => some (.ended (.object []) stack)
  | .openedObject stack, .atom (.text k) => some (.colon [] k stack)
  | .key ms stack, .atom (.text k) => some (.colon ms k stack)
  | .colon ms k stack, .colon => some (.value (.object ms k :: stack))
  | .ended j (.array js :: stack), .comma => some (.value (.array (j :: js) :: stack))
  | .ended j (.array js :: stack), .closeArray => some (.ended (.array (j :: js).reverse) stack)
  | .ended j (.object ms k :: stack), .comma => some (.key ((k, j) :: ms) stack)
  | .ended j (.object ms k :: stack), .closeObject =>
    some (.ended (.object ((k, j) :: ms).reverse) stack)
  | _, _ => none

end State

def ofTokens? (ts : List Token) : Option Json :=
  match ts.foldlM State.step (.value []) with
  | some (.ended j []) => some j
  | _ => none

/-- Reads a text that holds one document, with blanks around it at most. -/
def parse? (text : String) : Option Json := (Token.scan text.toList).bind ofTokens?

end BadgeRules.Json
