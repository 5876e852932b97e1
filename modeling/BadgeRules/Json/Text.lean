/-!
# Strings of a document

`scanText` reads a string after its opening quote, `textChars` writes one with its quotes.
Escapes can name halves of a surrogate pair; two that belong together are one character, and a
string with a half left over has no content (`none`).
-/

namespace BadgeRules.Json

/-! ### Reading -/

def hexDigit? (c : Char) : Option Nat :=
  if '0' ≤ c ∧ c ≤ '9' then some (c.toNat - '0'.toNat)
  else if 'a' ≤ c ∧ c ≤ 'f' then some (c.toNat - 'a'.toNat + 10)
  else if 'A' ≤ c ∧ c ≤ 'F' then some (c.toNat - 'A'.toNat + 10)
  else none

def escapes : List (Char × Char) :=
  [('"', '"'), ('\\', '\\'), ('/', '/'), ('b', '\x08'), ('f', '\x0c'), ('n', '\n'), ('r', '\r'),
    ('t', '\t')]

def scanEscape (cs : List Char) : Option (Nat × List Char) :=
  match cs with
  | 'u' :: a :: b :: c :: d :: rest => do
    let a ← hexDigit? a
    let b ← hexDigit? b
    let c ← hexDigit? c
    let d ← hexDigit? d
    return (0x1000 * a + 0x100 * b + 0x10 * c + d, rest)
  | c :: rest => (escapes.lookup c).map fun e => (e.toNat, rest)
  | [] => none

theorem length_scanEscape {cs rest : List Char} {u : Nat} (h : scanEscape cs = some (u, rest)) :
    rest.length < cs.length := by
  unfold scanEscape at h
  split at h
  · simp only [Option.bind_eq_bind, Option.bind_eq_some_iff, Option.pure_def, Option.some.injEq,
      Prod.mk.injEq] at h
    obtain ⟨_, _, _, _, _, _, _, _, _, rfl⟩ := h
    simp only [List.length_cons]; omega
  · simp only [Option.map_eq_some_iff, Prod.mk.injEq] at h
    obtain ⟨_, _, _, rfl⟩ := h
    simp
  · simp at h

/-- Reads on to the closing quote, after the code units `units` in reverse. Control characters
have to be escaped. -/
def scanUnits (units : List Nat) (cs : List Char) : Option (List Nat × List Char) :=
  match cs with
  | [] => none
  | c :: cs =>
    if c = '"' then some (units.reverse, cs)
    else if c = '\\' then
      match _h : scanEscape cs with
      | some (u, rest) => scanUnits (u :: units) rest
      | none => none
    else if c.toNat < 0x20 then none
    else scanUnits (c.toNat :: units) cs
termination_by cs.length
decreasing_by
  · have := length_scanEscape _h; simp only [List.length_cons]; omega
  · simp

theorem length_scanUnits {units us : List Nat} {cs rest : List Char}
    (h : scanUnits units cs = some (us, rest)) : rest.length < cs.length := by
  fun_induction scanUnits units cs with
  | case1 => simp at h
  | case2 => simp_all
  | case3 units cs u rest' he _ ih =>
    have := ih h
    have := length_scanEscape he
    simp only [List.length_cons]; omega
  | case4 => simp at h
  | case5 => simp at h
  | case6 units c cs _ _ _ ih => have := ih h; simp only [List.length_cons]; omega

def isHighSurrogate (u : Nat) : Bool := 0xD800 ≤ u && u < 0xDC00

def isLowSurrogate (u : Nat) : Bool := 0xDC00 ≤ u && u < 0xE000

/-- The characters of code units, after the characters `cs` in reverse. -/
def joinUnits (cs : List Char) (us : List Nat) : Option (List Char) :=
  match us with
  | [] => some cs.reverse
  | [u] => if isHighSurrogate u || isLowSurrogate u then none else some (Char.ofNat u :: cs).reverse
  | u :: v :: us =>
    if isHighSurrogate u then
      if isLowSurrogate v then
        joinUnits (Char.ofNat (0x10000 + 0x400 * (u - 0xD800) + (v - 0xDC00)) :: cs) us
      else none
    else if isLowSurrogate u then none
    else joinUnits (Char.ofNat u :: cs) (v :: us)

def scanText (cs : List Char) : Option (Option String × List Char) :=
  (scanUnits [] cs).map fun (us, rest) => ((joinUnits [] us).map String.ofList, rest)

theorem length_scanText {s : Option String} {cs rest : List Char}
    (h : scanText cs = some (s, rest)) : rest.length < cs.length := by
  simp only [scanText, Option.map_eq_some_iff, Prod.mk.injEq] at h
  obtain ⟨⟨us, r⟩, h, -, rfl⟩ := h
  exact length_scanUnits h

/-! ### Writing -/

def controlChars (c : Char) : List Char :=
  ['\\', 'u', '0', '0', Nat.digitChar (c.toNat / 16), Nat.digitChar (c.toNat % 16)]

/-- Quotes, backslashes and control characters are escaped, and nothing else. -/
def textChar (c : Char) : List Char :=
  match c with
  | '"' => ['\\', '"']
  | '\\' => ['\\', '\\']
  | '\x08' => ['\\', 'b']
  | '\x0c' => ['\\', 'f']
  | '\n' => ['\\', 'n']
  | '\r' => ['\\', 'r']
  | '\t' => ['\\', 't']
  | c => if c.toNat < 0x20 then controlChars c else [c]

/-- A string with its quotes. One without content is written as a single surrogate. -/
def textChars (s : Option String) : List Char :=
  match s with
  | some s => '"' :: s.toList.flatMap textChar ++ ['"']
  | none => ['"', '\\', 'u', 'd', '8', '0', '0', '"']

end BadgeRules.Json
