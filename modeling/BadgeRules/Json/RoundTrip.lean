import BadgeRules.Json.Printer
import BadgeRules.Json.Reader

/-!
# Documents are read back

What is written of a document, on one line or on many, is read as the same document
(`Json.parse?_compact`, `Json.parse?_pretty`). The way leads over its tokens: both styles have the
tokens `Json.tokens`, and these are put together to the document again.
-/

namespace BadgeRules

namespace Json

/-! ### Texts -/

theorem not_surrogate (c : Char) :
    isHighSurrogate c.toNat = false ∧ isLowSurrogate c.toNat = false := by
  have := c.valid
  simp only [UInt32.isValidChar, Nat.isValidChar] at this
  have hv : c.val.toNat = c.toNat := rfl
  simp only [isHighSurrogate, isLowSurrogate, Bool.and_eq_false_iff, decide_eq_false_iff_not]
  omega

/-- The code units of characters are joined to the same characters. -/
theorem joinUnits_map_toNat (cs acc : List Char) :
    joinUnits acc (cs.map Char.toNat) = some (acc.reverse ++ cs) := by
  induction cs generalizing acc with
  | nil => simp [joinUnits]
  | cons c cs ih =>
    have hc := not_surrogate c
    cases cs with
    | nil => simp [joinUnits, hc]
    | cons d ds =>
      have := ih (c :: acc)
      simp only [List.map_cons] at this ⊢
      rw [joinUnits, hc.1, hc.2]
      simp [this]

theorem hexDigit?_digitChar : ∀ n : Fin 16, hexDigit? (Nat.digitChar n) = some n.val := by decide

theorem scanUnits_controlChars {c : Char} (h : c.toNat < 0x20) (units : List Nat)
    (rest : List Char) :
    scanUnits units (controlChars c ++ rest) = scanUnits (c.toNat :: units) rest := by
  have h0 : hexDigit? '0' = some 0 := rfl
  have h1 := hexDigit?_digitChar ⟨c.toNat / 16, by omega⟩
  have h2 := hexDigit?_digitChar ⟨c.toNat % 16, by omega⟩
  simp only at h1 h2
  have he : scanEscape ('u' :: '0' :: '0' :: Nat.digitChar (c.toNat / 16) ::
      Nat.digitChar (c.toNat % 16) :: rest) = some (c.toNat, rest) := by
    simp only [scanEscape, h0, h1, h2]
    simp; omega
  rw [controlChars, List.cons_append, scanUnits]
  simp only [List.cons_append, List.nil_append]
  rw [if_neg (by decide), if_pos trivial]
  split
  · next hu =>
    rw [he] at hu
    simp only [Option.some.injEq, Prod.mk.injEq] at hu
    rw [hu.1, hu.2]
  · next hu => simp [he] at hu

/-- A written character is read as its code unit. -/
theorem scanUnits_textChar (c : Char) (units : List Nat) (rest : List Char) :
    scanUnits units (textChar c ++ rest) = scanUnits (c.toNat :: units) rest := by
  unfold textChar
  split
  iterate 7 (rw [List.cons_append, scanUnits, if_neg (by decide), if_pos rfl]; rfl)
  split
  · next h => exact scanUnits_controlChars h units rest
  · next h1 h2 _ _ _ _ _ h =>
    rw [List.singleton_append, scanUnits, if_neg h1, if_neg h2, if_neg h]

theorem scanUnits_flatMap (cs : List Char) (units : List Nat) (rest : List Char) :
    scanUnits units (cs.flatMap textChar ++ '"' :: rest) =
      some (units.reverse ++ cs.map Char.toNat, rest) := by
  induction cs generalizing units with
  | nil => rw [List.flatMap_nil, List.nil_append, scanUnits]; simp
  | cons c cs ih =>
    rw [List.flatMap_cons, List.append_assoc, scanUnits_textChar, ih]
    simp

theorem scanText_loneSurrogate (rest : List Char) :
    scanText ('\\' :: 'u' :: 'd' :: '8' :: '0' :: '0' :: '"' :: rest) = some (none, rest) := by
  have he : scanEscape ('u' :: 'd' :: '8' :: '0' :: '0' :: '"' :: rest) =
      some (0xD800, '"' :: rest) := rfl
  have hu : scanUnits [] ('\\' :: 'u' :: 'd' :: '8' :: '0' :: '0' :: '"' :: rest) =
      some ([0xD800], rest) := by
    rw [scanUnits, if_neg (by decide), if_pos rfl]
    split
    · next h =>
      rw [he] at h
      simp only [Option.some.injEq, Prod.mk.injEq] at h
      rw [← h.1, ← h.2, scanUnits, if_pos rfl]
      rfl
    · next h => simp [he] at h
  simp [scanText, hu, joinUnits, isHighSurrogate]

/-- A written text is read back after its opening quote. -/
theorem scanText_textChars (s : Option String) (rest : List Char) :
    ∃ body, textChars s ++ rest = '"' :: body ∧ scanText body = some (s, rest) := by
  cases s with
  | none => exact ⟨_, rfl, scanText_loneSurrogate rest⟩
  | some s =>
    refine ⟨s.toList.flatMap textChar ++ '"' :: rest, by simp [textChars], ?_⟩
    simp [scanText, scanUnits_flatMap, joinUnits_map_toNat]

/-! ### Tokens -/

def tokens : Json → List Token
  | .atom a => [.atom a]
  | .array [] => [.openArray, .closeArray]
  | .array (j :: js) => .openArray :: (j.tokens ++ moreItems js)
  | .object [] => [.openObject, .closeObject]
  | .object ((k, j) :: ms) =>
    .openObject :: .atom (.text k) :: .colon :: (j.tokens ++ moreMembers ms)
where
  moreItems : List Json → List Token
    | [] => [.closeArray]
    | j :: js => .comma :: (j.tokens ++ moreItems js)
  moreMembers : List (Option String × Json) → List Token
    | [] => [.closeObject]
    | (k, j) :: ms => .comma :: .atom (.text k) :: .colon :: (j.tokens ++ moreMembers ms)

end Json

namespace Token

open Json Numeral

theorem scanOnto_space {c : Char} (h : isSpace c = true) (ts : List Token) (cs : List Char) :
    scanOnto ts (c :: cs) = scanOnto ts cs := by
  rw [scanOnto, if_pos h]

theorem scanOnto_token {c : Char} {cs rest : List Char} {t : Token} (hc : isSpace c = false)
    (h : scanOne (c :: cs) = some (t, rest)) (ts : List Token) :
    scanOnto ts (c :: cs) = scanOnto (t :: ts) rest := by
  rw [scanOnto, if_neg (by simp [hc])]
  split
  · next he =>
    rw [h] at he
    simp only [Option.some.injEq, Prod.mk.injEq] at he
    rw [he.1, he.2]
  · next he => simp [h] at he

theorem scanOnto_newline (style : Style) (n : Nat) (ts : List Token) (cs : List Char) :
    scanOnto ts (style.newline n ++ cs) = scanOnto ts cs := by
  have spaces : ∀ n, scanOnto ts (List.replicate n ' ' ++ cs) = scanOnto ts cs := by
    intro n
    induction n with
    | zero => rfl
    | succ n ih => rw [List.replicate_succ, List.cons_append, scanOnto_space rfl, ih]
  cases style with
  | compact => rfl
  | pretty => rw [Style.newline, List.cons_append, scanOnto_space rfl, spaces]

theorem scanOnto_colon (style : Style) (ts : List Token) (cs : List Char) :
    scanOnto ts (style.colon ++ cs) = scanOnto (.colon :: ts) cs := by
  cases style with
  | compact => exact scanOnto_token rfl rfl ts
  | pretty =>
    have : scanOnto ts (':' :: ' ' :: cs) = scanOnto (.colon :: ts) (' ' :: cs) :=
      scanOnto_token rfl rfl ts
    exact this.trans (scanOnto_space rfl _ _)

theorem scanOnto_text (s : Option String) (ts : List Token) (rest : List Char) :
    scanOnto ts (textChars s ++ rest) = scanOnto (.atom (.text s) :: ts) rest := by
  obtain ⟨body, hb, hs⟩ := scanText_textChars s rest
  rw [hb]
  exact scanOnto_token rfl (by simp [scanOne, hs]) ts

theorem mem_digitChars : ∀ d : Digit,
    d.char ∈ ['0', '1', '2', '3', '4', '5', '6', '7', '8', '9'] := by decide

theorem scanOne_digit (d : Digit) (cs : List Char) : isSpace d.char = false ∧
    scanOne (d.char :: cs) =
      (Numeral.scan (d.char :: cs)).map fun (n, rest) => (.atom (.number n), rest) := by
  have := mem_digitChars d
  simp only [List.mem_cons, List.not_mem_nil, or_false] at this
  rcases this with h | h | h | h | h | h | h | h | h | h <;> rw [h] <;> exact ⟨rfl, rfl⟩

theorem scanOnto_number (n : Numeral) (ts : List Token) {rest : List Char} (h : Ends rest) :
    scanOnto ts (n.chars ++ rest) = scanOnto (.atom (.number n) :: ts) rest := by
  have hs := scan_chars n h
  obtain ⟨c, cs, hcs, hc, hone⟩ : ∃ c cs, n.chars ++ rest = c :: cs ∧ isSpace c = false ∧
      scanOne (c :: cs) =
        (Numeral.scan (c :: cs)).map fun (n, rest) => (.atom (.number n), rest) := by
    unfold Numeral.chars
    cases n.negative with
    | true => exact ⟨'-', _, rfl, rfl, rfl⟩
    | false =>
      cases hd : digits n.whole with
      | nil => exact absurd hd (digits_ne_nil _)
      | cons d ds => exact ⟨d.char, _, rfl, scanOne_digit d _⟩
  rw [hcs] at hs ⊢
  exact scanOnto_token hc (by simp [hone, hs]) ts

theorem scanOnto_atom (a : Atom) (ts : List Token) {rest : List Char} (h : Ends rest) :
    scanOnto ts (a.chars ++ rest) = scanOnto (.atom a :: ts) rest := by
  cases a with
  | null => exact scanOnto_token rfl rfl ts
  | bool b => cases b <;> exact scanOnto_token rfl rfl ts
  | number n => exact scanOnto_number n ts h
  | text s => exact scanOnto_text s ts rest

end Token

namespace Json

open Token Numeral

theorem ends_moreItems (style : Style) (n : Nat) (js : List Json) (rest : List Char) :
    Ends (render.moreItems style n js ++ rest) := by
  intro c hc
  cases js <;> cases style <;>
    simp only [render.moreItems, Style.newline, List.nil_append, List.cons_append,
      List.head?_cons, Option.mem_def, Option.some.injEq] at hc <;> subst hc <;> decide

theorem ends_moreMembers (style : Style) (n : Nat) (ms : List (Option String × Json))
    (rest : List Char) : Ends (render.moreMembers style n ms ++ rest) := by
  intro c hc
  cases ms <;> cases style <;>
    simp only [render.moreMembers, Style.newline, List.nil_append, List.cons_append,
      List.head?_cons, Option.mem_def, Option.some.injEq] at hc <;> subst hc <;> decide

mutual

/-- Both styles have the tokens of the document. -/
theorem scanOnto_render (style : Style) (n : Nat) (j : Json) (ts : List Token) (rest : List Char)
    (h : Ends rest) :
    scanOnto ts (j.render style n ++ rest) = scanOnto (j.tokens.reverse ++ ts) rest := by
  match j with
  | .atom a => simpa [render, tokens] using scanOnto_atom a ts h
  | .array [] =>
    simp only [render, tokens, List.cons_append, List.nil_append]
    rw [scanOnto_token (t := .openArray) rfl rfl, scanOnto_token (t := .closeArray) rfl rfl]
    rfl
  | .array (j :: js) =>
    simp only [render, tokens, List.cons_append, List.append_assoc]
    rw [scanOnto_token (t := .openArray) rfl rfl, scanOnto_newline,
      scanOnto_render style (n + 1) j _ _ (ends_moreItems style n js rest),
      scanOnto_moreItems style n js]
    simp
  | .object [] =>
    simp only [render, tokens, List.cons_append, List.nil_append]
    rw [scanOnto_token (t := .openObject) rfl rfl, scanOnto_token (t := .closeObject) rfl rfl]
    rfl
  | .object ((k, j) :: ms) =>
    simp only [render, tokens, List.cons_append, List.append_assoc]
    rw [scanOnto_token (t := .openObject) rfl rfl, scanOnto_newline, scanOnto_text, scanOnto_colon,
      scanOnto_render style (n + 1) j _ _ (ends_moreMembers style n ms rest),
      scanOnto_moreMembers style n ms]
    simp

theorem scanOnto_moreItems (style : Style) (n : Nat) (js : List Json) (ts : List Token)
    (rest : List Char) :
    scanOnto ts (render.moreItems style n js ++ rest) =
      scanOnto ((tokens.moreItems js).reverse ++ ts) rest := by
  match js with
  | [] =>
    simp only [render.moreItems, tokens.moreItems, List.append_assoc, List.cons_append,
      List.nil_append]
    rw [scanOnto_newline, scanOnto_token (t := .closeArray) rfl rfl]
    rfl
  | j :: js =>
    simp only [render.moreItems, tokens.moreItems, List.cons_append, List.append_assoc]
    rw [scanOnto_token (t := .comma) rfl rfl, scanOnto_newline,
      scanOnto_render style (n + 1) j _ _ (ends_moreItems style n js rest),
      scanOnto_moreItems style n js]
    simp

theorem scanOnto_moreMembers (style : Style) (n : Nat) (ms : List (Option String × Json))
    (ts : List Token) (rest : List Char) :
    scanOnto ts (render.moreMembers style n ms ++ rest) =
      scanOnto ((tokens.moreMembers ms).reverse ++ ts) rest := by
  match ms with
  | [] =>
    simp only [render.moreMembers, tokens.moreMembers, List.append_assoc, List.cons_append,
      List.nil_append]
    rw [scanOnto_newline, scanOnto_token (t := .closeObject) rfl rfl]
    rfl
  | (k, j) :: ms =>
    simp only [render.moreMembers, tokens.moreMembers, List.cons_append, List.append_assoc]
    rw [scanOnto_token (t := .comma) rfl rfl, scanOnto_newline, scanOnto_text, scanOnto_colon,
      scanOnto_render style (n + 1) j _ _ (ends_moreMembers style n ms rest),
      scanOnto_moreMembers style n ms]
    simp

end

/-! ### From tokens to documents -/

open State

theorem step_opened (j : Json) (stack : List Frame) (ts : List Token) :
    (j.tokens ++ ts).foldlM step (.opened stack) =
      (j.tokens ++ ts).foldlM step (.value (.array [] :: stack)) := by
  match j with
  | .atom a => rfl
  | .array [] => rfl
  | .array (j :: js) => rfl
  | .object [] => rfl
  | .object ((k, j) :: ms) => rfl

mutual

/-- The tokens of a document are put together to it. -/
theorem foldlM_step_tokens (j : Json) (stack : List Frame) (ts : List Token) :
    (j.tokens ++ ts).foldlM step (.value stack) = ts.foldlM step (.ended j stack) := by
  match j with
  | .atom a => rfl
  | .array [] => rfl
  | .array (j :: js) =>
    have := step_opened j stack (tokens.moreItems js ++ ts)
    rw [foldlM_step_tokens j, foldlM_step_moreItems js] at this
    simpa [tokens, step, begin] using this
  | .object [] => rfl
  | .object ((k, j) :: ms) =>
    have := foldlM_step_tokens j (.object [] k :: stack) (tokens.moreMembers ms ++ ts)
    rw [foldlM_step_moreMembers ms] at this
    simpa [tokens, step, begin] using this

theorem foldlM_step_moreItems (js : List Json) (j : Json) (done : List Json) (stack : List Frame)
    (ts : List Token) :
    (tokens.moreItems js ++ ts).foldlM step (.ended j (.array done :: stack)) =
      ts.foldlM step (.ended (.array (done.reverse ++ j :: js)) stack) := by
  match js with
  | [] => simp [tokens.moreItems, step]
  | k :: ks =>
    have := foldlM_step_tokens k (.array (j :: done) :: stack) (tokens.moreItems ks ++ ts)
    rw [foldlM_step_moreItems ks] at this
    simpa [tokens.moreItems, step] using this

theorem foldlM_step_moreMembers (ms : List (Option String × Json)) (j : Json) (k : Option String)
    (done : List (Option String × Json)) (stack : List Frame) (ts : List Token) :
    (tokens.moreMembers ms ++ ts).foldlM step (.ended j (.object done k :: stack)) =
      ts.foldlM step (.ended (.object (done.reverse ++ (k, j) :: ms)) stack) := by
  match ms with
  | [] => simp [tokens.moreMembers, step]
  | (l, i) :: ms =>
    have := foldlM_step_tokens i (.object ((k, j) :: done) l :: stack)
      (tokens.moreMembers ms ++ ts)
    rw [foldlM_step_moreMembers ms] at this
    simpa [tokens.moreMembers, step] using this

end

theorem ofTokens?_tokens (j : Json) : ofTokens? j.tokens = some j := by
  have := foldlM_step_tokens j [] []
  rw [List.append_nil] at this
  simp [ofTokens?, this]

theorem parse?_render (style : Style) (j : Json) :
    parse? (String.ofList (j.render style 0)) = some j := by
  have := scanOnto_render style 0 j [] [] (by simp [Ends])
  rw [List.append_nil] at this
  simp [parse?, Token.scan, this, Token.scanOnto, ofTokens?_tokens]

theorem parse?_compact (j : Json) : parse? j.compact = some j := parse?_render .compact j

theorem parse?_pretty (j : Json) : parse? j.pretty = some j := parse?_render .pretty j

end Json

end BadgeRules
