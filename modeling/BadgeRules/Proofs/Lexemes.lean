import Mathlib.Data.List.Basic
import BadgeRules.Json.RoundTrip
import BadgeRules.Operand

/-!
# Words, numerals and quoted texts

What the text of an operand is made of. No lexeme can be taken for another, whatever follows it in a list
(`Lexeme.append_inj`). A quoted text ends at its closing quote, since inside it a quote is escaped
(`quoted_append_inj`). Words and numerals end where a list goes on or is closed.
-/

namespace BadgeRules

/-! ### Quoted texts -/

def ofHex (cs : List Char) : Nat := cs.foldl (fun n c => 16 * n + (Json.hexDigit? c).getD 0) 0

/-- The last digit is written after the others. -/
theorem hexChars_eq (n : Nat) :
    hexChars n = (if n < 16 then [] else hexChars (n / 16)) ++ [Nat.digitChar (n % 16)] := by
  rw [hexChars, Nat.toDigits_eq_if (by decide)]
  split
  · next h => rw [Nat.mod_eq_of_lt h]; rfl
  · rfl

theorem hexDigit?_last (n : Nat) : Json.hexDigit? (Nat.digitChar (n % 16)) = some (n % 16) :=
  Json.hexDigit?_digitChar ⟨n % 16, Nat.mod_lt _ (by decide)⟩

theorem ofHex_hexChars (n : Nat) : ofHex (hexChars n) = n := by
  induction n using Nat.strongRecOn with
  | _ n ih =>
    rw [hexChars_eq, ofHex, List.foldl_append, List.foldl_cons, List.foldl_nil, hexDigit?_last, Option.getD_some]
    split
    · next h => rw [List.foldl_nil, Nat.mod_eq_of_lt h]; omega
    · next h =>
      have := ih (n / 16) (by omega)
      rw [ofHex] at this
      omega

theorem exists_digit_of_mem_toDigits {b n : Nat} (hb : 1 < b) (hb' : b ≤ 16) :
    ∀ c ∈ Nat.toDigits b n, ∃ d : Fin 16, c = Nat.digitChar d := by
  have hpos : 0 < b := Nat.lt_trans Nat.one_pos hb
  induction n using Nat.strongRecOn with
  | _ n ih =>
    intro c hc
    rw [Nat.toDigits_eq_if hb] at hc
    split at hc
    · next h => exact ⟨⟨n, Nat.lt_of_lt_of_le h hb'⟩, List.mem_singleton.1 hc⟩
    · next h =>
      rcases List.mem_append.1 hc with hc | hc
      · exact ih (n / b) (Nat.div_lt_self (by omega) hb) c hc
      · exact ⟨⟨n % b, Nat.lt_of_lt_of_le (Nat.mod_lt n hpos) hb'⟩, List.mem_singleton.1 hc⟩

theorem ne_brace_of_mem_hexChars {n : Nat} : ∀ c ∈ hexChars n, c ≠ '\x7d' := by
  intro c hc
  obtain ⟨d, rfl⟩ := exists_digit_of_mem_toDigits (by decide) (by decide) c hc
  have hdigit : ∀ d : Fin 16, Nat.digitChar d ≠ '\x7d' := by decide
  exact hdigit d

def shortEscapes : List (Char × Char) :=
  [('"', '"'), ('\\', '\\'), ('t', '\t'), ('n', '\n'), ('r', '\r'), ('0', '\x00')]

/-- Reads a character of a quoted text, and what follows it. -/
def unquoteChar (cs : List Char) : Option (Char × List Char) :=
  match cs with
  | '\\' :: 'u' :: '\x7b' :: cs =>
    some (Char.ofNat (ofHex (cs.takeWhile (· != '\x7d'))), (cs.dropWhile (· != '\x7d')).tail)
  | '\\' :: e :: cs => (shortEscapes.lookup e).map fun c => (c, cs)
  | c :: cs => some (c, cs)
  | [] => none

theorem unquoteChar_quotedChar (c : Char) (rest : List Char) :
    unquoteChar (quotedChar c ++ rest) = some (c, rest) := by
  unfold quotedChar
  split
  iterate 6 rfl
  next hslash _ _ _ _ =>
  split
  · -- the digits end at the brace
    have hpos : ∀ d ∈ hexChars c.toNat, (d != '\x7d') = true := fun d hd =>
      bne_iff_ne.2 (ne_brace_of_mem_hexChars d hd)
    have htake : (hexChars c.toNat ++ '\x7d' :: rest).takeWhile (· != '\x7d') = hexChars c.toNat := by
      rw [List.takeWhile_append_of_pos hpos]; simp
    have hdrop : (hexChars c.toNat ++ '\x7d' :: rest).dropWhile (· != '\x7d') = '\x7d' :: rest := by
      rw [List.dropWhile_append_of_pos hpos]; simp
    have hopen : "\\u\x7b".toList = ['\\', 'u', '\x7b'] := by decide
    simp only [hopen, List.cons_append, List.nil_append, List.append_assoc, unquoteChar, htake, hdrop, List.tail_cons,
      ofHex_hexChars, Char.ofNat_toNat]
  · rw [List.singleton_append]
    unfold unquoteChar
    split
    · next h => exact absurd (List.cons.inj h).1 hslash
    · next h => exact absurd (List.cons.inj h).1 hslash
    · next h => obtain ⟨rfl, rfl⟩ := List.cons.inj h; rfl
    · next h => cases h

theorem head?_quotedChar (c : Char) : ∃ d ds, quotedChar c = d :: ds ∧ d ≠ '"' := by
  unfold quotedChar
  split
  iterate 6 exact ⟨_, _, rfl, by decide⟩
  next hquote _ _ _ _ _ =>
  split
  · exact ⟨_, _, rfl, by decide⟩
  · exact ⟨_, _, rfl, hquote⟩

theorem quotedChars_append_inj {cs ds r u : List Char}
    (h : cs.flatMap quotedChar ++ '"' :: r = ds.flatMap quotedChar ++ '"' :: u) : cs = ds ∧ r = u := by
  induction cs generalizing ds with
  | nil =>
    cases ds with
    | nil => exact ⟨rfl, (List.cons.inj h).2⟩
    | cons d ds =>
      obtain ⟨e, es, he, hne⟩ := head?_quotedChar d
      rw [List.flatMap_cons, he] at h
      exact absurd (List.cons.inj h).1.symm hne
  | cons c cs ih =>
    cases ds with
    | nil =>
      obtain ⟨e, es, he, hne⟩ := head?_quotedChar c
      rw [List.flatMap_cons, he] at h
      exact absurd (List.cons.inj h).1 hne
    | cons d ds =>
      have hread := congrArg unquoteChar h
      rw [List.flatMap_cons, List.flatMap_cons, List.append_assoc, List.append_assoc, unquoteChar_quotedChar,
        unquoteChar_quotedChar] at hread
      obtain ⟨rfl, hrest⟩ := Prod.mk.inj (Option.some.inj hread)
      obtain ⟨rfl, rfl⟩ := ih hrest
      exact ⟨rfl, rfl⟩

theorem quoted_append_inj {s t : String} {r u : List Char} (h : quoted s ++ r = quoted t ++ u) : s = t ∧ r = u := by
  simp only [quoted, List.cons_append, List.append_assoc, List.nil_append, List.cons.injEq, true_and] at h
  obtain ⟨hst, hru⟩ := quotedChars_append_inj h
  exact ⟨String.toList_inj.1 hst, hru⟩

/-! ### Lexemes -/

inductive Word
  | bool (value : Bool)
  | null
  | nan
  | inf (negative : Bool)

def Word.chars : Word → List Char
  | bool b => (if b then "true" else "false").toList
  | null => "null".toList
  | nan => "NaN".toList
  | inf negative => (if negative then "-inf" else "inf").toList

inductive Lexeme
  | word (w : Word)
  | numeral (n : Numeral)
  | text (s : String)

/-- What ends a word or a numeral, and starts a text or a list. -/
def isMark (c : Char) : Bool := c == ',' || c == ']' || c == '[' || c == '"'

/-- The characters of words and numerals. -/
def plainChars : List Char := "+-.0123456789Naefilnrstu".toList

theorem unmarked_of_plain {cs : List Char} (h : cs ⊆ plainChars) : ∀ c ∈ cs, isMark c = false := by
  have hall : plainChars.all (!isMark ·) = true := by decide
  exact fun c hc => Bool.not_eq_eq_eq_not.1 (List.all_eq_true.1 hall c (h hc))

/-- A text is at its end, or a list goes on or is closed. -/
def Separated (rest : List Char) : Prop := ∀ c ∈ rest.head?, isMark c = true

/-- Without a mark a text goes on to the first one that follows it. -/
theorem append_inj_of_unmarked {as bs r u : List Char} (ha : ∀ c ∈ as, isMark c = false)
    (hb : ∀ c ∈ bs, isMark c = false) (hr : Separated r) (hu : Separated u) (h : as ++ r = bs ++ u) :
    as = bs ∧ r = u := by
  have htake {as r : List Char} (ha : ∀ c ∈ as, isMark c = false) (hr : Separated r) :
      (as ++ r).takeWhile (!isMark ·) = as := by
    rw [List.takeWhile_append_of_pos fun c hc => by rw [ha c hc]; rfl]
    cases r with
    | nil => rw [List.takeWhile_nil, List.append_nil]
    | cons c r => rw [List.takeWhile_cons, hr c rfl]; exact List.append_nil as
  have heq : as = bs := by rw [← htake ha hr, h, htake hb hu]
  subst heq
  exact ⟨rfl, List.append_cancel_left h⟩

namespace Word

theorem chars_inj {v w : Word} (h : v.chars = w.chars) : v = w := by
  rcases v with ⟨_ | _⟩ | _ | _ | ⟨_ | _⟩ <;> rcases w with ⟨_ | _⟩ | _ | _ | ⟨_ | _⟩ <;>
    first | rfl | exact absurd h (by decide)

theorem plain (w : Word) : w.chars ⊆ plainChars := by
  rcases w with ⟨_ | _⟩ | _ | _ | ⟨_ | _⟩ <;> decide

theorem chars_ne_nil (w : Word) : w.chars ≠ [] := by
  rcases w with ⟨_ | _⟩ | _ | _ | ⟨_ | _⟩ <;> exact List.cons_ne_nil _ _

theorem scan_chars (w : Word) : Numeral.scan w.chars = none := by
  rcases w with ⟨_ | _⟩ | _ | _ | ⟨_ | _⟩ <;> rfl

end Word

namespace Numeral

theorem scan_chars_self (n : Numeral) : scan n.chars = some (n, []) := by
  have := scan_chars n (show Ends [] from nofun)
  rwa [List.append_nil] at this

theorem plain_char : ∀ d : Digit, d.char ∈ plainChars := by decide

theorem plain_digits (ds : List Digit) : ds.map Digit.char ⊆ plainChars := by
  intro c hc
  obtain ⟨d, -, rfl⟩ := List.mem_map.1 hc
  exact plain_char d

theorem plain (n : Numeral) : n.chars ⊆ plainChars := by
  obtain ⟨negative, whole, fraction, exponent⟩ := n
  simp only [chars, List.append_subset]
  refine ⟨⟨?_, plain_digits _⟩, ?_, ?_⟩
  · split <;> decide
  · cases fraction with
    | nil => exact List.nil_subset _
    | cons d ds => exact List.cons_subset.2 ⟨by decide, plain_digits _⟩
  · cases exponent with
    | none => exact List.nil_subset _
    | some e =>
      have hsign : (if e < 0 then '-' else '+') ∈ plainChars := by split <;> decide
      exact List.cons_subset.2 ⟨by decide, List.cons_subset.2 ⟨hsign, plain_digits _⟩⟩

end Numeral

namespace Lexeme

def chars : Lexeme → List Char
  | word w => w.chars
  | numeral n => n.chars
  | text s => quoted s

/-- All but texts are plain, and not empty. -/
theorem chars_cases (a : Lexeme) : (∃ s, a = text s) ∨ a.chars ≠ [] ∧ a.chars ⊆ plainChars := by
  cases a with
  | word w => exact .inr ⟨w.chars_ne_nil, w.plain⟩
  | numeral n =>
    refine .inr ⟨fun h => ?_, n.plain⟩
    have := n.scan_chars_self
    rw [show n.chars = [] from h] at this
    cases this
  | text s => exact .inl ⟨s, rfl⟩

/-- Only a text has marks. It starts with one. -/
theorem unmarked_cases (a : Lexeme) : (∃ s, a = text s) ∨ a.chars ≠ [] ∧ ∀ c ∈ a.chars, isMark c = false :=
  a.chars_cases.imp_right fun ⟨hne, hplain⟩ => ⟨hne, unmarked_of_plain hplain⟩

theorem chars_inj_of_unmarked {a b : Lexeme} (ha : ∀ c ∈ a.chars, isMark c = false)
    (hb : ∀ c ∈ b.chars, isMark c = false) (h : a.chars = b.chars) : a = b := by
  have hscan {w : Word} {n : Numeral} (h : w.chars = n.chars) : False := by
    have := n.scan_chars_self
    rw [← h, w.scan_chars] at this
    cases this
  cases a with
  | text s => cases ha '"' List.mem_cons_self
  | word v =>
    cases b with
    | text t => cases hb '"' List.mem_cons_self
    | word w => exact congrArg word (Word.chars_inj h)
    | numeral n => exact (hscan h).elim
  | numeral m =>
    cases b with
    | text t => cases hb '"' List.mem_cons_self
    | word w => exact (hscan h.symm).elim
    | numeral n =>
      have hm := m.scan_chars_self
      rw [show m.chars = n.chars from h, n.scan_chars_self] at hm
      exact congrArg numeral (Prod.mk.inj (Option.some.inj hm)).1.symm

/-- No lexeme can be taken for another, or for the beginning of another. -/
theorem append_inj {a b : Lexeme} {r u : List Char} (hr : Separated r) (hu : Separated u)
    (h : a.chars ++ r = b.chars ++ u) : a = b ∧ r = u := by
  have hquote {s : String} {as r u : List Char} (hne : as ≠ []) (has : ∀ c ∈ as, isMark c = false)
      (h : quoted s ++ r = as ++ u) : False := by
    obtain ⟨c, cs, rfl⟩ := List.exists_cons_of_ne_nil hne
    have hc := has c List.mem_cons_self
    rw [← (List.cons.inj h).1] at hc
    cases hc
  rcases a.unmarked_cases with ⟨s, rfl⟩ | ⟨ha, ha'⟩ <;> rcases b.unmarked_cases with ⟨t, rfl⟩ | ⟨hb, hb'⟩
  · obtain ⟨rfl, rfl⟩ := quoted_append_inj h
    exact ⟨rfl, rfl⟩
  · exact (hquote hb hb' h).elim
  · exact (hquote ha ha' h.symm).elim
  · obtain ⟨hchars, rfl⟩ := append_inj_of_unmarked ha' hb' hr hu h
    exact ⟨chars_inj_of_unmarked ha' hb' hchars, rfl⟩

end Lexeme

end BadgeRules
