import Mathlib

/-!
# JSON arrays of strings

The text of a JSON array of strings, as a compact encoder writes it and as a
strict parser reads it back. Reading is split in two: a lexer cuts the text into
pieces, and a small machine over the pieces accepts an array. One piece is one
structural character, or one *character token* of a string literal: a plain
character, a two-character escape, a `\uXXXX` escape or a surrogate pair.

## Results

* `decode_encode` — what the encoder writes reads back.
-/

namespace JsonStrings

/-! ## Character tokens -/

open List

/-- The value of a hexadecimal digit, of either case. -/
def hexVal (c : Char) : Option Nat :=
  if '0' ≤ c ∧ c ≤ '9' then some (c.toNat - 48)
  else if 'a' ≤ c ∧ c ≤ 'f' then some (c.toNat - 87)
  else if 'A' ≤ c ∧ c ≤ 'F' then some (c.toNat - 55)
  else none

/-- The number that four hexadecimal digits write. -/
def hex4 (a b c d : Char) : Option Nat := do
  let a ← hexVal a
  let b ← hexVal b
  let c ← hexVal c
  let d ← hexVal d
  pure (((a * 16 + b) * 16 + c) * 16 + d)

/-- The character that a backslash and `c` stand for. -/
def shortEscape (c : Char) : Option Char :=
  if c = '"' then some '"'
  else if c = '\\' then some '\\'
  else if c = '/' then some '/'
  else if c = 'b' then some (Char.ofNat 8)
  else if c = 'f' then some (Char.ofNat 12)
  else if c = 'n' then some '\n'
  else if c = 'r' then some '\r'
  else if c = 't' then some '\t'
  else none

/-- A code unit that opens a surrogate pair. -/
def isLead (n : Nat) : Bool := 0xD800 ≤ n && n < 0xDC00

/-- A code unit that closes a surrogate pair. -/
def isTrail (n : Nat) : Bool := 0xDC00 ≤ n && n < 0xE000

/-- Read a `\uXXXX` escape whose number is `n`: a surrogate must open a pair, and
the pair is one character. -/
def readUnicode (n : Nat) (raw rest : List Char) : Option (List Char × Char × List Char) :=
  if isLead n then
    match rest with
    | '\\' :: 'u' :: a :: b :: c :: d :: rest' =>
      match hex4 a b c d with
      | some m =>
        if isTrail m then
          some (raw ++ ['\\', 'u', a, b, c, d],
            Char.ofNat (0x10000 + (n - 0xD800) * 0x400 + (m - 0xDC00)), rest')
        else none
      | none => none
    | _ => none
  else if isTrail n then none
  else some (raw, Char.ofNat n, rest)

/-- Read one character of a string literal: the text it takes, the character it
stands for, and what follows. Control characters must be escaped, and an
unescaped quote ends the literal. -/
def readToken : List Char → Option (List Char × Char × List Char)
  | '\\' :: 'u' :: a :: b :: c :: d :: rest =>
    match hex4 a b c d with
    | some n => readUnicode n ['\\', 'u', a, b, c, d] rest
    | none => none
  | '\\' :: e :: rest => (shortEscape e).map fun v => (['\\', e], v, rest)
  | c :: rest =>
    if c.toNat < 0x20 ∨ c = '"' ∨ c = '\\' then none else some ([c], c, rest)
  | [] => none

/-- The text `raw` is one character token, standing for `v`, whatever follows it. -/
def IsToken (raw : List Char) (v : Char) : Prop :=
  ∀ rest, readToken (raw ++ rest) = some (raw, v, rest)

/-- A character that stands for itself inside a literal. -/
def isPlain (c : Char) : Bool := 0x20 ≤ c.toNat && c != '"' && c != '\\'

theorem isToken_plain {c : Char} (hc : isPlain c = true) : IsToken [c] c := by
  intro rest
  simp only [isPlain, Bool.and_eq_true, decide_eq_true_eq, bne_iff_ne] at hc
  obtain ⟨⟨hCtl, hQuote⟩, hSlash⟩ := hc
  simp [readToken, hSlash, hCtl, hQuote]

theorem isToken_short {e v : Char} (he : shortEscape e = some v) : IsToken ['\\', e] v := by
  intro rest
  have hu : e ≠ 'u' := by
    rintro rfl
    simp [shortEscape] at he
  have hRead : readToken ('\\' :: e :: rest) =
      (shortEscape e).map fun v => (['\\', e], v, rest) := by
    unfold readToken
    split
    · next hEq => simp [hu] at hEq
    · next hEq =>
      simp only [List.cons.injEq, true_and] at hEq
      obtain ⟨rfl, rfl⟩ := hEq
      rfl
    · next hNot hEq =>
      simp only [List.cons.injEq] at hEq
      exact absurd hEq.2.symm (hNot e rest hEq.1.symm)
    · next hEq => cases hEq
  simpa [he] using hRead

theorem isToken_unicode {a b c d : Char} {n : Nat} (hHex : hex4 a b c d = some n)
    (hLead : isLead n = false) (hTrail : isTrail n = false) :
    IsToken ['\\', 'u', a, b, c, d] (Char.ofNat n) := by
  intro rest
  simp [readToken, hHex, readUnicode, hLead, hTrail]

/-! ## Pieces and the lexer -/

/-- One piece of the text of an array of strings. -/
inductive Piece where
  | bracketOpen
  | bracketClose
  | comma
  | space (c : Char)
  | quote
  | char (raw : List Char) (value : Char)
  deriving DecidableEq, Repr

/-- JSON white space. -/
def isSpace (c : Char) : Bool := c == ' ' || c == '\n' || c == '\t' || c == '\r'

namespace Piece

/-- The text a piece was cut from. -/
def text : Piece → List Char
  | bracketOpen => ['[']
  | bracketClose => [']']
  | comma => [',']
  | space c => [c]
  | quote => ['"']
  | char raw _ => raw

/-- Whether the text after the piece is inside a literal. -/
def after (inside : Bool) : Piece → Bool
  | quote => !inside
  | _ => inside

/-- The piece can be cut from a text at a place inside, or outside, a literal. -/
def Fits (inside : Bool) : Piece → Prop
  | quote => True
  | char raw v => inside = true ∧ raw ≠ [] ∧ raw.head? ≠ some '"' ∧ IsToken raw v
  | space c => inside = false ∧ isSpace c = true
  | _ => inside = false

end Piece

/-- The text of a list of pieces. -/
def text (ps : List Piece) : List Char := ps.flatMap Piece.text

@[simp] theorem text_nil : text [] = [] := rfl

@[simp] theorem text_cons (p : Piece) (ps : List Piece) :
    text (p :: ps) = p.text ++ text ps := rfl

/-- Outside a literal a piece is one structural character or white space. -/
def readOutside (c : Char) : Option Piece :=
  if c = '"' then some .quote
  else if c = '[' then some .bracketOpen
  else if c = ']' then some .bracketClose
  else if c = ',' then some .comma
  else if isSpace c then some (.space c)
  else none

/-- Cut a text into pieces. A piece takes at least one character, so as much fuel
as there is text always suffices. -/
def lex : Nat → Bool → List Char → Option (List Piece)
  | _, _, [] => some []
  | 0, _, _ :: _ => none
  | n + 1, false, c :: rest =>
    match readOutside c with
    | some p => (lex n (p.after false) rest).map (p :: ·)
    | none => none
  | n + 1, true, c :: rest =>
    if c = '"' then (lex n false rest).map (Piece.quote :: ·)
    else
      match readToken (c :: rest) with
      | some (raw, v, rest') => (lex n true rest').map (Piece.char raw v :: ·)
      | none => none

/-- Every piece fits where it stands. -/
def Lexes : Bool → List Piece → Prop
  | _, [] => True
  | inside, p :: ps => p.Fits inside ∧ Lexes (p.after inside) ps

theorem readOutside_of_fits (h : p.Fits false) :
    ∃ c, p.text = [c] ∧ readOutside c = some p := by
  cases p with
  | bracketOpen => exact ⟨'[', rfl, by decide⟩
  | bracketClose => exact ⟨']', rfl, by decide⟩
  | comma => exact ⟨',', rfl, by decide⟩
  | quote => exact ⟨'"', rfl, by decide⟩
  | char raw v => exact absurd h.1 (by decide)
  | space c =>
    refine ⟨c, rfl, ?_⟩
    have hc : isSpace c = true := h.2
    have hCases : c = ' ' ∨ c = '\n' ∨ c = '\t' ∨ c = '\r' := by
      simpa [isSpace, or_assoc] using hc
    rcases hCases with rfl | rfl | rfl | rfl <;> decide

variable {ps : List Piece}

/-- The lexer cuts a text into the pieces it was made of. -/
theorem lex_text {n : Nat} {inside : Bool} (hLex : Lexes inside ps)
    (hn : (text ps).length ≤ n) : lex n inside (text ps) = some ps := by
  induction ps generalizing n inside with
  | nil => cases n <;> rfl
  | cons p ps ih =>
    obtain ⟨hFits, hRest⟩ := hLex
    cases inside with
    | false =>
      obtain ⟨c, hText, hRead⟩ := readOutside_of_fits hFits
      simp only [text_cons, hText, cons_append, nil_append, length_cons] at hn ⊢
      obtain ⟨n, rfl⟩ : ∃ m, n = m + 1 := ⟨n - 1, by omega⟩
      have hIn : lex n (p.after false) (text ps) = some ps := ih hRest (by omega)
      simp [lex, hRead, hIn]
    | true =>
      cases p with
      | quote =>
        simp only [text_cons, Piece.text, cons_append, nil_append,
          length_cons] at hn ⊢
        obtain ⟨n, rfl⟩ : ∃ m, n = m + 1 := ⟨n - 1, by omega⟩
        have hIn : lex n false (text ps) = some ps := ih hRest (by omega)
        simp [lex, hIn]
      | char raw v =>
        obtain ⟨-, hRaw, hHead, hTok⟩ := hFits
        cases raw with
        | nil => exact absurd rfl hRaw
        | cons r raw =>
          have hr : r ≠ '"' := fun h => hHead (by simp [h])
          simp only [text_cons, Piece.text, cons_append, length_cons,
            length_append] at hn ⊢
          obtain ⟨n, rfl⟩ : ∃ m, n = m + 1 := ⟨n - 1, by omega⟩
          have hRead := hTok (text ps)
          simp only [cons_append] at hRead
          have hIn : lex n true (text ps) = some ps := ih hRest (by omega)
          simp [lex, hr, hRead, hIn]
      | bracketOpen | bracketClose | comma => exact absurd hFits (by simp [Piece.Fits])
      | space c => exact absurd hFits.1 (by decide)

/-! ## Accepting an array -/

/-- Where the reader of an array stands between two pieces. -/
inductive Place where
  | start
  | afterOpen
  | inLiteral (acc : List Char)
  | afterLiteral
  | afterComma
  | done
  deriving DecidableEq, Repr

variable {s : List Char} {place place' : Place} {p : Piece}

/-- Where the reader stands after one more piece, with the literal the piece ended:
white space may stand between any two parts of the array, a comma separates two
elements and does not follow the last one. -/
def Place.next : Place → Piece → Option (Place × Option (List Char))
  | .inLiteral acc, p =>
    match p with
    | .char _ v => some (.inLiteral (acc ++ [v]), none)
    | .quote => some (.afterLiteral, some acc)
    | _ => none
  | place, .space _ => some (place, none)
  | .start, .bracketOpen => some (.afterOpen, none)
  | .afterOpen, .bracketClose => some (.done, none)
  | .afterOpen, .quote => some (.inLiteral [], none)
  | .afterLiteral, .comma => some (.afterComma, none)
  | .afterLiteral, .bracketClose => some (.done, none)
  | .afterComma, .quote => some (.inLiteral [], none)
  | _, _ => none

/-- Read an array of strings off its pieces. -/
def accept : Place → List Piece → Option (List (List Char))
  | place, [] => if place = .done then some [] else none
  | place, p :: ps =>
    match place.next p with
    | some (place', none) => accept place' ps
    | some (place', some s) => (accept place' ps).map (s :: ·)
    | none => none

/-- A piece that ends no literal moves the reader on. -/
theorem accept_next (h : place.next p = some (place', none))
    (ps : List Piece) : accept place (p :: ps) = accept place' ps := by
  rw [accept, h]

/-- A piece that ends a literal adds its string. -/
theorem accept_end (h : place.next p = some (place', some s)) (ps : List Piece) :
    accept place (p :: ps) = (accept place' ps).map (s :: ·) := by
  rw [accept, h]

/-- Read an array of strings back from its text. -/
def decode (t : List Char) : Option (List (List Char)) :=
  (lex t.length false t).bind (accept .start)

/-! ## The encoder -/

/-- A hexadecimal digit, lower case. -/
def hexDigit (n : Nat) : Char :=
  if n < 10 then Char.ofNat (48 + n) else Char.ofNat (87 + n)

/-- How the encoder writes one character of a string. -/
def escape (c : Char) : List Char :=
  if c = '"' then ['\\', '"']
  else if c = '\\' then ['\\', '\\']
  else if c = Char.ofNat 8 then ['\\', 'b']
  else if c = Char.ofNat 12 then ['\\', 'f']
  else if c = '\n' then ['\\', 'n']
  else if c = '\r' then ['\\', 'r']
  else if c = '\t' then ['\\', 't']
  else if c.toNat < 0x20 then
    ['\\', 'u', '0', '0', hexDigit (c.toNat / 16), hexDigit (c.toNat % 16)]
  else [c]

/-- The pieces of the literal of one string. -/
def literal (s : List Char) : List Piece :=
  .quote :: (s.map fun c => Piece.char (escape c) c) ++ [.quote]

/-- The pieces of an array, its elements separated by commas. -/
def elements : List (List Char) → List Piece
  | [] => []
  | [s] => literal s
  | s :: rest => literal s ++ .comma :: elements rest

/-- Write an array of strings, with no white space. -/
def encode (xs : List (List Char)) : List Char :=
  text (.bracketOpen :: elements xs ++ [.bracketClose])

theorem hexVal_hexDigit : ∀ n < 16, hexVal (hexDigit n) = some n := by decide

/-- What the encoder writes for a character is one token of it. -/
theorem isToken_escape (c : Char) : IsToken (escape c) c := by
  unfold escape
  split_ifs with h1 h2 h3 h4 h5 h6 h7 h8
  · exact isToken_short (by simp [h1, shortEscape])
  · exact isToken_short (by simp [h2, shortEscape])
  · exact isToken_short (by simp [h3, shortEscape])
  · exact isToken_short (by simp [h4, shortEscape])
  · exact isToken_short (by simp [h5, shortEscape])
  · exact isToken_short (by simp [h6, shortEscape])
  · exact isToken_short (by simp [h7, shortEscape])
  · have hHex : hex4 '0' '0' (hexDigit (c.toNat / 16)) (hexDigit (c.toNat % 16)) =
        some c.toNat := by
      have hHigh := hexVal_hexDigit (c.toNat / 16) (by omega)
      have hLow := hexVal_hexDigit (c.toNat % 16) (by omega)
      have hZero : hexVal '0' = some 0 := by decide
      simp only [hex4, hZero, hHigh, hLow, Option.pure_def, Option.bind_eq_bind,
        Option.bind_some, Option.some.injEq]
      omega
    have hTok := isToken_unicode hHex (by simp [isLead]; omega) (by simp [isTrail]; omega)
    rwa [Char.ofNat_toNat] at hTok
  · refine isToken_plain ?_
    simp only [isPlain, Bool.and_eq_true, decide_eq_true_eq, bne_iff_ne]
    exact ⟨⟨by omega, h1⟩, h2⟩

theorem fits_escape (c : Char) : (Piece.char (escape c) c).Fits true := by
  refine ⟨rfl, ?_, ?_, isToken_escape c⟩
  · unfold escape
    split_ifs <;> simp
  · unfold escape
    split_ifs with h1 <;> simp [*]

/-! ## Reading back what was written -/

/-- The induction is on the characters. -/
theorem lexes_chars (hps : Lexes true ps) :
    Lexes true ((s.map fun c => Piece.char (escape c) c) ++ ps) := by
  induction s with
  | nil => exact hps
  | cons c s ih => exact ⟨fits_escape c, ih⟩

theorem lexes_literal (hps : Lexes false ps) :
    Lexes false (literal s ++ ps) := by
  unfold literal
  rw [append_assoc]
  exact ⟨trivial, lexes_chars ⟨trivial, hps⟩⟩

theorem lexes_elements {xs : List (List Char)} (hps : Lexes false ps) :
    Lexes false (elements xs ++ ps) := by
  induction xs with
  | nil => exact hps
  | cons s rest ih =>
    cases rest with
    | nil => exact lexes_literal hps
    | cons s' rest =>
      simp only [elements, append_assoc, cons_append]
      exact lexes_literal ⟨rfl, ih⟩

/-- The characters of a literal are collected one after the other. -/
theorem accept_chars (s acc : List Char) (ps : List Piece) :
    accept (.inLiteral acc) ((s.map fun c => Piece.char (escape c) c) ++ ps) =
      accept (.inLiteral (acc ++ s)) ps := by
  induction s generalizing acc with
  | nil => rw [map_nil, nil_append, append_nil]
  | cons c s ih =>
    rw [map_cons, cons_append, accept_next (by rfl), ih, append_assoc]
    rfl

/-- A literal is read as the string it was written from. -/
theorem accept_literal (s : List Char) (ps : List Piece) (place : Place)
    (hPlace : place = .afterOpen ∨ place = .afterComma) :
    accept place (literal s ++ ps) = (accept .afterLiteral ps).map (s :: ·) := by
  have hOpen : place.next .quote = some (.inLiteral [], none) := by
    rcases hPlace with rfl | rfl <;> rfl
  have hText : literal s ++ ps =
      .quote :: ((s.map fun c => Piece.char (escape c) c) ++ .quote :: ps) := by
    unfold literal
    simp
  rw [hText, accept_next hOpen, accept_chars, nil_append, accept_end (by rfl)]

/-- The induction is on the elements that are left. -/
theorem accept_elements (s : List Char) (rest : List (List Char)) (place : Place)
    (hPlace : place = .afterOpen ∨ place = .afterComma) :
    accept place (elements (s :: rest) ++ [.bracketClose]) = some (s :: rest) := by
  induction rest generalizing s place with
  | nil =>
    simp only [elements]
    rw [accept_literal s _ place hPlace, accept_next (by rfl)]
    rfl
  | cons s' rest ih =>
    simp only [elements, append_assoc, cons_append]
    rw [accept_literal s _ place hPlace, accept_next (by rfl), ih s' .afterComma (.inr rfl)]
    rfl

/-- **Key theorem:** what the encoder writes reads back. -/
theorem decode_encode (xs : List (List Char)) : decode (encode xs) = some xs := by
  have hLex : Lexes false (.bracketOpen :: elements xs ++ [.bracketClose]) :=
    ⟨rfl, lexes_elements ⟨rfl, trivial⟩⟩
  unfold decode encode
  rw [lex_text hLex (Nat.le_refl _), Option.bind_some]
  cases xs with
  | nil => rfl
  | cons s rest =>
    rw [cons_append, accept_next (by rfl)]
    exact accept_elements s rest .afterOpen (.inl rfl)

end JsonStrings
