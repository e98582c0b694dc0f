import RustyBrain.Store.Search

/-!
# rusty-brain — query text and full-text syntax

`escape_fts5_query` writes the words of a query as quoted phrases joined by `OR`. What FTS5
reads in such a text is decided by its lexer and its grammar, which are SQLite's and are set
down here: the lexer as it scans, the grammar rule by rule, without the precedence of its
operators. So a text may have several readings, and what is shown holds for each.
-/

namespace RustyBrain.Store.Fts5

/-! ## The lexer -/

open List

inductive Token where
  | lp | rp | lcp | rcp | colon | comma | plus | star | minus | caret
  | or | and | not
  | string (quoted : Bool) (text : Text)
  deriving DecidableEq

def isSpace (c : Char) : Bool := c = ' ' ∨ c = '\t' ∨ c = '\n' ∨ c = '\r'

def isBareword (c : Char) : Bool :=
  c.isAlphanum ∨ c = '_' ∨ c = Char.ofNat 26 ∨ 128 ≤ c.toNat

/-- The rest of a quoted string, in which a doubled quote is a quote, and what follows it. -/
def lexString : Text → Option (Text × Text)
  | '"' :: '"' :: t => (lexString t).map fun (s, rest) => ('"' :: s, rest)
  | '"' :: t => some ([], t)
  | c :: t => if c = Char.ofNat 0 then none else (lexString t).map fun (s, rest) => (c :: s, rest)
  | [] => none

/-- The token that begins with `c`. -/
def lexToken (c : Char) (t : Text) : Option (Token × Text) :=
  match c with
  | '(' => some (.lp, t)
  | ')' => some (.rp, t)
  | '\x7b' => some (.lcp, t)
  | '\x7d' => some (.rcp, t)
  | ':' => some (.colon, t)
  | ',' => some (.comma, t)
  | '+' => some (.plus, t)
  | '*' => some (.star, t)
  | '-' => some (.minus, t)
  | '^' => some (.caret, t)
  | '"' => (lexString t).map fun (s, rest) => (.string true s, rest)
  | _ =>
    if isBareword c then
      let word := c :: t.takeWhile isBareword
      let token := if word = ['O', 'R'] then .or
        else if word = ['N', 'O', 'T'] then .not
        else if word = ['A', 'N', 'D'] then .and
        else .string false word
      some (token, t.dropWhile isBareword)
    else none

/-- The tokens of a text; each takes a character at least, so the text has fuel enough. -/
def lex : Nat → Text → Option (List Token)
  | 0, _ => none
  | n + 1, text =>
    match text.dropWhile isSpace with
    | [] => some []
    | c :: t =>
      if c = Char.ofNat 0 then some []
      else (lexToken c t).bind fun (token, rest) => (lex n rest).map (token :: ·)

/-! ## The grammar -/

/-- The words of a phrase, each with its star. -/
abbrev Phrase : Type := List (Text × Bool)

/-- The columns a term is looked for in, or those it is not. -/
structure Columns where
  excluded : Bool
  names : List Text

/-- `NEAR` of phrases, or one phrase, which may have to begin the column. -/
structure Near where
  initial : Bool
  phrases : List Phrase
  distance : Option Text

structure Term where
  columns : Option Columns
  near : Near

inductive Expr where
  | all (terms : List Term)
  | or (a b : Expr)
  | and (a b : Expr)
  | not (a b : Expr)
  | within (columns : Columns) (e : Expr)

def starOpt (starred : Bool) : List Token := if starred then [.star] else []

inductive IsPhrase : List Token → Phrase → Prop
  | word (q s starred) : IsPhrase (.string q s :: starOpt starred) [(s, starred)]
  | plus {ts p} (q s starred) (h : IsPhrase ts p) :
      IsPhrase (ts ++ .plus :: .string q s :: starOpt starred) (p ++ [(s, starred)])

inductive IsColumns : List Token → Columns → Prop
  | one (q s excluded) :
      IsColumns ((if excluded then [.minus] else []) ++ [.string q s]) ⟨excluded, [s]⟩
  | several (names : List (Bool × Text)) (excluded) (h : names ≠ []) :
      IsColumns ((if excluded then [.minus] else []) ++
          .lcp :: names.map (fun n => .string n.1 n.2) ++ [.rcp])
        ⟨excluded, names.map Prod.snd⟩

inductive IsNear : List Token → Near → Prop
  | phrase {ts p} (h : IsPhrase ts p) : IsNear ts ⟨false, [p], none⟩
  | initial {ts p} (h : IsPhrase ts p) : IsNear (.caret :: ts) ⟨true, [p], none⟩
  | near (parts : List (List Token × Phrase)) (distance : Option (Bool × Text))
      (hSome : parts ≠ []) (h : ∀ x ∈ parts, IsPhrase x.1 x.2) :
      IsNear (.string false ['N', 'E', 'A', 'R'] :: .lp :: parts.flatMap Prod.fst ++
          (distance.map fun d => [.comma, .string d.1 d.2]).getD [] ++ [.rp])
        ⟨false, parts.map Prod.snd, distance.map Prod.snd⟩

inductive IsTerm : List Token → Term → Prop
  | near {ts n} (h : IsNear ts n) : IsTerm ts ⟨none, n⟩
  | columns {cs c ts n} (hc : IsColumns cs c) (h : IsNear ts n) :
      IsTerm (cs ++ .colon :: ts) ⟨some c, n⟩

inductive IsExpr : List Token → Expr → Prop
  | all (parts : List (List Token × Term)) (hSome : parts ≠ [])
      (h : ∀ x ∈ parts, IsTerm x.1 x.2) :
      IsExpr (parts.flatMap Prod.fst) (.all (parts.map Prod.snd))
  | or {ts us a b} (ha : IsExpr ts a) (hb : IsExpr us b) : IsExpr (ts ++ .or :: us) (.or a b)
  | and {ts us a b} (ha : IsExpr ts a) (hb : IsExpr us b) : IsExpr (ts ++ .and :: us) (.and a b)
  | not {ts us a b} (ha : IsExpr ts a) (hb : IsExpr us b) : IsExpr (ts ++ .not :: us) (.not a b)
  | group {ts e} (h : IsExpr ts e) : IsExpr (.lp :: ts ++ [.rp]) e
  | within {cs c ts e} (hc : IsColumns cs c) (h : IsExpr ts e) :
      IsExpr (cs ++ .colon :: .lp :: ts ++ [.rp]) (.within c e)

/-! ## What the grammar makes of quoted phrases -/

/-- The term of one word. -/
def Term.ofWord (w : Text) : Term := ⟨none, ⟨false, [[(w, false)]], none⟩⟩

/-- The terms of a disjunction, if the expression is nothing else. -/
def Expr.disjuncts : Expr → Option (List Term)
  | .all [t] => some [t]
  | .or a b => a.disjuncts.bind fun ts => b.disjuncts.map (ts ++ ·)
  | _ => none

/-- Quoted words with `OR` between them. -/
inductive Alternates : List Token → List Text → Prop
  | one (w) : Alternates [.string true w] [w]
  | more {ts ws} (w) (h : Alternates ts ws) : Alternates (.string true w :: .or :: ts) (w :: ws)

/-- A token of such a list. -/
def Token.plain : Token → Bool
  | .or | .string true _ => true
  | _ => false

variable {ts us : List Token} {ws : List Text}

theorem Alternates.plain (h : Alternates ts ws) : ∀ t ∈ ts, t.plain = true := by
  induction h with
  | one w => simp [Token.plain]
  | more w _ ih => simpa [Token.plain] using ih

theorem Alternates.split (h : Alternates (ts ++ .or :: us) ws) :
    ∃ ws₁ ws₂, ws = ws₁ ++ ws₂ ∧ Alternates ts ws₁ ∧ Alternates us ws₂ := by
  generalize hAll : ts ++ .or :: us = all at h
  induction h generalizing ts with
  | one w => cases ts <;> simp at hAll
  | @more rest ws w h ih =>
    match ts, hAll with
    | [t], hAll =>
      simp only [cons_append, nil_append, List.cons.injEq, true_and] at hAll
      exact ⟨[w], ws, rfl, hAll.1 ▸ .one w, hAll.2 ▸ h⟩
    | t :: t' :: ts, hAll =>
      simp only [cons_append, List.cons.injEq] at hAll
      obtain ⟨rfl, rfl, hRest⟩ := hAll
      obtain ⟨ws₁, ws₂, rfl, h₁, h₂⟩ := ih hRest
      exact ⟨w :: ws₁, ws₂, rfl, .more w h₁, h₂⟩

/-- A term of such tokens is one of the words. -/
theorem isTerm_plain {t : Term} (h : IsTerm ts t) (hPlain : ∀ x ∈ ts, x.plain = true) :
    ∃ w, ts = [.string true w] ∧ t = .ofWord w := by
  have hNone : ∀ x, x.plain = false → x ∉ ts := fun x hx hMem => by simp [hPlain x hMem] at hx
  cases h with
  | columns => exact absurd (by simp) (hNone .colon rfl)
  | near h =>
    cases h with
    | initial => exact absurd (by simp) (hNone .caret rfl)
    | near => exact absurd (by simp) (hNone .lp rfl)
    | phrase h =>
      cases h with
      | plus => exact absurd (by simp) (hNone .plus rfl)
      | word q s starred =>
        cases starred with
        | true => exact absurd (by simp [starOpt]) (hNone .star rfl)
        | false =>
          cases q with
          | true => exact ⟨s, rfl, rfl⟩
          | false => exact absurd (by simp) (hNone (.string false s) rfl)

/-- Every reading of such tokens is the disjunction of the words. -/
theorem isExpr_alternates {e : Expr} (h : IsExpr ts e) (hWords : Alternates ts ws) :
    e.disjuncts = some (ws.map Term.ofWord) := by
  induction h generalizing ws with
  | all parts hSome h =>
    have hPlain := hWords.plain
    match parts, hSome with
    | [x], _ =>
      obtain ⟨w, hTokens, hTerm⟩ :=
        isTerm_plain (h x (by simp)) fun t ht => hPlain t (by simpa using ht)
      simp only [flatMap_cons, flatMap_nil, hTokens] at hWords
      cases hWords
      simp [Expr.disjuncts, hTerm]
    | x :: y :: rest, _ =>
      -- two words never stand side by side
      obtain ⟨w, hx, -⟩ := isTerm_plain (h x (by simp)) fun t ht => hPlain t (by simp [ht])
      obtain ⟨w', hy, -⟩ := isTerm_plain (h y (by simp)) fun t ht => hPlain t (by simp [ht])
      simp only [flatMap_cons, hx, hy, singleton_append] at hWords
      cases hWords
  | or _ _ iha ihb =>
    obtain ⟨ws₁, ws₂, rfl, h₁, h₂⟩ := hWords.split
    rw [Expr.disjuncts, iha h₁, ihb h₂]
    simp
  | and => exact absurd (hWords.plain .and (by simp)) (by decide)
  | not => exact absurd (hWords.plain .not (by simp)) (by decide)
  | group => exact absurd (hWords.plain .lp (by simp)) (by decide)
  | within => exact absurd (hWords.plain .colon (by simp)) (by decide)

theorem Alternates.isExpr (h : Alternates ts ws) : ∃ e, IsExpr ts e := by
  have hWord : ∀ w, IsExpr [.string true w] (.all [.ofWord w]) := fun w =>
    .all [([.string true w], .ofWord w)] (by simp)
      (by simpa using .near (.phrase (.word true w false)))
  induction h with
  | one w => exact ⟨_, hWord w⟩
  | more w _ ih =>
    obtain ⟨e, he⟩ := ih
    exact ⟨_, .or (hWord w) he⟩

/-! ## What the lexer makes of the words -/

/-- The text of the words. -/
def phrases (ws : List Text) : Text :=
  List.intercalate [' ', 'O', 'R', ' '] (ws.map fun w => '"' :: w ++ ['"'])

/-- Nothing in the word ends a string. -/
def Inert (w : Text) : Prop := ∀ c ∈ w, c ≠ '"' ∧ c ≠ Char.ofNat 0

theorem lexString_word {w rest : Text} (hw : Inert w) (hRest : rest.head? ≠ some '"') :
    lexString (w ++ '"' :: rest) = some (w, rest) := by
  induction w with
  | nil =>
    cases rest with
    | nil => rfl
    | cons c t =>
      rw [nil_append, lexString]
      intro t hText
      simp [(List.cons.inj hText).1] at hRest
  | cons c w ih =>
    obtain ⟨⟨hQuote, hNul⟩, hTail⟩ := forall_mem_cons.mp hw
    rw [cons_append, lexString, if_neg hNul, ih hTail]
    · rfl
    · exact fun _ h => absurd h hQuote
    · exact fun h => absurd h hQuote

theorem lex_word {n : Nat} {w rest : Text} (hw : Inert w) (hRest : rest.head? ≠ some '"') :
    lex (n + 1) ('"' :: w ++ '"' :: rest) = (lex n rest).map (.string true w :: ·) := by
  have hString := lexString_word hw hRest
  rw [cons_append, lex, dropWhile_cons_of_neg (by decide)]
  simp [lexToken, hString]

theorem lex_or (n : Nat) (t : Text) :
    lex (n + 1) (' ' :: 'O' :: 'R' :: ' ' :: t) = (lex n (' ' :: t)).map (.or :: ·) := by
  simp [lex, isSpace, lexToken, isBareword]

theorem lex_space (n : Nat) (t : Text) : lex n (' ' :: t) = lex n t := by
  cases n <;> simp [lex, isSpace]

/-- The lexer finds the phrases and the operators between them, nothing else. -/
theorem lex_phrases (w : Text) (ws : List Text) (hWords : ∀ v ∈ w :: ws, Inert v) :
    ∃ ts, Alternates ts (w :: ws) ∧
      ∀ n, (phrases (w :: ws)).length < n → lex n (phrases (w :: ws)) = some ts := by
  induction ws generalizing w with
  | nil =>
    refine ⟨_, .one w, fun n hn => ?_⟩
    obtain ⟨m, rfl⟩ : ∃ m, n = m + 1 + 1 := ⟨n - 2, by simp [phrases] at hn; omega⟩
    have hText : phrases [w] = '"' :: w ++ '"' :: [] := by simp [phrases]
    rw [hText, lex_word (hWords w (by simp)) (by simp)]
    rfl
  | cons v ws ih =>
    obtain ⟨hw, hRest⟩ := forall_mem_cons.mp hWords
    obtain ⟨ts, hTokens, hLex⟩ := ih v hRest
    refine ⟨_, .more w hTokens, fun n hn => ?_⟩
    have hText : phrases (w :: v :: ws) =
        '"' :: w ++ '"' :: ' ' :: 'O' :: 'R' :: ' ' :: phrases (v :: ws) := by
      simp [phrases, intercalate_cons_cons]
    rw [hText] at hn ⊢
    obtain ⟨m, rfl⟩ : ∃ m, n = m + 1 + 1 := ⟨n - 2, by simp at hn; omega⟩
    rw [lex_word hw (by simp), lex_or, lex_space, hLex m (by simp at hn; omega)]
    rfl

/-! ## The words of a query -/

/-- The longest runs of characters with the property, in their order. -/
inductive Runs (p : Char → Bool) : Text → List Text → Prop
  | nil : Runs p [] []
  | skip {c t ws} (hc : p c = false) (h : Runs p t ws) : Runs p (c :: t) ws
  | run {w rest ws} (hSome : w ≠ []) (hw : ∀ c ∈ w, p c = true)
      (hEnd : ∀ c ∈ rest.head?, p c = false) (h : Runs p rest ws) : Runs p (w ++ rest) (w :: ws)

/-- The words are the longest runs of alphanumeric characters. -/
theorem runs_splitOnP (p : Char → Bool) (text : Text) :
    Runs p text ((text.splitOnP fun c => !p c).filter (· ≠ [])) := by
  induction hLength : text.length using Nat.strong_induction_on generalizing text with
  | _ n ih =>
    subst hLength
    have hRun : ∀ c ∈ text.takeWhile p, p c = true := fun c => mem_takeWhile_imp
    have hText := takeWhile_append_dropWhile (p := p) (l := text)
    generalize text.takeWhile p = w at hRun hText
    cases hRest : text.dropWhile p with
    | nil =>
      rw [hRest, append_nil] at hText
      subst hText
      rw [splitOnP_eq_singleton (by simpa using hRun)]
      by_cases hw : w = []
      · simpa [hw] using .nil
      · simpa [hw] using Runs.run hw hRun (by simp) .nil
    | cons c rest =>
      have hc : p c = false := by
        simpa [hRest] using head_dropWhile_not p (l := text) (by simp [hRest])
      rw [hRest] at hText
      subst hText
      have hAfter := Runs.skip hc (ih rest.length (by simp; omega) rest rfl)
      rw [splitOnP_append_cons_of_forall_mem (by simpa using hRun) c (by simp [hc])]
      by_cases hw : w = []
      · simpa [hw] using hAfter
      · simpa [hw] using Runs.run hw hRun (by simpa using hc) hAfter

theorem Runs.mem {p : Char → Bool} {text : Text} {ws : List Text} (h : Runs p text ws) :
    ∀ w ∈ ws, ∀ c ∈ w, p c = true := by
  induction h with
  | nil => simp
  | skip _ _ ih => exact ih
  | run _ hw _ _ ih => exact forall_mem_cons.mpr ⟨hw, ih⟩

/-- A query is never syntax. Its text is accepted, and in every reading it is the disjunction
of its words, or the one empty phrase if it has none. Of the alphanumeric characters only
that the quote and the end of a C string are not among them is used. -/
theorem query_is_never_syntax (isAlphanumeric : Char → Bool) (hQuote : isAlphanumeric '"' = false)
    (hNul : isAlphanumeric (Char.ofNat 0) = false) (query : Text) :
    ∃ words ts, Runs isAlphanumeric query words ∧
      lex ((escapeFts5Query isAlphanumeric query).length + 1)
        (escapeFts5Query isAlphanumeric query) = some ts ∧
      (∃ e, IsExpr ts e) ∧
      ∀ e, IsExpr ts e → e.disjuncts =
        some ((if words = [] then [[]] else words).map Term.ofWord) := by
  have hRuns := runs_splitOnP isAlphanumeric query
  have hInert : ∀ w ∈ (query.splitOnP fun c => !isAlphanumeric c).filter (· ≠ []), Inert w := by
    refine fun w hw c hc => ⟨?_, ?_⟩
    · rintro rfl
      exact absurd (hRuns.mem w hw _ hc) (by simp [hQuote])
    · rintro rfl
      exact absurd (hRuns.mem w hw _ hc) (by simp [hNul])
  unfold escapeFts5Query
  generalize (query.splitOnP fun c => !isAlphanumeric c).filter (· ≠ []) = words at hRuns hInert
  obtain ⟨w, ws, hPhrases, hWords, hEscaped⟩ : ∃ w ws,
      (if words = [] then [[]] else words) = w :: ws ∧ (∀ v ∈ w :: ws, Inert v) ∧
      (if words = [] then ['"', '"'] else phrases words) = phrases (w :: ws) := by
    cases words with
    | nil => exact ⟨[], [], rfl, by simp [Inert], rfl⟩
    | cons w ws => exact ⟨w, ws, rfl, hInert, rfl⟩
  obtain ⟨ts, hTokens, hLex⟩ := lex_phrases w ws hWords
  refine ⟨words, ts, hRuns, ?_, hTokens.isExpr, fun e he => ?_⟩
  · exact hEscaped ▸ hLex _ (Nat.lt_succ_self _)
  · rw [hPhrases]
    exact isExpr_alternates he hTokens

theorem operators_are_words : ∃ words ts, Runs Char.isAlphanum "x OR NEAR(".toList words ∧
    lex ((escapeFts5Query Char.isAlphanum "x OR NEAR(".toList).length + 1)
      (escapeFts5Query Char.isAlphanum "x OR NEAR(".toList) = some ts ∧
    ∃ e, IsExpr ts e ∧
      e.disjuncts = some ((if words = [] then [[]] else words).map Term.ofWord) := by
  obtain ⟨words, ts, hRuns, hLex, ⟨e, he⟩, hReads⟩ :=
    query_is_never_syntax Char.isAlphanum (by decide) (by decide) "x OR NEAR(".toList
  exact ⟨words, ts, hRuns, hLex, e, he, hReads e he⟩

end RustyBrain.Store.Fts5
