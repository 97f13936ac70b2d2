import Mathlib.Data.List.TakeWhile
import Sipc.Frontend.Token

/-!
# The lexer

The generated lexer of `tipg4/TIP.g4`: the longest match, and the first rule among equally long ones.
A word is a keyword where its text is one, and white space and comments are skipped. A text that ends
in a word or a bracket spells its tokens before every character that does not go on with a word
(`Spells`), and one that ends in white space or in a symbol that is part of no longer one spells them
before any text (`Opens`).
-/

set_option autoImplicit false
set_option relaxedAutoImplicit false

namespace Sipc

/-- The tokens that are neither words nor numbers, the longer ones first. -/
def symbols : List Token :=
  [.mm, .pp, .gte, .lte, .eq, .ne, .dotDot, .lparen, .rparen, .comma, .lbrace, .rbrace, .semi, .dot,
    .lbracket, .rbracket, .hash, .question, .colon, .assign, .mul, .div, .add, .sub, .gt, .mod, .lor,
    .land, .lt]

/-- The tokens of the keywords. -/
def keywordTokens : List Token :=
  [.kAlloc, .kInput, .kWhile, .kFor, .kBy, .kIf, .kElse, .kVar, .kReturn, .kNull, .kOutput, .kError,
    .kTrue, .kFalse, .kNot, .kAnd, .kOr, .kOf, .kPoly]

/-- The rule `WS`. -/
def isSpace (c : Char) : Bool :=
  c = ' ' || c = '\t' || c = '\n' || c = '\r'

/-- A keyword or an `IDENTIFIER`. -/
def wordToken (word : List Char) : Option Token :=
  match keywordTokens.find? fun t ↦ t.text = String.ofList word with
  | some t => some t
  | none =>
    if h : IsIdentifier (String.ofList word) then some (.identifier ⟨String.ofList word, h⟩) else none

/-- A `NUMBER`. -/
def numberToken (digits : List Char) : Option Token :=
  if h : digits ≠ [] ∧ digits.all Char.isDigit then
    some (.number ⟨digits, h.1, List.all_eq_true.1 h.2⟩)
  else none

/-- What follows the first end of a block comment. -/
def afterBlockComment : List Char → Option (List Char)
  | [] => none
  | c :: cs => if ['*', '/'].isPrefixOf (c :: cs) then some (cs.drop 1) else afterBlockComment cs

/-- What follows a `BLOCKCOMMENT` or a `COMMENT`. -/
def afterComment (cs : List Char) : Option (List Char) :=
  if ['/', '*'].isPrefixOf cs then afterBlockComment (cs.drop 2)
  else if ['/', '/'].isPrefixOf cs then some (cs.dropWhile fun c ↦ c ≠ '\n' && c ≠ '\r')
  else none

/-- The first token, or nothing where the match is skipped, and what follows the match. -/
def nextLexeme : List Char → Option (Option Token × List Char)
  | [] => none
  | c :: cs =>
    if isIdentifierStart c then do
      let t ← wordToken ((c :: cs).takeWhile isIdentifierPart)
      return (some t, (c :: cs).dropWhile isIdentifierPart)
    else if c.isDigit then do
      let t ← numberToken ((c :: cs).takeWhile Char.isDigit)
      return (some t, (c :: cs).dropWhile Char.isDigit)
    else if isSpace c then some (none, (c :: cs).dropWhile isSpace)
    else
      match afterComment (c :: cs) with
      | some rest => some (none, rest)
      | none => do
        let t ← symbols.find? fun t ↦ t.text.toList.isPrefixOf (c :: cs)
        return (some t, (c :: cs).drop t.text.toList.length)

/-- At most `n` matches. -/
def lexFrom : ℕ → List Char → Option (List Token)
  | _, [] => some []
  | 0, _ :: _ => none
  | n + 1, c :: cs => do
    let (t, rest) ← nextLexeme (c :: cs)
    let ts ← lexFrom n rest
    return t.toList ++ ts

/-- The tokens of a text. -/
def tokenise (text : String) : Option (List Token) :=
  lexFrom text.toList.length text.toList

/-! ### Every match takes a character -/

theorem length_dropWhile_lt {α : Type} {p : α → Bool} {c : α} (cs : List α) (hc : p c) :
    ((c :: cs).dropWhile p).length < (c :: cs).length := by
  rw [List.dropWhile_cons_of_pos hc]
  exact Nat.lt_succ_of_le (List.length_dropWhile_le p cs)

theorem length_afterBlockComment {rest : List Char} :
    ∀ {cs : List Char}, afterBlockComment cs = some rest → rest.length < cs.length
  | c :: cs, h => by
    rw [afterBlockComment] at h
    split at h
    · cases h
      rw [List.length_drop, List.length_cons]
      omega
    · exact Nat.lt_succ_of_lt (length_afterBlockComment h)

theorem length_afterComment {cs rest : List Char} (h : afterComment cs = some rest) :
    rest.length < cs.length := by
  unfold afterComment at h
  split at h
  · have hlt := length_afterBlockComment h
    rw [List.length_drop] at hlt
    omega
  · split at h
    next hp =>
      obtain ⟨cs', rfl⟩ := List.isPrefixOf_iff_prefix.1 hp
      cases h
      exact length_dropWhile_lt _ rfl
    next => cases h

theorem length_symbol_pos {t : Token} (h : t ∈ symbols) : 0 < t.text.toList.length := by
  revert t
  decide

theorem length_nextLexeme {cs rest : List Char} {t : Option Token}
    (h : nextLexeme cs = some (t, rest)) : rest.length < cs.length := by
  cases cs with
  | nil => cases h
  | cons c cs =>
    rw [nextLexeme] at h
    split at h
    next hc =>
      obtain ⟨t', -, ht'⟩ := Option.bind_eq_some_iff.1 h
      cases ht'
      refine length_dropWhile_lt cs ?_
      simp only [isIdentifierStart, isIdentifierPart, Char.isAlphanum, Bool.or_eq_true] at hc ⊢
      exact hc.imp_left Or.inl
    next =>
    split at h
    next hc =>
      obtain ⟨t', -, ht'⟩ := Option.bind_eq_some_iff.1 h
      cases ht'
      exact length_dropWhile_lt cs hc
    next =>
    split at h
    next hc =>
      cases h
      exact length_dropWhile_lt cs hc
    next =>
    split at h
    next hcomment =>
      cases h
      exact length_afterComment hcomment
    next =>
      obtain ⟨t', hfind, ht'⟩ := Option.bind_eq_some_iff.1 h
      cases ht'
      have hpos := length_symbol_pos (List.mem_of_find?_eq_some hfind)
      rw [List.length_drop, List.length_cons]
      omega

/-- The number of characters is enough. -/
theorem lexFrom_eq : ∀ {n m : ℕ} {cs : List Char}, cs.length ≤ n → cs.length ≤ m →
    lexFrom n cs = lexFrom m cs
  | 0, 0, [], _, _ | 0, _ + 1, [], _, _ | _ + 1, 0, [], _, _ | _ + 1, _ + 1, [], _, _ => rfl
  | n + 1, m + 1, c :: cs, hn, hm => by
    rw [lexFrom, lexFrom]
    refine Option.bind_congr fun ⟨t, rest⟩ h ↦ ?_
    have hlt := length_nextLexeme h
    rw [List.length_cons] at hn hm hlt
    dsimp only
    rw [lexFrom_eq (n := n) (m := m) (by omega) (by omega)]

/-- The tokens of a text, as a list of characters. -/
def lex (cs : List Char) : Option (List Token) :=
  lexFrom cs.length cs

theorem lex_of_nextLexeme {cs rest : List Char} {t : Option Token}
    (h : nextLexeme cs = some (t, rest)) : lex cs = (lex rest).map (t.toList ++ ·) := by
  cases cs with
  | nil => cases h
  | cons c cs =>
    have hlt := length_nextLexeme h
    rw [List.length_cons] at hlt
    rw [lex, List.length_cons, lexFrom, h, Option.bind_eq_bind, Option.bind_some]
    dsimp only
    rw [lexFrom_eq (m := rest.length) (by omega) (Nat.le_refl _), lex, Option.map_eq_bind]
    rfl

/-! ### Texts that spell tokens -/

/-- The text spells the tokens before any other text. -/
def Opens (text : String) (ts : List Token) : Prop :=
  ∀ rest, lex (text.toList ++ rest) = (lex rest).map (ts ++ ·)

/-- The text spells the tokens before every other text that does not go on with a word. -/
def Spells (text : String) (ts : List Token) : Prop :=
  ∀ rest, (∀ c ∈ rest.head?, isIdentifierPart c = false) →
    lex (text.toList ++ rest) = (lex rest).map (ts ++ ·)

/-- The text does not go on with a word. -/
def BreaksWord (text : String) : Prop :=
  text.toList.head?.any fun c ↦ !isIdentifierPart c

section Rules

variable {text text' : String} {ts ts' : List Token}

theorem Opens.spells (h : Opens text ts) : Spells text ts :=
  fun rest _ ↦ h rest

theorem map_append_map (o : Option (List Token)) :
    (o.map (ts' ++ ·)).map (ts ++ ·) = o.map (ts ++ ts' ++ ·) := by
  cases o with
  | none => rfl
  | some us => exact congrArg some (List.append_assoc ts ts' us).symm

theorem map_nil_append (o : Option (List Token)) : o.map (([] : List Token) ++ ·) = o := by
  cases o <;> rfl

theorem opens_empty : Opens "" [] :=
  fun rest ↦ (map_nil_append (lex rest)).symm

theorem Opens.append (h : Opens text ts) (h' : Opens text' ts') : Opens (text ++ text') (ts ++ ts') :=
  fun rest ↦ by
    rw [String.toList_append, List.append_assoc, h, h', map_append_map]

theorem Opens.appendSpells (h : Opens text ts) (h' : Spells text' ts') :
    Spells (text ++ text') (ts ++ ts') :=
  fun rest hrest ↦ by
    rw [String.toList_append, List.append_assoc, h, h' rest hrest, map_append_map]

theorem BreaksWord.head (h : BreaksWord text) (rest : List Char) :
    ∀ c ∈ (text.toList ++ rest).head?, isIdentifierPart c = false := by
  unfold BreaksWord at h
  cases hcs : text.toList with
  | nil => rw [hcs] at h; cases h
  | cons c cs =>
    rw [hcs] at h
    intro c' hc'
    cases hc'
    simpa using h

theorem BreaksWord.append (h : BreaksWord text) : BreaksWord (text ++ text') := by
  unfold BreaksWord at h ⊢
  rw [String.toList_append]
  cases hcs : text.toList with
  | nil => rw [hcs] at h; cases h
  | cons c cs => rwa [hcs] at h

theorem Spells.append (h : Spells text ts) (h' : Opens text' ts') (hbreak : BreaksWord text') :
    Opens (text ++ text') (ts ++ ts') :=
  fun rest ↦ by
    rw [String.toList_append, List.append_assoc, h _ (hbreak.head rest), h', map_append_map]

theorem Spells.appendSpells (h : Spells text ts) (h' : Spells text' ts')
    (hbreak : BreaksWord text') : Spells (text ++ text') (ts ++ ts') :=
  fun rest hrest ↦ by
    rw [String.toList_append, List.append_assoc, h _ (hbreak.head rest), h' rest hrest,
      map_append_map]

theorem Spells.tokenise_eq (h : Spells text ts) : tokenise text = some ts := by
  have hlex := h [] (by simp)
  rwa [List.append_nil, lex, lex, List.length_nil, lexFrom, Option.map_some, List.append_nil] at hlex

theorem opens_of_nextLexeme {t : Option Token}
    (h : ∀ rest, nextLexeme (text.toList ++ rest) = some (t, rest)) : Opens text t.toList :=
  fun rest ↦ lex_of_nextLexeme (h rest)

end Rules

/-! ### White space, symbols and words -/

theorem nextLexeme_space {c : Char} (cs : List Char) (hc : isSpace c) :
    nextLexeme (c :: cs) = some (none, cs.dropWhile isSpace) := by
  have hcases : c = ' ' ∨ c = '\t' ∨ c = '\n' ∨ c = '\r' := by
    simpa [isSpace, or_assoc] using hc
  rw [← List.dropWhile_cons_of_pos hc]
  rcases hcases with rfl | rfl | rfl | rfl <;> rfl

theorem lex_dropWhile_space (cs : List Char) : lex (cs.dropWhile isSpace) = lex cs := by
  cases cs with
  | nil => rfl
  | cons c cs =>
    by_cases hc : isSpace c
    · rw [List.dropWhile_cons_of_pos hc, lex_of_nextLexeme (nextLexeme_space cs hc)]
      exact (map_nil_append _).symm
    · rw [List.dropWhile_cons_of_neg hc]

theorem lex_space {c : Char} (cs : List Char) (hc : isSpace c) : lex (c :: cs) = lex cs := by
  rw [lex_of_nextLexeme (nextLexeme_space cs hc), lex_dropWhile_space]
  exact map_nil_append _

/-- White space spells nothing. -/
theorem opens_spaces {text : String} (h : text.toList.all isSpace) : Opens text [] := by
  intro rest
  rw [List.all_eq_true] at h
  generalize text.toList = cs at h
  induction cs with
  | nil => exact opens_empty rest
  | cons c cs ih =>
    rw [List.cons_append, lex_space _ (h c List.mem_cons_self)]
    exact ih fun d hd ↦ h d (List.mem_cons_of_mem _ hd)

theorem opens_space : Opens " " [] :=
  opens_spaces rfl

/-- The symbols that no other one begins with. -/
def closedSymbols : List Token :=
  [.mm, .pp, .gte, .lte, .eq, .ne, .dotDot, .lparen, .rparen, .comma, .lbrace, .rbrace, .semi,
    .lbracket, .rbracket, .hash, .question, .colon, .mul, .mod, .lor, .land]

theorem opens_symbol {t : Token} (h : t ∈ closedSymbols) : Opens t.text [t] := by
  refine opens_of_nextLexeme (t := some t) fun rest ↦ ?_
  simp only [closedSymbols, List.mem_cons, List.not_mem_nil, or_false] at h
  rcases h with rfl | rfl | rfl | rfl | rfl | rfl | rfl | rfl | rfl | rfl | rfl | rfl | rfl | rfl |
    rfl | rfl | rfl | rfl | rfl | rfl | rfl | rfl <;> rfl

/-- Every symbol may stand before a space. -/
theorem opens_symbol_space {t : Token} (h : t ∈ symbols) : Opens (t.text ++ " ") [t] := by
  intro rest
  have hnext : nextLexeme (t.text.toList ++ (" ".toList ++ rest)) = some (some t, ' ' :: rest) := by
    simp only [symbols, List.mem_cons, List.not_mem_nil, or_false] at h
    rcases h with rfl | rfl | rfl | rfl | rfl | rfl | rfl | rfl | rfl | rfl | rfl | rfl | rfl | rfl |
      rfl | rfl | rfl | rfl | rfl | rfl | rfl | rfl | rfl | rfl | rfl | rfl | rfl | rfl | rfl <;> rfl
  rw [String.toList_append, List.append_assoc, lex_of_nextLexeme hnext, lex_space rest rfl]
  rfl

/-- A symbol that only one other one begins with. -/
theorem nextLexeme_symbol {t : Token} {cs rest : List Char}
    (h : nextLexeme cs = do
      let t ← symbols.find? fun t ↦ t.text.toList.isPrefixOf cs
      return (some t, cs.drop t.text.toList.length))
    (hfind : symbols.find? (fun t ↦ t.text.toList.isPrefixOf cs) = some t)
    (hrest : cs.drop t.text.toList.length = rest) : nextLexeme cs = some (some t, rest) := by
  rw [h, hfind, ← hrest]
  rfl

theorem lex_sub {c : Char} (cs : List Char) (hc : c ≠ '-') :
    lex ('-' :: c :: cs) = (lex (c :: cs)).map ([.sub] ++ ·) := by
  have hne : ('-' == c) = false := beq_false_of_ne hc.symm
  refine lex_of_nextLexeme (t := some .sub) (nextLexeme_symbol rfl ?_ rfl)
  change (match '-' == c && true with | true => some Token.mm | false => some Token.sub) = _
  rw [hne]
  rfl

theorem lex_dot {c : Char} (cs : List Char) (hc : c ≠ '.') :
    lex ('.' :: c :: cs) = (lex (c :: cs)).map ([.dot] ++ ·) := by
  have hne : ('.' == c) = false := beq_false_of_ne hc.symm
  refine lex_of_nextLexeme (t := some .dot) (nextLexeme_symbol rfl ?_ rfl)
  change (match '.' == c && true with | true => some Token.dotDot | false => some Token.dot) = _
  rw [hne]
  rfl

theorem takeWhile_append_eq {p : Char → Bool} {cs rest : List Char} (h : ∀ c ∈ cs, p c)
    (hrest : ∀ c ∈ rest.head?, p c = false) :
    (cs ++ rest).takeWhile p = cs ∧ (cs ++ rest).dropWhile p = rest := by
  rw [List.takeWhile_append_of_pos h, List.dropWhile_append_of_pos h]
  cases rest with
  | nil => exact ⟨List.append_nil cs, rfl⟩
  | cons c rest =>
    have hc : ¬ p c := by simp [hrest c rfl]
    rw [List.takeWhile_cons_of_neg hc, List.dropWhile_cons_of_neg hc]
    exact ⟨List.append_nil cs, rfl⟩

/-- A word and what follows it. -/
theorem spells_word {t : Token} {text : String} (ht : wordToken text.toList = some t)
    (hstart : text.toList.head?.any isIdentifierStart)
    (hpart : ∀ c ∈ text.toList, isIdentifierPart c) : Spells text [t] := by
  intro rest hrest
  obtain ⟨htake, hdrop⟩ := takeWhile_append_eq hpart hrest
  refine lex_of_nextLexeme (t := some t) ?_
  cases hcs : text.toList with
  | nil => rw [hcs] at hstart; cases hstart
  | cons c cs =>
    rw [hcs] at hstart htake hdrop ht
    rw [List.cons_append] at htake hdrop ⊢
    have hc : isIdentifierStart c := hstart
    rw [nextLexeme, if_pos hc, htake, hdrop, ht]
    rfl

theorem spells_keyword {t : Token} (h : t ∈ keywordTokens) : Spells t.text [t] := by
  have hword : wordToken t.text.toList = some t ∧ t.text.toList.head?.any isIdentifierStart ∧
      t.text.toList.all isIdentifierPart := by
    revert t
    decide
  exact spells_word hword.1 hword.2.1 (List.all_eq_true.1 hword.2.2)

theorem spells_identifier (x : Identifier) : Spells x.text [.identifier x] := by
  obtain ⟨hstart, hpart, hkey⟩ := x.isIdentifier
  refine spells_word ?_ hstart (by simpa using hpart)
  have hnone : (keywordTokens.find? fun t ↦ t.text = x.text) = none := by
    refine List.find?_eq_none.2 fun t ht heq ↦ hkey ?_
    have hall : ∀ t ∈ keywordTokens, t.text ∈ keywords := by decide
    rw [← of_decide_eq_true heq]
    exact hall t ht
  unfold wordToken
  rw [String.ofList_toList, hnone]
  exact dif_pos x.isIdentifier

theorem not_isIdentifierStart_of_isDigit {c : Char} (h : c.isDigit) :
    isIdentifierStart c = false := by
  have hle : c.val.toNat ≤ 57 := (Char.isDigit_iff_toNat.1 h).2
  have hunderscore : c ≠ '_' := by
    rintro rfl
    cases h
  have hupper : c.isUpper = false := by
    refine decide_eq_false fun hu ↦ ?_
    have hge : 65 ≤ c.val.toNat := UInt32.le_iff_toNat_le.1 hu.1
    omega
  have hlower : c.isLower = false := by
    refine Bool.eq_false_iff.2 fun hl ↦ ?_
    have hle' := of_decide_eq_true (Bool.and_eq_true_iff.1 hl).1
    have hge : 97 ≤ c.val.toNat := UInt32.le_iff_toNat_le.1 hle'
    omega
  change (c.isUpper || c.isLower || decide (c = '_')) = false
  rw [hupper, hlower, decide_eq_false hunderscore]
  rfl

theorem isIdentifierPart_of_isDigit {c : Char} (h : c.isDigit) : isIdentifierPart c := by
  simp [isIdentifierPart, Char.isAlphanum, h]

theorem spells_numeral (n : Numeral) : Spells (String.ofList n.digits) [.number n] := by
  intro rest hrest
  have hrest' : ∀ c ∈ rest.head?, c.isDigit = false := by
    intro c hc
    by_contra h
    have hpart := isIdentifierPart_of_isDigit (by simpa using h)
    rw [hrest c hc] at hpart
    cases hpart
  obtain ⟨htake, hdrop⟩ := takeWhile_append_eq n.isDigit hrest'
  rw [String.toList_ofList]
  refine lex_of_nextLexeme (t := some (.number n)) ?_
  cases hcs : n.digits with
  | nil => exact absurd hcs n.nonempty
  | cons c cs =>
    have hc : c.isDigit := n.isDigit c (by rw [hcs]; exact List.mem_cons_self)
    have hnumber : numberToken (c :: cs) = some (.number n) := by
      rw [← hcs]
      exact dif_pos ⟨n.nonempty, List.all_eq_true.2 n.isDigit⟩
    rw [hcs, List.cons_append] at htake hdrop
    rw [List.cons_append, nextLexeme, not_isIdentifierStart_of_isDigit hc, if_neg (by decide), if_pos hc,
      htake, hdrop, hnumber]
    rfl

/-- A unary minus before a number. -/
theorem spells_sub_numeral (n : Numeral) : Spells ("-" ++ String.ofList n.digits) [.sub, .number n] := by
  intro rest hrest
  have hn := spells_numeral n rest hrest
  have hminus : "-".toList = ['-'] := rfl
  rw [String.toList_append, List.append_assoc, hminus, List.singleton_append]
  rw [String.toList_ofList] at hn ⊢
  cases hcs : n.digits with
  | nil => exact absurd hcs n.nonempty
  | cons c cs =>
    have hc : c.isDigit := n.isDigit c (by rw [hcs]; exact List.mem_cons_self)
    have hne : c ≠ '-' := by
      rintro rfl
      cases hc
    rw [hcs, List.cons_append] at hn
    rw [List.cons_append, lex_sub _ hne, hn, map_append_map]
    rfl

/-- A field after its dot. -/
theorem spells_dot_identifier (x : Identifier) : Spells ("." ++ x.text) [.dot, .identifier x] := by
  intro rest hrest
  have hx := spells_identifier x rest hrest
  have hstart := x.isIdentifier.1
  have hdot : ".".toList = ['.'] := rfl
  rw [String.toList_append, List.append_assoc, hdot, List.singleton_append]
  cases hcs : x.text.toList with
  | nil => rw [hcs] at hstart; cases hstart
  | cons c cs =>
    have hc : isIdentifierStart c := by
      rw [hcs] at hstart
      exact hstart
    have hne : c ≠ '.' := by
      rintro rfl
      cases hc
    rw [hcs, List.cons_append] at hx
    rw [List.cons_append, lex_dot _ hne, hx, map_append_map]
    rfl

end Sipc
