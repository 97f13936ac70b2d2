import Mathlib.Data.List.Basic

/-!
# Tokens

The lexicon of `tipg4/TIP.g4`. The character literals of the parser rules are tokens of their own, but
for `'&'`, which is the token of the rule `LAND`, `'*'`, which is that of `MUL`. The text of an
identifier or of a number is what the rule admits (`Identifier`, `Numeral`).
-/

set_option autoImplicit false
set_option relaxedAutoImplicit false

namespace Sipc

/-- The texts of the keywords, which take precedence over identifiers. -/
def keywords : List String :=
  ["alloc", "input", "while", "for", "by", "if", "else", "var", "return", "null", "output", "error",
    "true", "false", "not", "and", "or", "of", "poly"]

/-- A first character of an identifier. -/
def isIdentifierStart (c : Char) : Bool :=
  c.isAlpha || c = '_'

/-- A further character of an identifier. -/
def isIdentifierPart (c : Char) : Bool :=
  c.isAlphanum || c = '_'

/-- The rule `IDENTIFIER`, where no keyword matches. -/
def IsIdentifier (text : String) : Prop :=
  text.toList.head?.any isIdentifierStart ∧ text.toList.all isIdentifierPart ∧ text ∉ keywords

instance : DecidablePred IsIdentifier := fun _ ↦ inferInstanceAs (Decidable (_ ∧ _))

theorem isIdentifier_main : IsIdentifier "main" := by decide

/-- The text of an `IDENTIFIER` token. -/
structure Identifier where
  text : String
  isIdentifier : IsIdentifier text
  deriving DecidableEq

theorem Identifier.ext {x y : Identifier} (h : x.text = y.text) : x = y := by
  cases x
  cases y
  cases h
  rfl

/-- The text of a `NUMBER` token. -/
structure Numeral where
  digits : List Char
  nonempty : digits ≠ []
  isDigit : ∀ c ∈ digits, c.isDigit
  deriving DecidableEq

/-- The number a numeral denotes. -/
def Numeral.value (n : Numeral) : ℕ :=
  Nat.ofDigitChars 10 n.digits 0

/-- The decimal numeral of a number. -/
def Numeral.ofNat (n : ℕ) : Numeral where
  digits := Nat.toDigits 10 n
  nonempty := Nat.toDigits_ne_nil
  isDigit _ := Nat.isDigit_of_mem_toDigits (by decide) (by decide)

theorem Numeral.value_ofNat (n : ℕ) : (Numeral.ofNat n).value = n :=
  Nat.ofDigitChars_ten_toDigits

inductive Token
  | lparen | rparen | comma | lbrace | rbrace | semi | dot | lbracket | rbracket | hash | question
  | colon | assign | dotDot
  | mul | div | add | sub | gt | mod | lor | land | mm | pp | lt | gte | lte | eq | ne
  | number (n : Numeral)
  | kAlloc | kInput | kWhile | kFor | kBy | kIf | kElse | kVar | kReturn | kNull | kOutput | kError
  | kTrue | kFalse | kNot | kAnd | kOr | kOf | kPoly
  | identifier (x : Identifier)
  deriving DecidableEq

/-- One of the tokens of a parenthesised choice. -/
abbrev OneOf (tokens : List Token) : Type :=
  { t : Token // t ∈ tokens }

/-- The text that the token was matched with. -/
def Token.text : Token → String
  | .lparen => "("
  | .rparen => ")"
  | .comma => ","
  | .lbrace => "\x7b"
  | .rbrace => "\x7d"
  | .semi => ";"
  | .dot => "."
  | .lbracket => "["
  | .rbracket => "]"
  | .hash => "#"
  | .question => "?"
  | .colon => ":"
  | .assign => "="
  | .dotDot => ".."
  | .mul => "*"
  | .div => "/"
  | .add => "+"
  | .sub => "-"
  | .gt => ">"
  | .mod => "%"
  | .lor => "|"
  | .land => "&"
  | .mm => "--"
  | .pp => "++"
  | .lt => "<"
  | .gte => ">="
  | .lte => "<="
  | .eq => "=="
  | .ne => "!="
  | .number n => String.ofList n.digits
  | .kAlloc => "alloc"
  | .kInput => "input"
  | .kWhile => "while"
  | .kFor => "for"
  | .kBy => "by"
  | .kIf => "if"
  | .kElse => "else"
  | .kVar => "var"
  | .kReturn => "return"
  | .kNull => "null"
  | .kOutput => "output"
  | .kError => "error"
  | .kTrue => "true"
  | .kFalse => "false"
  | .kNot => "not"
  | .kAnd => "and"
  | .kOr => "or"
  | .kOf => "of"
  | .kPoly => "poly"
  | .identifier x => x.text

end Sipc
