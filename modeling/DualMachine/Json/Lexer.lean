import DualMachine.Json.Basic

/-!
# JSON lexemes

A text is cut into lexemes by one pass over its characters: marks, keywords, numbers and
strings, with blanks between them. The pass is a fold whose state is the lexemes so far and
the one that is open. A mark ends where it starts and a string at its closing quote.
Keywords and numbers go on for as long as characters come that they may have, and are
checked as a whole once another character, or the end of the text, has closed them. The
pass stops at the first character that no lexeme can have.

Numbers follow the grammar strictly: neither a plus sign nor a needless zero in front, and
digits on both sides of a point. Strings may not hold control characters, and their escapes
are the short ones and four hexadecimal digits for a sixteen-bit code unit. Two escaped units
that make a surrogate pair are one character. Half a pair is no text: the string is still
read to its end, and the value is a string without a text.
-/

namespace DualMachine.Json

inductive Token where
  | openBrace | closeBrace | openBracket | closeBracket | colon | comma
  | string (text : Option String)
  | scalar (value : Json)
  deriving Inhabited

/-! ## Numbers -/

def isNumberChar (c : Char) : Bool :=
  c.isDigit || c == '-' || c == '+' || c == '.' || c == 'e' || c == 'E'

def isDigits (cs : List Char) : Bool := !cs.isEmpty && cs.all Char.isDigit

def isExponent : List Char → Bool
  | e :: '+' :: digits => (e == 'e' || e == 'E') && isDigits digits
  | e :: '-' :: digits => (e == 'e' || e == 'E') && isDigits digits
  | e :: digits => (e == 'e' || e == 'E') && isDigits digits
  | [] => false

/-- Whether `cs`, which is not empty, can follow the whole part of a number: a
fraction, an exponent or both. -/
def isNumberTail : List Char → Bool
  | '.' :: cs =>
    let rest := cs.dropWhile Char.isDigit
    isDigits (cs.takeWhile Char.isDigit) && (rest.isEmpty || isExponent rest)
  | cs => isExponent cs

/-- The number that `cs` spells. The whole part has no needless zero in front. -/
def number? (cs : List Char) : Option Json :=
  let unsigned := if cs.head? = some '-' then cs.tail else cs
  let whole := unsigned.takeWhile Char.isDigit
  let tail := unsigned.dropWhile Char.isDigit
  if whole.isEmpty || (whole.head? = some '0' && whole.length ≠ 1) then none
  else if tail.isEmpty then
    let magnitude := Nat.ofDigitChars 10 whole 0
    if cs.head? ≠ some '-' then some (.integer magnitude)
    else if magnitude = 0 then some (.real (String.ofList cs))
    else some (.integer (-(magnitude : Int)))
  else if isNumberTail tail then some (.real (String.ofList cs))
  else none

/-! ## Keywords -/

def keyword? (cs : List Char) : Option Json :=
  match String.ofList cs with
  | "null" => some .null
  | "true" => some (.bool true)
  | "false" => some (.bool false)
  | _ => none

/-! ## Strings -/

inductive Escape where
  | plain
  /-- After a backslash. -/
  | backslash
  /-- After `count` digits of a code, which so far is `value`. -/
  | code (count value : Nat)
  deriving DecidableEq, Repr, Inhabited

/-- A string that is being read. -/
structure Piece where
  /-- The characters so far, the latest first, or nothing once half of a
  surrogate pair stood alone. -/
  chars : Option (List Char) := some []
  /-- The first half of a surrogate pair, waiting for the second. -/
  high : Option Nat := none
  escape : Escape := .plain
  deriving DecidableEq, Repr, Inhabited

namespace Piece

def push (p : Piece) (c : Char) : Piece :=
  { chars := if p.high.isSome then none else p.chars.map (c :: ·) }

/-- Adds a sixteen-bit code unit. The first half of a pair waits for the second. -/
def pushUnit (p : Piece) (unit : Nat) : Piece :=
  let isHigh := 0xD800 ≤ unit && unit < 0xDC00
  let isLow := 0xDC00 ≤ unit && unit < 0xE000
  match p.high with
  | some high =>
    if isLow then
      let code := 0x10000 + (high - 0xD800) * 0x400 + (unit - 0xDC00)
      { chars := p.chars.map (Char.ofNat code :: ·) }
    else { chars := none }
  | none =>
    if isHigh then { chars := p.chars, high := some unit }
    else if isLow then { chars := none }
    else { chars := p.chars.map (Char.ofNat unit :: ·) }

def finish (p : Piece) : Option String :=
  if p.high.isSome then none else p.chars.map fun cs => String.ofList cs.reverse

end Piece

def hexValue? (c : Char) : Option Nat :=
  if c.isDigit then some (c.toNat - '0'.toNat)
  else if 'a' ≤ c && c ≤ 'f' then some (c.toNat - 'a'.toNat + 10)
  else if 'A' ≤ c && c ≤ 'F' then some (c.toNat - 'A'.toNat + 10)
  else none

def shortEscape? : Char → Option Char
  | '"' => some '"'
  | '\\' => some '\\'
  | '/' => some '/'
  | 'b' => some '\x08'
  | 'f' => some '\x0c'
  | 'n' => some '\n'
  | 'r' => some '\r'
  | 't' => some '\t'
  | _ => none

/-! ## The pass -/

/-- What the pass is in the middle of; characters are kept latest first. -/
inductive Mode where
  | between
  | word (chars : List Char)
  | number (chars : List Char)
  | string (piece : Piece)
  deriving DecidableEq, Repr, Inhabited

/-- The state of the pass: finished lexemes, latest first, and the open one. -/
structure Lexer where
  tokens : List Token := []
  mode : Mode := .between
  deriving Inhabited

namespace Lexer

/-- Ends a keyword or a number. A string is ended by its quote only. -/
def close (l : Lexer) : Option Lexer :=
  match l.mode with
  | .between => some l
  | .word chars => (keyword? chars.reverse).map fun v => ⟨.scalar v :: l.tokens, .between⟩
  | .number chars => (number? chars.reverse).map fun v => ⟨.scalar v :: l.tokens, .between⟩
  | .string _ => none

def start (tokens : List Token) (c : Char) : Option Lexer :=
  match c with
  | ' ' | '\t' | '\n' | '\r' => some ⟨tokens, .between⟩
  | '\x7b' => some ⟨.openBrace :: tokens, .between⟩
  | '\x7d' => some ⟨.closeBrace :: tokens, .between⟩
  | '[' => some ⟨.openBracket :: tokens, .between⟩
  | ']' => some ⟨.closeBracket :: tokens, .between⟩
  | ':' => some ⟨.colon :: tokens, .between⟩
  | ',' => some ⟨.comma :: tokens, .between⟩
  | '"' => some ⟨tokens, .string {}⟩
  | c =>
    if c.isDigit || c == '-' then some ⟨tokens, .number [c]⟩
    else if c.isLower then some ⟨tokens, .word [c]⟩
    else none

def stepString (tokens : List Token) (p : Piece) (c : Char) : Option Lexer :=
  match p.escape with
  | .plain =>
    match c with
    | '"' => some ⟨.string p.finish :: tokens, .between⟩
    | '\\' => some ⟨tokens, .string { p with escape := .backslash }⟩
    | c => if c.toNat < 0x20 then none else some ⟨tokens, .string (p.push c)⟩
  | .backslash =>
    if c == 'u' then some ⟨tokens, .string { p with escape := .code 0 0 }⟩
    else (shortEscape? c).map fun c => ⟨tokens, .string (p.push c)⟩
  | .code count value => do
    let value := value * 16 + (← hexValue? c)
    if count = 3 then some ⟨tokens, .string (p.pushUnit value)⟩
    else some ⟨tokens, .string { p with escape := .code (count + 1) value }⟩

def step (l : Lexer) (c : Char) : Option Lexer :=
  match l.mode with
  | .string p => stepString l.tokens p c
  | .word chars =>
    if c.isLower then some { l with mode := .word (c :: chars) }
    else do start (← l.close).tokens c
  | .number chars =>
    if isNumberChar c then some { l with mode := .number (c :: chars) }
    else do start (← l.close).tokens c
  | .between => start l.tokens c

end Lexer

def tokens? (text : String) : Option (List Token) := do
  let l ← text.toList.foldlM Lexer.step {}
  return (← l.close).tokens.reverse

end DualMachine.Json
