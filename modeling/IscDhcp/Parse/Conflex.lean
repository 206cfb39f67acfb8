import IscDhcp.Basic
import Mathlib.Data.List.Basic

/-!
The lexical scanner of the configuration and lease files (`conflex.c`).

The text of a token is collected in a buffer of fixed size that is not cleared between tokens.
Of the words only those are told apart from other names that a modelled parser asks for. The
place of a token in the file is kept for the messages only and is left out.
-/

namespace IscDhcp.Conflex

/-! ### Characters -/

section

variable (c : UInt8)

def isascii : Bool := c < 128
def isdigit : Bool := '0'.toUInt8 ≤ c && c ≤ '9'.toUInt8
def isupper : Bool := 'A'.toUInt8 ≤ c && c ≤ 'Z'.toUInt8
def islower : Bool := 'a'.toUInt8 ≤ c && c ≤ 'z'.toUInt8
def isalpha : Bool := isupper c || islower c
def isalnum : Bool := isalpha c || isdigit c
def isxdigit : Bool :=
  isdigit c || ('a'.toUInt8 ≤ c && c ≤ 'f'.toUInt8) || ('A'.toUInt8 ≤ c && c ≤ 'F'.toUInt8)
def isspace : Bool := (9 ≤ c && c ≤ 13) || c == ' '.toUInt8
def isprint : Bool := ' '.toUInt8 ≤ c && c ≤ '~'.toUInt8
def tolower : UInt8 := if isupper c then c + 32 else c

/-- The text of a string constant of the program. -/
def bytes (s : String) : Bytes := s.toList.map Char.toUInt8

def hexText : String := String.ofList (Nat.toDigits 16 c.toNat)

end

/-! ### Tokens -/

/-- The words that a modelled parser asks for. -/
inductive Keyword
  | never | epoch | and | or
  deriving DecidableEq, Repr

def keywords : List (String × Keyword) :=
  [("never", .never), ("epoch", .epoch), ("and", .and), ("or", .or)]

/-- A token, with its text. -/
inductive Token
  | string (val : Bytes)
  | number (val : Bytes)
  | numberOrName (val : Bytes)
  | name (val : Bytes)
  | keyword (k : Keyword) (val : Bytes)
  | minus
  | char (c : UInt8)
  | whitespace
  | endOfFile
  deriving DecidableEq, Repr

/-- `tval`, if the token has one. -/
def Token.text : Token → Option Bytes
  | .string val | .number val | .numberOrName val | .name val | .keyword _ val => some val
  | .minus => some ['-'.toUInt8]
  | .char c => some [c]
  | .whitespace | .endOfFile => none

def semi : Token := .char ';'.toUInt8
def slash : Token := .char '/'.toUInt8
def colon : Token := .char ':'.toUInt8
def lbrace : Token := .char '\x7b'.toUInt8
def rbrace : Token := .char '\x7d'.toUInt8

def tokbufSize : ℕ := 1500

structure Parse where
  /-- What is left of the buffer. -/
  rest : Bytes
  tokbuf : ℕ → UInt8 := fun _ => 0
  token : Option Token := none
  warnings : List String := []

namespace Parse

def parseWarn (p : Parse) (msg : String) : Parse := { p with warnings := p.warnings ++ [msg] }

/-- The buffer with the text of a token and a NUL after it. -/
def store (p : Parse) (text : Bytes) : Parse :=
  { p with tokbuf := fun k => if k = text.length then 0 else text.getD k (p.tokbuf k) }

end Parse

/-- `get_char`. Characters are signed, so that the byte `255` is taken for the end of the file. -/
def getChar : Bytes → Option UInt8 × Bytes
  | [] => (none, [])
  | b :: rest => (if b = 255 then none else some b, rest)

def skipToEol : Bytes → Bytes
  | [] => []
  | b :: rest => if b = 255 ∨ b = '\n'.toUInt8 then rest else skipToEol rest

/-! ### Strings -/

/-- The variables of `read_string`. -/
structure StringState where
  tokbuf : ℕ → UInt8
  i : ℕ := 0
  bs : ℕ := 0
  value : ℕ := 0
  hex : Bool := false
  warnings : List String := []

namespace StringState

/-- Store a character, which ends an escape sequence. -/
def put (s : StringState) (c : UInt8) : StringState :=
  { s with tokbuf := Function.update s.tokbuf s.i c, i := s.i + 1, bs := 0 }

/-- A digit of an escape sequence; the third one ends it. -/
def digit (s : StringState) (value : ℕ) : StringState :=
  if s.bs + 1 = 4 then { s with value := value }.put (UInt8.ofNat value)
  else { s with value := value, bs := s.bs + 1 }

def hexDigit (c : UInt8) : Option ℕ :=
  if isdigit c then some (c.toNat - 48)
  else if 'a'.toUInt8 ≤ c && c ≤ 'f'.toUInt8 then some (c.toNat - 97 + 10)
  else if 'A'.toUInt8 ≤ c && c ≤ 'F'.toUInt8 then some (c.toNat - 65 + 10)
  else none

/-- What one character does; `none` is the quote at the end. -/
def step (s : StringState) (c : UInt8) : Option StringState :=
  if s.bs = 1 then
    if c = 't'.toUInt8 then some (s.put 9)
    else if c = 'r'.toUInt8 then some (s.put 13)
    else if c = 'n'.toUInt8 then some (s.put 10)
    else if c = 'b'.toUInt8 then some (s.put 8)
    else if '0'.toUInt8 ≤ c ∧ c ≤ '3'.toUInt8 then
      some { s with hex := false, value := c.toNat - 48, bs := 2 }
    else if c = 'x'.toUInt8 then some { s with hex := true, value := 0, bs := 2 }
    else some (s.put c)
  else if s.bs > 1 then
    if s.hex then
      match hexDigit c with
      | some d => some (s.digit (s.value * 16 + d))
      | none => some { s with
          i := s.i + 1, bs := 0, warnings := s.warnings ++ ["invalid hex digit: " ++ hexText c] }
    else if '0'.toUInt8 ≤ c ∧ c ≤ '7'.toUInt8 then some (s.digit (s.value * 8 + (c.toNat - 48)))
    else if s.value ≠ 0 then
      some { s with
        i := s.i + 1, warnings := s.warnings ++ ["invalid octal digit " ++ hexText c] }
    -- the NUL is stored, but the next character is taken for an escaped one and replaces it
    else some { s with tokbuf := Function.update s.tokbuf s.i 0, bs := 1 }
  else if c = '\\'.toUInt8 then some { s with bs := 1 }
  else if c = '"'.toUInt8 then none
  else some (s.put c)

/-- The loop of `read_string`, while there is room in the buffer. -/
def loop (s : StringState) : Bytes → StringState × Bytes
  | [] => ({ s with warnings := s.warnings ++ ["eof in string constant"] }, [])
  | b :: rest =>
    if b = 255 then ({ s with warnings := s.warnings ++ ["eof in string constant"] }, rest)
    else match s.step b with
      | none => (s, rest)
      | some t => if t.i < tokbufSize then t.loop rest else (t, rest)

end StringState

/-- `read_string`, after the first quote. -/
def readString (p : Parse) : Token × Parse :=
  let (s, rest) := StringState.loop { tokbuf := p.tokbuf } p.rest
  let (i, warnings) :=
    if s.i = tokbufSize then
      (s.i - 1, s.warnings ++ ["string constant larger than internal buffer"])
    else (s.i, s.warnings)
  (.string ((List.range i).map s.tokbuf),
    { p with
      rest := rest, tokbuf := Function.update s.tokbuf i 0, warnings := p.warnings ++ warnings })

/-! ### Numbers and names -/

inductive NumKind
  | number | numberOrName | name
  deriving DecidableEq, Repr

/-- A kind is promoted by the next character, `none` if that is not part of the token; only
`0x` with a digit is no longer called a name. -/
def NumKind.promote (kind : NumKind) (text : Bytes) (c : UInt8) : Option NumKind :=
  if isascii c then
    if kind = .number ∧ isdigit c then some .number
    else if kind ≠ .name ∧ isxdigit c then some .numberOrName
    else if text.length = 2 ∧ isxdigit c ∧
        (text = ['0'.toUInt8, 'x'.toUInt8] ∨ text = ['0'.toUInt8, 'X'.toUInt8]) then
      some .numberOrName
    else if c = '-'.toUInt8 ∨ c = '_'.toUInt8 ∨ isalnum c then some .name
    else none
  else none

/-- The loop of `read_number`: kind and text of the token, and the rest. -/
def numberLoop (kind : NumKind) (text : Bytes) : Bytes → NumKind × Bytes × Bytes
  | [] => (kind, text, [])
  | b :: rest =>
    if text.length < tokbufSize then
      if b = 255 then (kind, text, rest)
      else match kind.promote text b with
        | none => (kind, text, b :: rest)
        | some kind => numberLoop kind (text ++ [b]) rest
    else (kind, text, b :: rest)

/-- The text that fits into the buffer, with a warning if that is not all of it. -/
def fit (p : Parse) (text : Bytes) (msg : String) : Bytes × Parse :=
  if text.length = tokbufSize then
    (text.take (tokbufSize - 1), (p.parseWarn msg).store (text.take (tokbufSize - 1)))
  else (text, p.store text)

def readNumber (p : Parse) (c : UInt8) : Token × Parse :=
  let (kind, text, rest) := numberLoop .number [c] p.rest
  let (text, p) := fit { p with rest := rest } text "numeric token larger than internal buffer"
  -- a lone dash is looked for in the place of the NUL behind it, and never found
  let token : Token :=
    if text.length = 1 ∧ p.tokbuf 1 = '-'.toUInt8 then .minus
    else match kind with
      | .number => .number text
      | .numberOrName => .numberOrName text
      | .name => .name text
  (token, p)

/-- Only the words that a modelled parser asks for become keywords. -/
def intern (atom : Bytes) (dfv : Token) : Token :=
  match keywords.find? fun kw => bytes kw.1 = atom.map tolower with
  | some kw => .keyword kw.2 atom
  | none => dfv

/-- The loop of `read_num_or_name`; the flag says that there are hexadecimal digits only. -/
def nameLoop (hex : Bool) (text : Bytes) : Bytes → Bool × Bytes × Bytes
  | [] => (hex, text, [])
  | b :: rest =>
    if text.length < tokbufSize then
      if b = 255 then (hex, text, rest)
      else if isascii b ∧ (b = '-'.toUInt8 ∨ b = '_'.toUInt8 ∨ isalnum b) then
        nameLoop (hex && isxdigit b) (text ++ [b]) rest
      else (hex, text, b :: rest)
    else (hex, text, b :: rest)

def readNumOrName (p : Parse) (c : UInt8) : Token × Parse :=
  let (hex, text, rest) := nameLoop true [c] p.rest
  let (text, p) := fit { p with rest := rest } text "token larger than internal buffer"
  (intern text (if hex then .numberOrName text else .name text), p)

/-! ### The scanner -/

/-- The loop of `read_whitespace`; `none` is the fatal error of a buffer overflow. -/
def whitespaceLoop (text : Bytes) : Bytes → Option (Token × Bytes × Bytes)
  | [] => some (.endOfFile, text, [])
  | b :: rest =>
    if b = 255 then some (.endOfFile, text, rest)
    else if isspace b then
      if text.length < tokbufSize - 1 then whitespaceLoop (text ++ [b]) rest else none
    else some (.whitespace, text, b :: rest)

def readWhitespace (p : Parse) (c : UInt8) : Option (Token × Parse) := do
  let (token, text, rest) ← whitespaceLoop [c] p.rest
  return (token, { p with rest := rest }.store text)

/-- `get_raw_token`, for files in which the end of a line is no token; `none` is a fatal error.
The fuel bounds the number of comments. -/
def getRawToken : ℕ → Parse → Option (Token × Parse)
  | 0, _ => none
  | fuel + 1, p =>
    match getChar p.rest with
    | (none, rest) => some (.endOfFile, { p with rest := rest })
    | (some c, rest) =>
      let p := { p with rest := rest }
      if isspace c then readWhitespace p c
      else if c = '#'.toUInt8 then getRawToken fuel { p with rest := skipToEol rest }
      else if c = '"'.toUInt8 then some (readString p)
      else if isdigit c ∨ c = '-'.toUInt8 then some (readNumber p c)
      else if isalpha c then some (readNumOrName p c)
      else some (.char c, p)

/-- The next token that is not white space. -/
def getToken : ℕ → Parse → Option (Token × Parse)
  | 0, _ => none
  | fuel + 1, p => do
    let (token, p) ← getRawToken (p.rest.length + 1) p
    if token = .whitespace then getToken fuel p else return (token, p)

namespace Parse

/-- The token that was looked at. White space is passed over, and a NUL byte is not told from no
token. -/
def peeked (p : Parse) : Option Token := p.token.filter fun t => t ≠ .whitespace ∧ t ≠ .char 0

def nextToken (p : Parse) : Option (Token × Parse) :=
  match p.peeked with
  | none => getToken (p.rest.length + 2) { p with token := none }
  | some token => some (token, { p with token := none })

def peekToken (p : Parse) : Option (Token × Parse) :=
  match p.peeked with
  | none => do
    let (token, p) ← getToken (p.rest.length + 2) p
    return (token, { p with token := some token })
  | some token => some (token, p)

def skipToken (p : Parse) : Option Parse := p.nextToken.map Prod.snd

/-! Recovering from errors -/

/-- `skip_to_rbrace`. Every round takes a token, so the fuel can be the length of the text. -/
def skipToRbrace : ℕ → ℕ → Parse → Option Parse
  | 0, _, _ => none
  | fuel + 1, braceCount, p => do
    let (token, p) ← p.peekToken
    if token = rbrace ∧ braceCount ≤ 1 then p.skipToken
    else if token = semi ∧ braceCount = 0 then p.skipToken
    else
      let braceCount := if token = rbrace then braceCount - 1
        else if token = lbrace then braceCount + 1 else braceCount
      let (token, p) ← p.nextToken
      if token = .endOfFile then return p else skipToRbrace fuel braceCount p

def skipToSemi (p : Parse) : Option Parse := skipToRbrace (p.rest.length + 2) 0 p

/-- `parse_semi`, with whether there was a semicolon. -/
def parseSemi (p : Parse) : Option (Bool × Parse) := do
  let (token, p) ← p.nextToken
  if token = semi then return (true, p)
  else
    let p ← (p.parseWarn "semicolon expected.").skipToSemi
    return (false, p)

end Parse

end IscDhcp.Conflex
