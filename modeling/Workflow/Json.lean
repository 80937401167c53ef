/-!
# Json — reading strict JSON text, and quoting strings

The reader accepts exactly the JSON grammar: no comments, no trailing commas, no leading zeros, blanks
only between tokens.  A string is read as the code points it names; escapes may name half of a surrogate
pair, which is a string by the grammar and yet no text, so turning it into text is a step of its own
(`Json.text?`).  A number keeps its spelling.
-/
namespace Workflow

inductive Json where
  | null
  | bool (value : Bool)
  | number (spelling : List Char)
  | string (codes : List Nat)
  | array (items : List Json)
  | object (fields : List (List Nat × Json))
deriving Repr

namespace Json

/-! ## Tokens -/

def isBlank (c : Char) : Bool := c == ' ' || c == '\n' || c == '\t' || c == '\r'

def skipBlanks (s : List Char) : List Char := s.dropWhile isBlank

/-- A run of digits, not empty, and the rest. -/
def readDigits (s : List Char) : Option (List Char × List Char) :=
  match s.takeWhile Char.isDigit with
  | [] => none
  | ds => some (ds, s.dropWhile Char.isDigit)

/-- The digits before the point: a zero stands alone. -/
def readInteger : List Char → Option (List Char × List Char)
  | '0' :: s => some (['0'], s)
  | s => readDigits s

def readFraction : List Char → Option (List Char × List Char)
  | '.' :: s => (readDigits s).map (fun r => ('.' :: r.1, r.2))
  | s => some ([], s)

def readExponent : List Char → Option (List Char × List Char)
  | c :: s =>
    if c == 'e' || c == 'E' then
      match s with
      | '+' :: s => (readDigits s).map (fun r => (c :: '+' :: r.1, r.2))
      | '-' :: s => (readDigits s).map (fun r => (c :: '-' :: r.1, r.2))
      | s => (readDigits s).map (fun r => (c :: r.1, r.2))
    else some ([], c :: s)
  | [] => some ([], [])

def readNumber (s : List Char) : Option (List Char × List Char) := do
  let (sign, s) := match s with
    | '-' :: s => (['-'], s)
    | s => ([], s)
  let (whole, s) ← readInteger s
  let (fraction, s) ← readFraction s
  let (exponent, s) ← readExponent s
  return (sign ++ whole ++ fraction ++ exponent, s)

def hexDigit? (c : Char) : Option Nat :=
  if '0' ≤ c ∧ c ≤ '9' then some (c.toNat - '0'.toNat)
  else if 'a' ≤ c ∧ c ≤ 'f' then some (c.toNat - 'a'.toNat + 10)
  else if 'A' ≤ c ∧ c ≤ 'F' then some (c.toNat - 'A'.toNat + 10)
  else none

def hexCode? (a b c d : Char) : Option Nat := do
  return (((← hexDigit? a) * 16 + (← hexDigit? b)) * 16 + (← hexDigit? c)) * 16 + (← hexDigit? d)

/-- What a single letter after a backslash stands for. -/
def escaped? (c : Char) : Option Nat :=
  match c with
  | '"' => some 0x22
  | '\\' => some 0x5c
  | '/' => some 0x2f
  | 'b' => some 0x08
  | 'f' => some 0x0c
  | 'n' => some 0x0a
  | 'r' => some 0x0d
  | 't' => some 0x09
  | _ => none

/-- The codes up to the closing quote, and the rest. -/
def readCodes : List Char → Option (List Nat × List Char)
  | [] => none
  | '"' :: s => some ([], s)
  | '\\' :: 'u' :: a :: b :: c :: d :: s =>
    match hexCode? a b c d, readCodes s with
    | some n, some (codes, s) => some (n :: codes, s)
    | _, _ => none
  | '\\' :: c :: s =>
    match escaped? c, readCodes s with
    | some n, some (codes, s) => some (n :: codes, s)
    | _, _ => none
  | c :: s =>
    if c.toNat < 0x20 ∨ c = '\\' then none
    else (readCodes s).map (fun r => (c.toNat :: r.1, r.2))

def isHighSurrogate (n : Nat) : Bool := 0xd800 ≤ n && n < 0xdc00

def isLowSurrogate (n : Nat) : Bool := 0xdc00 ≤ n && n < 0xe000

/-- Joins the two halves of every surrogate pair. -/
def joinSurrogates : List Nat → List Nat
  | [] => []
  | [n] => [n]
  | high :: low :: codes =>
    if isHighSurrogate high && isLowSurrogate low then
      (0x10000 + (high - 0xd800) * 0x400 + (low - 0xdc00)) :: joinSurrogates codes
    else high :: joinSurrogates (low :: codes)

def readString (s : List Char) : Option (List Nat × List Char) :=
  (readCodes s).map (fun r => (joinSurrogates r.1, r.2))

/-! ## Values

Each reader starts behind the blanks and takes as fuel more steps than there are characters left. -/

mutual

def readValue : Nat → List Char → Option (Json × List Char)
  | 0, _ => none
  | fuel + 1, s =>
    match s with
    | 'n' :: 'u' :: 'l' :: 'l' :: s => some (.null, s)
    | 't' :: 'r' :: 'u' :: 'e' :: s => some (.bool true, s)
    | 'f' :: 'a' :: 'l' :: 's' :: 'e' :: s => some (.bool false, s)
    | '"' :: s => (readString s).map (fun r => (.string r.1, r.2))
    | '[' :: s =>
      match skipBlanks s with
      | ']' :: s => some (.array [], s)
      | s => (readItems fuel s).map (fun r => (.array r.1, r.2))
    | '{' :: s =>
      match skipBlanks s with
      | '}' :: s => some (.object [], s)
      | s => (readFields fuel s).map (fun r => (.object r.1, r.2))
    | s => (readNumber s).map (fun r => (.number r.1, r.2))

/-- The items of an array up to its closing bracket. -/
def readItems : Nat → List Char → Option (List Json × List Char)
  | 0, _ => none
  | fuel + 1, s =>
    match readValue fuel s with
    | none => none
    | some (item, s) =>
      match skipBlanks s with
      | ']' :: s => some ([item], s)
      | ',' :: s => (readItems fuel (skipBlanks s)).map (fun r => (item :: r.1, r.2))
      | _ => none

/-- The fields of an object up to its closing brace. -/
def readFields : Nat → List Char → Option (List (List Nat × Json) × List Char)
  | 0, _ => none
  | fuel + 1, s =>
    match s with
    | '"' :: s =>
      match readString s with
      | none => none
      | some (key, s) =>
        match skipBlanks s with
        | ':' :: s =>
          match readValue fuel (skipBlanks s) with
          | none => none
          | some (value, s) =>
            match skipBlanks s with
            | '}' :: s => some ([(key, value)], s)
            | ',' :: s => (readFields fuel (skipBlanks s)).map (fun r => ((key, value) :: r.1, r.2))
            | _ => none
        | _ => none
    | _ => none

end

/-- The value that a text writes down, with blanks around it allowed. -/
def read? (text : String) : Option Json :=
  match readValue (2 * text.length + 1) (skipBlanks text.toList) with
  | some (value, s) => if (skipBlanks s).isEmpty then some value else none
  | none => none

/-! ## Text -/

/-- The text of these codes, if each of them is a character. -/
def text? (codes : List Nat) : Option String :=
  (codes.mapM (fun (n : Nat) => if n.isValidChar then some (Char.ofNat n) else none)).map String.ofList

/-- The number written with digits alone. -/
def natural? : Json → Option Nat
  | .number spelling =>
    if spelling.all Char.isDigit then
      some (spelling.foldl (fun n c => n * 10 + (c.toNat - '0'.toNat)) 0)
    else none
  | _ => none

def hexDigit (n : Nat) : Char := if n < 10 then Char.ofNat (n + '0'.toNat) else Char.ofNat (n - 10 + 'a'.toNat)

/-- A character inside quotes: the quote, the backslash and the control characters are escaped, the last
with a letter if they have one. -/
def quotedChar (c : Char) : List Char :=
  match c with
  | '"' => ['\\', '"']
  | '\\' => ['\\', '\\']
  | '\x08' => ['\\', 'b']
  | '\x0c' => ['\\', 'f']
  | '\n' => ['\\', 'n']
  | '\r' => ['\\', 'r']
  | '\t' => ['\\', 't']
  | c =>
    if c.toNat < 0x20 then ['\\', 'u', '0', '0', hexDigit (c.toNat / 16), hexDigit (c.toNat % 16)]
    else [c]

def quoted (s : String) : String := String.ofList ('"' :: s.toList.flatMap quotedChar ++ ['"'])

end Json

end Workflow
