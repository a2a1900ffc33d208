import Mathlib.Data.List.Nodup
import SupertonicServer.Lib.Delimited
import SupertonicServer.Lib.Surrogates
import SupertonicServer.Voices.Numeral
import SupertonicServer.Wire.Message

/-!
# JSON as text

`json.dumps` with its default arguments, and the reader behind `json.loads`: the text of a
value and the value of a text. `readJson depth` is `none` where `json.loads` raises: on a text
that is no JSON, on an integer of more digits than `int` converts, and on more than `depth`
containers inside each other, which is what the interpreter's recursion limit leaves. It is
also `none` on the escape of a lone surrogate: Python reads it, into a string that is no Lean
string. `Paired` leaves such texts out.

A float is its literal, on both sides. Numbers are read in ASCII digits, as the scanner does.
-/

namespace SupertonicServer.Wire

open Lib (Reader units joinUnits skip readDelimited)
open Voices (maxStrDigits)

/-! ## Printing -/

/-- A hexadecimal digit, in lower case. -/
def hexDigit (n : Nat) : Char := Nat.digitChar (n % 16)

/-- `'\\u{0:04x}'.format(u)`. -/
def unicodeEscape (u : Nat) : List Char :=
  ['\\', 'u', hexDigit (u / 4096), hexDigit (u / 256), hexDigit (u / 16), hexDigit u]

/-- `ESCAPE_DCT`: the escapes of one letter. -/
def escapes : List (Char × Char) :=
  [('\\', '\\'), ('"', '"'), (Char.ofNat 8, 'b'), (Char.ofNat 12, 'f'), ('\n', 'n'),
    ('\r', 'r'), ('\t', 't')]

/-- `py_encode_basestring_ascii` on one character. -/
def escapeChar (c : Char) : List Char :=
  match escapes.lookup c with
  | some e => ['\\', e]
  | none => if ' ' ≤ c ∧ c ≤ '~' then [c] else (units c).flatMap unicodeEscape

/-- `encode_basestring_ascii`. -/
def dumpsStr (s : String) : List Char := '"' :: s.toList.flatMap escapeChar ++ ['"']

/-- `int.__repr__`. -/
def dumpsInt (n : Int) : List Char :=
  if n < 0 then '-' :: Nat.toDigits 10 n.natAbs else Nat.toDigits 10 n.natAbs

mutual

/-- `json.dumps`. -/
def dumps : Json → List Char
  | .null => "null".toList
  | .bool true => "true".toList
  | .bool false => "false".toList
  | .int n => dumpsInt n
  | .float literal => literal.toList
  | .str s => dumpsStr s
  | .arr items => '[' :: dumpsItems items
  | .obj members => '{' :: dumpsMembers members

/-- The items of an array and its closing bracket. -/
def dumpsItems : List Json → List Char
  | [] => [']']
  | [v] => dumps v ++ [']']
  | v :: w :: vs => dumps v ++ ", ".toList ++ dumpsItems (w :: vs)

/-- The members of an object and its closing brace. -/
def dumpsMembers : List (String × Json) → List Char
  | [] => ['}']
  | [kv] => dumpsMember kv ++ ['}']
  | kv :: kw :: kvs => dumpsMember kv ++ ", ".toList ++ dumpsMembers (kw :: kvs)

def dumpsMember : String × Json → List Char
  | (key, v) => dumpsStr key ++ ": ".toList ++ dumps v

end

/-! ## Reading -/

/-- The blanks of JSON. -/
def isBlank (c : Char) : Bool := c == ' ' || c == '\t' || c == '\n' || c == '\r'

/-- The value of a hexadecimal digit. -/
def hexVal (c : Char) : Option Nat :=
  if c.isDigit then some (c.toNat - 48)
  else if 'a' ≤ c ∧ c ≤ 'f' then some (c.toNat - 87)
  else if 'A' ≤ c ∧ c ≤ 'F' then some (c.toNat - 55)
  else none

/-- The value of four hexadecimal digits. -/
def hex4 (a b c d : Char) : Option Nat := do
  let a ← hexVal a
  let b ← hexVal b
  let c ← hexVal c
  let d ← hexVal d
  return ((a * 16 + b) * 16 + c) * 16 + d

/-- The characters that the escapes of one letter stand for; a slash may be escaped too. -/
def unescape (e : Char) : Option Char :=
  if e = '/' then some '/' else ((escapes.map Prod.swap).lookup e)

/-- The code units of a string up to its closing quote. -/
def scanUnits : Reader (List Nat)
  | [] => none
  | c :: rest =>
    if c = '"' then some ([], rest)
    else if c = '\\' then
      match rest with
      | [] => none
      | e :: rest =>
        if e = 'u' then
          match rest with
          | a :: b :: c :: d :: rest =>
            match hex4 a b c d with
            | some u => (scanUnits rest).map fun r => (u :: r.1, r.2)
            | none => none
          | _ => none
        else
          match unescape e with
          | some ch => (scanUnits rest).map fun r => (ch.toNat :: r.1, r.2)
          | none => none
    -- control characters have to be escaped
    else if c.toNat < 32 then none
    else (scanUnits rest).map fun r => (c.toNat :: r.1, r.2)

/-- `scanstring` behind the opening quote. -/
def scanString : Reader String := fun s =>
  match scanUnits s with
  | none => none
  | some (us, rest) => (joinUnits us).map fun text => (String.ofList text, rest)

/-- One or more digits. -/
def readDigits : Reader (List Char) := fun s =>
  if s.takeWhile Char.isDigit = [] then none
  else some (s.takeWhile Char.isDigit, s.dropWhile Char.isDigit)

/-- `0|[1-9][0-9]*` -/
def readNat : Reader (List Char)
  | [] => none
  | c :: rest => if c = '0' then some (['0'], rest) else readDigits (c :: rest)

/-- `-?(?:0|[1-9][0-9]*)` -/
def readInt : Reader (List Char)
  | [] => none
  | c :: rest =>
    if c = '-' then (readNat rest).map fun r => ('-' :: r.1, r.2) else readNat (c :: rest)

/-- `(\.[0-9]+)?` -/
def readFrac : List Char → List Char × List Char
  | [] => ([], [])
  | c :: rest =>
    if c = '.' then
      match readDigits rest with
      | some (ds, rest') => (c :: ds, rest')
      | none => ([], c :: rest)
    else ([], c :: rest)

/-- `[-+]?` -/
def readSign : List Char → List Char × List Char
  | [] => ([], [])
  | c :: rest => if c = '+' ∨ c = '-' then ([c], rest) else ([], c :: rest)

/-- `([eE][-+]?[0-9]+)?` -/
def readExp : List Char → List Char × List Char
  | [] => ([], [])
  | c :: rest =>
    if c = 'e' ∨ c = 'E' then
      match readDigits (readSign rest).2 with
      | some (ds, rest') => (c :: (readSign rest).1 ++ ds, rest')
      | none => ([], c :: rest)
    else ([], c :: rest)

/-- `int` of a matched integer. -/
def intValue : List Char → Int
  | [] => 0
  | c :: digits =>
    if c = '-' then -(Nat.ofDigitChars 10 digits 0) else Nat.ofDigitChars 10 (c :: digits) 0

/-- `NUMBER_RE`: an integer, or a float where there is a fraction or an exponent. -/
def readNumber : Reader Json := fun s =>
  match readInt s with
  | none => none
  | some (int, rest) =>
    let frac := readFrac rest
    let exp := readExp frac.2
    if frac.1 = [] ∧ exp.1 = [] then
      -- `int` raises on too many digits
      if maxStrDigits < int.countP Char.isDigit then none else some (.int (intValue int), exp.2)
    else some (.float (String.ofList (int ++ frac.1 ++ exp.1)), exp.2)

/-- The values that are written as a word. -/
def words : List (List Char × Json) :=
  [("null".toList, .null), ("true".toList, .bool true), ("false".toList, .bool false),
    ("NaN".toList, .float "NaN"), ("Infinity".toList, .float "Infinity"),
    ("-Infinity".toList, .float "-Infinity")]

def readWord : Reader Json := fun s =>
  (words.find? fun w => w.1.isPrefixOf s).map fun w => (w.2, s.drop w.1.length)

/-- A key, a colon and a value. -/
def readMember (value : Reader Json) : Reader (String × Json)
  | [] => none
  | c :: rest =>
    if c = '"' then
      match scanString rest with
      | none => none
      | some (key, rest) =>
        match skip isBlank rest with
        | [] => none
        | c :: rest =>
          if c = ':' then (value (skip isBlank rest)).map fun r => ((key, r.1), r.2) else none
    else none

/-- `obj[key] = v`. -/
def Members.set (obj : Members) (key : String) (v : Json) : Members :=
  if key ∈ obj.map Prod.fst then obj.map fun kv => if kv.1 = key then (key, v) else kv
  else obj ++ [(key, v)]

/-- `dict(pairs)`: a key keeps its first place and gets its last value. -/
def Members.ofPairs (pairs : List (String × Json)) : Members :=
  pairs.foldl (fun obj kv => obj.set kv.1 kv.2) []

/-- A string, a word or a number. -/
def readScalar : Reader Json
  | [] => none
  | c :: rest =>
    if c = '"' then (scanString rest).map fun r => (.str r.1, r.2)
    else (readWord (c :: rest)).or (readNumber (c :: rest))

/-- `scan_once`, for at most `depth` containers inside each other of at most `n` items each. -/
def readValue (n : Nat) : Nat → Reader Json
  | _, [] => none
  | 0, c :: rest => readScalar (c :: rest)
  | depth + 1, c :: rest =>
    if c = '{' then
      (readDelimited isBlank ',' '}' (readMember (readValue n depth)) n rest).map
        fun r => (.obj (Members.ofPairs r.1), r.2)
    else if c = '[' then
      (readDelimited isBlank ',' ']' (readValue n depth) n rest).map fun r => (.arr r.1, r.2)
    else readScalar (c :: rest)

/-- The value a text stands for. -/
def readJson (depth : Nat) (text : List Char) : Option Json :=
  match readValue text.length depth (skip isBlank text) with
  | none => none
  | some (v, rest) => if skip isBlank rest = [] then some v else none

/-- The code units that the characters and the escapes of a text name. -/
def textUnits : List Char → List Nat
  | [] => []
  | c :: rest =>
    if c = '\\' then
      match rest with
      | [] => []
      | e :: rest =>
        if e = 'u' then
          match rest with
          | a :: b :: c :: d :: rest =>
            match hex4 a b c d with
            | some u => u :: textUnits rest
            | none => []
          | _ => []
        else e.toNat :: textUnits rest
    else c.toNat :: textUnits rest

/-- No surrogate is escaped without its partner. -/
def Paired (text : List Char) : Prop := (joinUnits (textUnits text)).isSome = true

instance (text : List Char) : Decidable (Paired text) := inferInstanceAs (Decidable (_ = true))

end SupertonicServer.Wire
