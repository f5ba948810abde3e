import Mathlib.Data.Nat.Digits.Defs
import Cervus.Lib.Binary64

/-! The values of `json.c` and the text that `json_dump` writes for them. -/

namespace Cervus.Json

abbrev Byte := UInt8
abbrev Bytes := List Byte

abbrev quote : Byte := 0x22
abbrev backslash : Byte := 0x5c
abbrev newline : Byte := 0x0a
abbrev space : Byte := 0x20
abbrev comma : Byte := 0x2c
abbrev colon : Byte := 0x3a
abbrev minus : Byte := 0x2d
abbrev plus : Byte := 0x2b
abbrev dot : Byte := 0x2e
abbrev lbracket : Byte := 0x5b
abbrev rbracket : Byte := 0x5d
abbrev lbrace : Byte := 0x7b
abbrev rbrace : Byte := 0x7d

def cString (s : Bytes) : Bytes := s.takeWhile (· ≠ 0)

def ascii (text : List Char) : Bytes := text.map Char.toUInt8

def nullText : Bytes := ascii ['n', 'u', 'l', 'l']
def trueText : Bytes := ascii ['t', 'r', 'u', 'e']
def falseText : Bytes := ascii ['f', 'a', 'l', 's', 'e']

inductive Value where
  | null
  | bool (b : Bool)
  | number (n : Binary64)
  | string (s : Bytes)
  | array (items : List Value)
  | object (members : List (Bytes × Value))

/-! Strings. -/

def hexDigit (d : Byte) : Byte := if d < 10 then 0x30 + d else 0x61 + (d - 10)

def escape (c : Byte) : Bytes :=
  if c = quote then [backslash, quote]
  else if c = backslash then [backslash, backslash]
  else if c = 0x08 then [backslash, 0x62]
  else if c = 0x0c then [backslash, 0x66]
  else if c = newline then [backslash, 0x6e]
  else if c = 0x0d then [backslash, 0x72]
  else if c = 0x09 then [backslash, 0x74]
  else if c < 0x20 then [backslash, 0x75, 0x30, 0x30, hexDigit (c / 16), hexDigit (c % 16)]
  else [c]

def sinkQuoted (text : Bytes) : Bytes := quote :: (cString text).flatMap escape ++ [quote]

/-! Numbers. -/

def toLong : Binary64 → ℤ
  | .finite q =>
    let t := q.num.tdiv q.den
    if -2 ^ 63 ≤ t ∧ t < 2 ^ 63 then t else -2 ^ 63
  | _ => -2 ^ 63

def digitBytes (n : ℕ) : Bytes :=
  if n = 0 then [0x30] else (Nat.digits 10 n).reverse.map fun d => 0x30 + UInt8.ofNat d

def printLong (n : ℤ) : Bytes := if n < 0 then minus :: digitBytes n.natAbs else digitBytes n.natAbs

def below1e15 : Binary64 → Bool
  | .finite q => q < 10 ^ 15 && -10 ^ 15 < q
  | _ => false

section

-- what `%.17g` prints
variable (printG : Binary64 → Bytes)

def sinkNumber (n : Binary64) : Bytes :=
  if n = Binary64.round (toLong n) ∧ below1e15 n then printLong (toLong n) else printG n

/-! Values. -/

variable (indent : ℤ)

/-- The product is an `int`. -/
def sinkIndent (depth : ℕ) : Bytes :=
  if indent ≤ 0 then [] else newline :: List.replicate
    (Int.bmod (indent * depth) (2 ^ 32)).toNat space

mutual

def dumpValue : ℕ → Value → Bytes
  | _, .null => nullText
  | _, .bool b => if b then trueText else falseText
  | _, .number n => sinkNumber printG n
  | _, .string s => sinkQuoted s
  | _, .array [] => [lbracket, rbracket]
  | depth, .array (v :: items) =>
    lbracket :: sinkIndent indent (depth + 1) ++ dumpValue (depth + 1) v ++ dumpItems depth items ++
      sinkIndent indent depth ++ [rbracket]
  | _, .object [] => [lbrace, rbrace]
  | depth, .object ((key, v) :: members) =>
    lbrace :: sinkIndent indent (depth + 1) ++ sinkQuoted key ++
      (if 0 < indent then [colon, space] else [colon]) ++
      dumpValue (depth + 1) v ++ dumpMembers depth members ++ sinkIndent indent depth ++ [rbrace]

def dumpItems : ℕ → List Value → Bytes
  | _, [] => []
  | depth, v :: items =>
    comma :: sinkIndent indent (depth + 1) ++ dumpValue (depth + 1) v ++ dumpItems depth items

def dumpMembers : ℕ → List (Bytes × Value) → Bytes
  | _, [] => []
  | depth, (key, v) :: members =>
    comma :: sinkIndent indent (depth + 1) ++ sinkQuoted key ++
      (if 0 < indent then [colon, space] else [colon]) ++
      dumpValue (depth + 1) v ++ dumpMembers depth members

end

def jsonDump (v : Value) : Bytes := dumpValue printG indent 0 v

end

/-! The parser of `json.c`. Memory does not run out. -/

structure Parser where
  rest : Bytes
  pos : ℕ
  line : ℕ
  lineStart : ℕ

structure Error where
  line : ℕ
  column : ℕ
  message : String

abbrev Parse (α : Type) := Parser → Except Error (α × Parser)

def fail (ps : Parser) (msg : String) : Error :=
  { line := ps.line, column := ps.pos - ps.lineStart + 1, message := msg }

def Parser.skip (ps : Parser) (n : ℕ) : Parser :=
  { ps with rest := ps.rest.drop n, pos := ps.pos + n }

def skipWsFrom : Bytes → ℕ → ℕ → ℕ → Parser
  | [], pos, line, lineStart => { rest := [], pos, line, lineStart }
  | c :: rest, pos, line, lineStart =>
    if c = newline then skipWsFrom rest (pos + 1) (line + 1) (pos + 1)
    else if c = space ∨ c = 0x09 ∨ c = 0x0d then skipWsFrom rest (pos + 1) line lineStart
    else { rest := c :: rest, pos, line, lineStart }

def skipWs (ps : Parser) : Parser := skipWsFrom ps.rest ps.pos ps.line ps.lineStart

/-! Strings. -/

def utf8Put (cp : ℕ) : Bytes :=
  if cp < 0x80 then [UInt8.ofNat cp]
  else if cp < 0x800 then [UInt8.ofNat (0xC0 ||| cp >>> 6), UInt8.ofNat (0x80 ||| cp &&& 0x3F)]
  else if cp < 0x10000 then
    [UInt8.ofNat (0xE0 ||| cp >>> 12), UInt8.ofNat (0x80 ||| (cp >>> 6) &&& 0x3F),
    UInt8.ofNat (0x80 ||| cp &&& 0x3F)]
  else
    [UInt8.ofNat (0xF0 ||| cp >>> 18), UInt8.ofNat (0x80 ||| (cp >>> 12) &&& 0x3F),
      UInt8.ofNat (0x80 ||| (cp >>> 6) &&& 0x3F), UInt8.ofNat (0x80 ||| cp &&& 0x3F)]

def hexValue (c : Byte) : Option ℕ :=
  if 0x30 ≤ c ∧ c ≤ 0x39 then some (c - 0x30).toNat
  else if 0x61 ≤ c ∧ c ≤ 0x66 then some (c - 0x61 + 10).toNat
  else if 0x41 ≤ c ∧ c ≤ 0x46 then some (c - 0x41 + 10).toNat
  else none

def hex4 : Bytes → Option ℕ
  | a :: b :: c :: d :: _ => do
    return (((← hexValue a) * 16 + (← hexValue b)) * 16 + (← hexValue c)) * 16 + (← hexValue d)
  | _ => none

/-- The character of a `\u` whose digits come next, and how many bytes it takes up. -/
def unicode (rest : Bytes) : Option (ℕ × ℕ) :=
  match hex4 rest with
  | none => none
  | some cp =>
    if 0xD800 ≤ cp ∧ cp ≤ 0xDBFF ∧ (rest.drop 4).take 2 = [backslash, 0x75] then
      match hex4 (rest.drop 6) with
      | some lo =>
        if 0xDC00 ≤ lo ∧ lo ≤ 0xDFFF then some (0x10000 + (cp - 0xD800) <<< 10 + (lo - 0xDC00), 10)
          else some (cp, 4)
      | none => some (cp, 4)
    else some (cp, 4)

def letter (e : Byte) : Option Byte :=
  if e = quote then some quote
  else if e = backslash then some backslash
  else if e = 0x2f then some 0x2f
  else if e = 0x62 then some 0x08
  else if e = 0x66 then some 0x0c
  else if e = 0x6e then some newline
  else if e = 0x72 then some 0x0d
  else if e = 0x74 then some 0x09
  else none

def stringLoop : ℕ → Bytes → Parse Bytes
  | 0, _, ps => .error (fail ps "a string was never closed")
  | k + 1, out, ps =>
    match ps.rest with
    | [] => .error (fail ps "a string was never closed")
    | c :: rest =>
      if c = quote then .ok (cString out, ps.skip 1)
      else if c = newline then .error (fail ps "a string may not contain a raw newline")
      else if c ≠ backslash then stringLoop k (out ++ [c]) (ps.skip 1)
      else match rest with
        | [] => .error (fail (ps.skip 1) "a string was never closed")
        | e :: rest =>
          if e = 0x75 then
            match unicode rest with
            | none => .error (fail (ps.skip 2) "\\u needs four hex digits")
            | some (cp, n) => stringLoop k (out ++ utf8Put cp) (ps.skip (2 + n))
          else match letter e with
            | some b => stringLoop k (out ++ [b]) (ps.skip 2)
            | none => .error (fail (ps.skip 2) "unknown escape after a backslash")

def parseStringRaw : Parse Bytes := fun ps => stringLoop (ps.rest.length + 1) [] (ps.skip 1)

/-! Numbers. -/

def isDigit (c : Byte) : Bool := 0x30 ≤ c && c ≤ 0x39

def isSign (c : Byte) : Bool := c == minus || c == plus

def signLen (rest : Bytes) : ℕ := if (rest.take 1).any isSign then 1 else 0

def digitsLen (rest : Bytes) : ℕ := (rest.takeWhile isDigit).length

def fractionLen : Bytes → ℕ
  | c :: rest => if c = dot then 1 + digitsLen rest else 0
  | [] => 0

def exponentLen : Bytes → ℕ
  | c :: rest =>
    if c = 0x65 ∨ c = 0x45 then
      let s := signLen rest
      let d := digitsLen (rest.drop s)
      if d = 0 then 0 else 1 + s + d
    else 0
  | [] => 0

def digitsValue (digits : Bytes) : ℕ := digits.foldl (fun n d => 10 * n + (d - 0x30).toNat) 0

def strtod (text : Bytes) : Binary64 :=
  let s := signLen text
  let whole := (text.drop s).take (digitsLen (text.drop s))
  let after := (text.drop s).drop whole.length
  let part := ((after.take (fractionLen after)).drop 1)
  let exponent := (after.drop (fractionLen after)).take
    (exponentLen (after.drop (fractionLen after))) |>.drop 1
  let e : ℤ := digitsValue (exponent.drop (signLen exponent))
  let e := if exponent.headD plus = minus then -e else e
  let q : ℚ := digitsValue (whole ++ part) * 10 ^ (e - part.length)
  Binary64.round (if text.headD plus = minus then -q else q)

def parseNumber : Parse Value := fun ps =>
  let s := signLen ps.rest
  let d := digitsLen (ps.rest.drop s)
  let f := fractionLen (ps.rest.drop (s + d))
  if d + (f - 1) = 0 then .error (fail (ps.skip (s + f)) "a number with no digits")
  else
    let len := s + d + f + exponentLen (ps.rest.drop (s + d + f))
    .ok (.number (strtod (ps.rest.take (min len 63))), ps.skip len)

/-! Values. -/

def listLoop {α : Type} (element : Parse α) (afterComma : Parser → Parser) (close : Byte)
    (build : List α → Value) (msg : String) : ℕ → List α → Parse Value
  | 0, _, ps => .error (fail ps msg)
  | k + 1, elements, ps => do
    let (a, ps) ← element ps
    let ps := skipWs ps
    if ps.rest.head? = some comma then
      listLoop element afterComma close build msg k (elements ++ [a]) (afterComma (ps.skip 1))
    else if ps.rest.head? = some close then return (build (elements ++ [a]), ps.skip 1)
    else .error (fail ps msg)

def parseList {α : Type} (element : Parse α) (afterComma : Parser → Parser) (close : Byte)
    (build : List α → Value) (msg : String) : Parse Value := fun ps =>
  let ps := skipWs (ps.skip 1)
  if ps.rest.head? = some close then .ok (build [], ps.skip 1)
  else listLoop element afterComma close build msg (ps.rest.length + 1) [] ps

def parseArray (parseValue : Parse Value) : Parse Value :=
  parseList parseValue skipWs rbracket .array "expected , or ] in an array"

def parseMember (parseValue : Parse Value) : Parse (Bytes × Value) := fun ps => do
  let ps := skipWs ps
  if ps.rest.head? ≠ some quote then .error (fail ps "expected a quoted key in an object")
  else
    let (key, ps) ← parseStringRaw ps
    let ps := skipWs ps
    if ps.rest.head? ≠ some colon then .error (fail ps "expected : after a key")
    else
      let (v, ps) ← parseValue (ps.skip 1)
      return ((key, v), ps)

-- here the white space after a comma is left to the next member
def parseObject (parseValue : Parse Value) : Parse Value :=
  parseList (parseMember parseValue) id rbrace .object "expected , or \x7d in an object"

/-- At the depth `201 - room`. -/
def parseValue : ℕ → Parse Value
  | 0, ps => .error (fail ps "nested too deeply")
  | room + 1, ps =>
    let ps := skipWs ps
    match ps.rest with
    | [] => .error (fail ps "the text ended where a value was expected")
    | c :: _ =>
      if c = lbrace then parseObject (parseValue room) ps
      else if c = lbracket then parseArray (parseValue room) ps
      else if c = quote then do
        let (s, ps) ← parseStringRaw ps
        return (.string s, ps)
      else if trueText.isPrefixOf ps.rest then .ok (.bool true, ps.skip 4)
      else if falseText.isPrefixOf ps.rest then .ok (.bool false, ps.skip 5)
      else if nullText.isPrefixOf ps.rest then .ok (.null, ps.skip 4)
      else if isSign c || isDigit c then parseNumber ps
      else .error (fail ps "not a value: expected \x7b, [, a string, a number, true, false or null")

def jsonParseLen (text : Bytes) : Except Error Value := do
  let (v, ps) ← parseValue 201 { rest := text, pos := 0, line := 1, lineStart := 0 }
  let ps := skipWs ps
  if ps.rest = [] then return v else .error (fail ps "trailing text after the value")

def jsonParse (text : Bytes) : Except Error Value := jsonParseLen (cString text)

end Cervus.Json
