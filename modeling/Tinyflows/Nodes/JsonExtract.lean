import Tinyflows.Lib.Json

/-!
# Finding a JSON value in a text

The first balanced span of braces or brackets that parses is taken for the answer of a model. The scan
counts the brackets of one kind only and skips strings and their escapes.
-/

namespace Tinyflows.Nodes.JsonExtract
open Lib

inductive Bracket where
  | brace
  | square
  deriving DecidableEq

def Bracket.opening : Bracket → Char
  | .brace => '\x7b'
  | .square => '['

def Bracket.closing : Bracket → Char
  | .brace => '\x7d'
  | .square => ']'

def bracketOf (c : Char) : Option Bracket :=
  if c = '\x7b' then some .brace else if c = '[' then some .square else none

structure Scanner where
  depth : Nat := 0
  inString : Bool := false
  escaped : Bool := false
  deriving DecidableEq

/-- Where a scan ended: after `length` characters, at the end of the text, or where a counter would have
left its 32 bits. -/
inductive Span where
  | balanced (length : Nat)
  | unclosed
  | overflow
  deriving DecidableEq

def scan (k : Bracket) (s : Scanner) (length : Nat) : List Char → Span
  | [] => .unclosed
  | c :: rest =>
    if s.inString then
      if s.escaped then scan k { s with escaped := false } (length + 1) rest
      else if c = '\\' then scan k { s with escaped := true } (length + 1) rest
      else if c = '"' then scan k { s with inString := false } (length + 1) rest
      else scan k s (length + 1) rest
    else if c = '"' then scan k { s with inString := true } (length + 1) rest
    else if c = k.opening then
      if s.depth + 1 < 2 ^ 32 then scan k { s with depth := s.depth + 1 } (length + 1) rest else .overflow
    else if c = k.closing then
      match s.depth with
      | 0 => .overflow
      | 1 => .balanced (length + 1)
      | depth + 2 => scan k { s with depth := depth + 1 } (length + 1) rest
    else scan k s (length + 1) rest

theorem scan_quote {k depth ln re} :
    scan k { depth } ln ('"' :: re) = scan k { depth, inString := true } (ln + 1) re := by
  simp [scan]

def isContainer : Json → Bool
  | .obj _ => true
  | .arr _ => true
  | _ => false

def extractFrom (parse : List Char → Option Json) : List Char → Option Json
  | [] => none
  | c :: rest =>
    match bracketOf c with
    | none => extractFrom parse rest
    | some k =>
      match scan k {} 0 (c :: rest) with
      | .overflow => none
      | .unclosed => extractFrom parse rest
      | .balanced length =>
        match parse ((c :: rest).take length) with
        | some v => if isContainer v then some v else extractFrom parse rest
        | none => extractFrom parse rest

def isWhitespace (c : Char) : Bool :=
  (9 ≤ c.toNat ∧ c.toNat ≤ 13) ∨ c.toNat ∈ [0x20, 0x85, 0xa0, 0x1680, 0x2028, 0x2029, 0x202f, 0x205f, 0x3000] ∨
    (0x2000 ≤ c.toNat ∧ c.toNat ≤ 0x200a)

def trim (text : List Char) : List Char :=
  ((text.dropWhile isWhitespace).reverse.dropWhile isWhitespace).reverse

def extractBalancedJson (parse : List Char → Option Json) (text : List Char) : Option Json :=
  extractFrom parse (trim text)

/-! ## The text of a value -/

def hexDigit (n : Nat) : Char :=
  if n < 10 then Char.ofNat (48 + n) else Char.ofNat (87 + n)

def escapeChar (c : Char) : List Char :=
  if c = '"' then ['\\', '"']
  else if c = '\\' then ['\\', '\\']
  else if c.toNat = 8 then ['\\', 'b']
  else if c.toNat = 9 then ['\\', 't']
  else if c.toNat = 10 then ['\\', 'n']
  else if c.toNat = 12 then ['\\', 'f']
  else if c.toNat = 13 then ['\\', 'r']
  else if c.toNat < 32 then ['\\', 'u', '0', '0', hexDigit (c.toNat / 16), hexDigit (c.toNat % 16)]
  else [c]

def quoted (s : String) : List Char :=
  '"' :: s.toList.flatMap escapeChar ++ ['"']

section Write

variable (number : Number → List Char)

mutual

def write : Json → List Char
  | .null => "null".toList
  | .bool b => (toString b).toList
  | .num n => number n
  | .str s => quoted s
  | .arr items => '[' :: writeItems [] items ++ [']']
  | .obj fs => '\x7b' :: writeFields [] fs ++ ['\x7d']

def writeItems (separator : List Char) : List Json → List Char
  | [] => []
  | v :: rest => separator ++ write v ++ writeItems [','] rest

def writeFields (separator : List Char) : List (String × Json) → List Char
  | [] => []
  | (key, v) :: rest => separator ++ quoted key ++ ':' :: write v ++ writeFields [','] rest

end

end Write

/-! ## Nesting -/

mutual

def nesting (k : Bracket) : Json → Nat
  | .arr items => nestingOfItems k items + if k = .square then 1 else 0
  | .obj fs => nestingOfFields k fs + if k = .brace then 1 else 0
  | _ => 0

def nestingOfItems (k : Bracket) : List Json → Nat
  | [] => 0
  | v :: rest => max (nesting k v) (nestingOfItems k rest)

def nestingOfFields (k : Bracket) : List (String × Json) → Nat
  | [] => 0
  | (_, v) :: rest => max (nesting k v) (nestingOfFields k rest)

end

def outermost : Json → Option Bracket
  | .obj _ => some .brace
  | .arr _ => some .square
  | _ => none

end Tinyflows.Nodes.JsonExtract
