/-!
JSON texts. `Json.parse` reads one value and nothing after it but blanks. Numbers are told apart
only as far as settings need it: an integer is one that is written without a fraction and without an
exponent. A string with half of a surrogate pair is well formed, but stands for no text.
-/
namespace MerkleCells

inductive Json where
  | null
  | bool (b : Bool)
  /-- A number without fraction and exponent, by its sign and its digits' value. -/
  | integer (negative : Bool) (magnitude : Nat)
  /-- Any other number. -/
  | fractional
  /-- A string, with the text it stands for if there is one. -/
  | string (text : Option String)
  | array (items : List Json)
  | object (members : List (Option String × Json))

namespace Json

/-- Spaces, tabs and line ends may stand around values and signs. -/
def isBlank (c : Char) : Bool := c == ' ' || c == '\t' || c == '\n' || c == '\r'

/-- The characters after leading blanks. -/
def skipBlanks (input : List Char) : List Char := input.dropWhile isBlank

/-- Leading decimal digits, and the characters after them. -/
def digits (input : List Char) : List Char × List Char := (input.takeWhile Char.isDigit, input.dropWhile Char.isDigit)

/-- At least one decimal digit. -/
def digits1 (input : List Char) : Option (List Char × List Char) :=
  match digits input with
  | ([], _) => none
  | found => some found

/-- The number that decimal digits write. -/
def decimal (digits : List Char) : Nat := digits.foldl (fun n c => 10 * n + (c.toNat - '0'.toNat)) 0

/-- The digits before a point: a zero stands alone. -/
def whole (input : List Char) : Option (List Char × List Char) := do
  let (found, rest) ← digits1 input
  if found.head? = some '0' ∧ 1 < found.length then none else some (found, rest)

/-- A point and digits, if a point follows. -/
def fraction (input : List Char) : Option (Bool × List Char) :=
  match input with
  | '.' :: rest => (digits1 rest).map fun (_, rest) => (true, rest)
  | rest => some (false, rest)

def exponentDigits (input : List Char) : Option (List Char × List Char) :=
  match input with
  | '+' :: rest => digits1 rest
  | '-' :: rest => digits1 rest
  | rest => digits1 rest

def exponent (input : List Char) : Option (Bool × List Char) :=
  match input with
  | 'e' :: rest => (exponentDigits rest).map fun (_, rest) => (true, rest)
  | 'E' :: rest => (exponentDigits rest).map fun (_, rest) => (true, rest)
  | rest => some (false, rest)

/-- A number after its sign. -/
def magnitude (negative : Bool) (input : List Char) : Option (Json × List Char) := do
  let (whole, rest) ← whole input
  let (hasFraction, rest) ← fraction rest
  let (hasExponent, rest) ← exponent rest
  some (if hasFraction || hasExponent then .fractional else .integer negative (decimal whole), rest)

/-- The value of a hexadecimal digit of either case. -/
def hexValue? (c : Char) : Option Nat :=
  if c.isDigit then some (c.toNat - '0'.toNat)
  else if 'a' ≤ c ∧ c ≤ 'f' then some (c.toNat - 'a'.toNat + 10)
  else if 'A' ≤ c ∧ c ≤ 'F' then some (c.toNat - 'A'.toNat + 10)
  else none

/-- The number that four hexadecimal digits write. -/
def hexUnit? (a b c d : Char) : Option Nat := do
  some (4096 * (← hexValue? a) + 256 * (← hexValue? b) + 16 * (← hexValue? c) + (← hexValue? d))

/-- The character that stands for itself or for a control after a backslash. -/
def escape? (c : Char) : Option Nat :=
  match c with
  | '"' => some 34
  | '\\' => some 92
  | '/' => some 47
  | 'b' => some 8
  | 'f' => some 12
  | 'n' => some 10
  | 'r' => some 13
  | 't' => some 9
  | _ => none

/-- The code points of a string up to its closing quote. Those in the surrogate range come from escapes. -/
def stringBody : List Char → Option (List Nat × List Char)
  | '"' :: rest => some ([], rest)
  | '\\' :: 'u' :: a :: b :: c :: d :: rest => do
    let unit ← hexUnit? a b c d
    (stringBody rest).map fun (units, rest) => (unit :: units, rest)
  | '\\' :: c :: rest => do
    let unit ← escape? c
    (stringBody rest).map fun (units, rest) => (unit :: units, rest)
  | c :: rest =>
    if c.toNat < 32 || c == '\\' then none
    else (stringBody rest).map fun (units, rest) => (c.toNat :: units, rest)
  | [] => none

/-- The characters that code points stand for. Surrogates stand for one only as a pair. -/
def characters? : List Nat → Option (List Char)
  | [] => some []
  | [u] => if 0xD800 ≤ u ∧ u < 0xE000 then none else some [Char.ofNat u]
  | u :: v :: rest =>
    if 0xD800 ≤ u ∧ u < 0xDC00 then
      if 0xDC00 ≤ v ∧ v < 0xE000 then
        (characters? rest).map (Char.ofNat (0x10000 + 1024 * (u - 0xD800) + (v - 0xDC00)) :: ·)
      else none
    else if 0xDC00 ≤ u ∧ u < 0xE000 then none
    else (characters? (v :: rest)).map (Char.ofNat u :: ·)

/-- A string after its opening quote. -/
def text (input : List Char) : Option (Option String × List Char) :=
  (stringBody input).map fun (units, rest) => ((characters? units).map String.ofList, rest)

mutual

/-- A value, in at most `fuel` nested steps. -/
def value : (fuel : Nat) → List Char → Option (Json × List Char)
  | 0, _ => none
  | fuel + 1, input =>
    match skipBlanks input with
    | 'n' :: 'u' :: 'l' :: 'l' :: rest => some (.null, rest)
    | 't' :: 'r' :: 'u' :: 'e' :: rest => some (.bool true, rest)
    | 'f' :: 'a' :: 'l' :: 's' :: 'e' :: rest => some (.bool false, rest)
    | '"' :: rest => (text rest).map fun (text, rest) => (.string text, rest)
    | '-' :: rest => magnitude true rest
    | '[' :: rest =>
      match skipBlanks rest with
      | ']' :: rest => some (.array [], rest)
      | rest => (items fuel rest).map fun (items, rest) => (.array items, rest)
    | '\x7b' :: rest =>
      match skipBlanks rest with
      | '\x7d' :: rest => some (.object [], rest)
      | rest => (members fuel rest).map fun (members, rest) => (.object members, rest)
    | rest => magnitude false rest

/-- The items of an array, at least one, up to its closing bracket. -/
def items : (fuel : Nat) → List Char → Option (List Json × List Char)
  | 0, _ => none
  | fuel + 1, input => do
    let (item, rest) ← value fuel input
    match skipBlanks rest with
    | ']' :: rest => some ([item], rest)
    | ',' :: rest => (items fuel rest).map fun (more, rest) => (item :: more, rest)
    | _ => none

/-- The members of an object, at least one, up to its closing brace. -/
def members : (fuel : Nat) → List Char → Option (List (Option String × Json) × List Char)
  | 0, _ => none
  | fuel + 1, input =>
    match skipBlanks input with
    | '"' :: rest => do
      let (name, rest) ← text rest
      match skipBlanks rest with
      | ':' :: rest => do
        let (item, rest) ← value fuel rest
        match skipBlanks rest with
        | '\x7d' :: rest => some ([(name, item)], rest)
        | ',' :: rest => (members fuel rest).map fun (more, rest) => ((name, item) :: more, rest)
        | _ => none
      | _ => none
    | _ => none

end

/-- The value that a text writes. Each nested step takes a character, so the text's length is fuel enough. -/
def parse (input : String) : Option Json :=
  match value (2 * input.length + 2) input.toList with
  | some (json, rest) => if (skipBlanks rest).isEmpty then some json else none
  | none => none

/-- The number that is written as an integer. A negative zero is none. -/
def integer? : Json → Option Int
  | .integer false n => some n
  | .integer true n => if n = 0 then none else some (-n)
  | _ => none

def bool? : Json → Option Bool
  | .bool b => some b
  | _ => none

end Json

end MerkleCells
