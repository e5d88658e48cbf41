/-!
JSON texts. A value keeps the fields of an object in the order in which they are given; `sortKeys` orders them by key
throughout. A text has no blanks. In strings the quote, the backslash and the five control characters with short
escapes are written with two characters, every other character below U+0020 with four hexadecimal digits, and all
others as they are.
-/

namespace ContextFree

inductive Json where
  | null
  | bool (b : Bool)
  | number (n : Nat)
  | string (s : String)
  | array (items : List Json)
  | object (fields : List (String × Json))

namespace Json

/-- the lower-case hexadecimal digits of a byte -/
def hexByte (n : Nat) : List Char := [Nat.digitChar (n / 16), Nat.digitChar (n % 16)]

def escapeChar (c : Char) : List Char :=
  match c with
  | '"' => ['\\', '"']
  | '\\' => ['\\', '\\']
  | '\n' => ['\\', 'n']
  | '\r' => ['\\', 'r']
  | '\t' => ['\\', 't']
  | c =>
    if c.toNat = 0x8 then ['\\', 'b']
    else if c.toNat = 0xC then ['\\', 'f']
    else if c.toNat < 0x20 then ['\\', 'u', '0', '0'] ++ hexByte c.toNat
    else [c]

/-- a string between quotes -/
def quote (s : String) : String := "\"" ++ String.ofList (s.toList.flatMap escapeChar) ++ "\""

mutual

/-- the text of a value -/
def text : Json → String
  | null => "null"
  | bool b => if b then "true" else "false"
  | number n => toString n
  | string s => quote s
  | array items => "[" ++ itemsText items ++ "]"
  | object fields => "\x7b" ++ fieldsText fields ++ "\x7d"

def itemsText : List Json → String
  | [] => ""
  | [item] => text item
  | item :: items => text item ++ "," ++ itemsText items

def fieldsText : List (String × Json) → String
  | [] => ""
  | [(key, value)] => quote key ++ ":" ++ text value
  | (key, value) :: fields => quote key ++ ":" ++ text value ++ "," ++ fieldsText fields

end

/-- puts a field in front of the first field with a greater key -/
def insertField (field : String × Json) : List (String × Json) → List (String × Json)
  | [] => [field]
  | f :: fields => if f.1 < field.1 then f :: insertField field fields else field :: f :: fields

mutual

/-- the same value with the fields of every object in ascending order of their keys -/
def sortKeys : Json → Json
  | array items => array (sortItems items)
  | object fields => object (sortFields fields)
  | value => value

def sortItems : List Json → List Json
  | [] => []
  | item :: items => sortKeys item :: sortItems items

def sortFields : List (String × Json) → List (String × Json)
  | [] => []
  | (key, value) :: fields => insertField (key, sortKeys value) (sortFields fields)

end

/-- a symbol as a string of one character -/
def ofSymbol (c : Char) : Json := string c.toString

/-- a list of symbols, one string each -/
def ofSymbols (l : List Char) : Json := array (l.map ofSymbol)

end Json

end ContextFree
