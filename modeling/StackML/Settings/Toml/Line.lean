import StackML.Settings.Toml.Number

/-!
What stands in a TOML file, line by line: headers of tables and of elements of arrays of tables, and
keys with values. Values in brackets and braces may take several lines.
-/

namespace StackML.Settings.Toml

inductive Literal where
  | text (text : String)
  | truth (value : Bool)
  | number
  | moment
  | array (items : List Literal)
  | table (fields : List (Key × Literal))
  deriving Inhabited

inductive Line where
  | table (key : Key)
  | element (key : Key)
  | entry (key : Key) (value : Literal)

def bare? (cs : List Char) : Option (Literal × List Char) :=
  if startsMoment cs then
    let word := cs.takeWhile isMomentChar
    let moment := (word.reverse.dropWhile (· == ' ')).reverse
    if isMoment moment then some (.moment, cs.drop word.length) else none
  else
    let word := cs.takeWhile fun c => isBareKey c || c == '+' || c == '.'
    let rest := cs.drop word.length
    if word == "true".toList then some (.truth true, rest)
    else if word == "false".toList then some (.truth false, rest)
    else if isNumber word then some (.number, rest)
    else none

def skipGap (comment : Bool) : List Char → List Char
  | [] => []
  | c :: rest =>
    if isLineEnd c then skipGap false rest
    else if comment || isBlank c then skipGap comment rest
    else if c == '#' then skipGap true rest
    else c :: rest

mutual
def value? : (depth : Nat) → List Char → Option (Literal × List Char)
  | 0, _ => none
  | depth + 1, cs =>
    match cs with
    | '"' :: rest => (string? '"' rest).map fun (s, rest) => (.text s, rest)
    | '\'' :: rest => (string? '\'' rest).map fun (s, rest) => (.text s, rest)
    | '[' :: rest => items? depth [] rest
    | '\x7b' :: rest => fields? depth [] rest
    | cs => bare? cs

def items? : (depth : Nat) → (before : List Literal) → List Char → Option (Literal × List Char)
  | 0, _, _ => none
  | depth + 1, before, cs =>
    match skipGap false cs with
    | ']' :: rest => some (.array before.reverse, rest)
    | rest => do
      let (item, rest) ← value? depth rest
      match skipGap false rest with
      | ',' :: rest => items? depth (item :: before) rest
      | ']' :: rest => pure (.array (item :: before).reverse, rest)
      | _ => none

def fields? : (depth : Nat) → (before : List (Key × Literal)) → List Char →
    Option (Literal × List Char)
  | 0, _, _ => none
  | depth + 1, before, cs =>
    match skipGap false cs with
    | '\x7d' :: rest => some (.table before.reverse, rest)
    | rest => do
      let (key, rest) ← key? rest.length [] rest
      match rest with
      | '=' :: rest =>
        let (value, rest) ← value? depth (skipBlanks rest)
        match skipGap false rest with
        | ',' :: rest => fields? depth ((key, value) :: before) rest
        | '\x7d' :: rest => pure (.table ((key, value) :: before).reverse, rest)
        | _ => none
      | _ => none
end

def endLine? (cs : List Char) : Option (List Char) :=
  match skipBlanks cs with
  | [] => some []
  | '#' :: rest => some (rest.dropWhile (· != '\n'))
  | c :: rest => if isLineEnd c then some rest else none

/-- Reads the header of a table or of an element, or a key with its value. -/
def line? (cs : List Char) : Option (Line × List Char) :=
  match cs with
  | '[' :: '[' :: rest => do
    match ← key? rest.length [] rest with
    | (key, ']' :: ']' :: rest) => pure (.element key, rest)
    | _ => none
  | '[' :: rest => do
    match ← key? rest.length [] rest with
    | (key, ']' :: rest) => pure (.table key, rest)
    | _ => none
  | cs => do
    match ← key? cs.length [] cs with
    | (key, '=' :: rest) =>
      let (value, rest) ← value? (rest.length + 1) (skipBlanks rest)
      pure (.entry key value, rest)
    | _ => none

def lines? : (size : Nat) → List Char → Option (List Line)
  | 0, cs => if cs.isEmpty then some [] else none
  | size + 1, cs =>
    match skipBlanks cs with
    | [] => some []
    | c :: rest =>
      if isLineEnd c || c == '#' then do lines? size (← endLine? (c :: rest))
      else do
        let (line, rest) ← line? (c :: rest)
        return line :: (← lines? size (← endLine? rest))

end StackML.Settings.Toml
