import NeuralPlan.Text.Decimal

/-!
# JSON values

## Main definitions

* `Json` — a value as it is read, with numbers as they are written.
* `Json.read?` — the value that a text is.
-/

set_option relaxedAutoImplicit false
set_option autoImplicit false

namespace NeuralPlan

/-- A JSON value.  A string is `none` if it escapes half of a surrogate pair alone, and so is
no text; a number is written as an integer if it has no fraction, no exponent, and no sign in
front of a zero. -/
inductive Json
  | null
  | bool (value : Bool)
  | number (value : Decimal) (isInteger : Bool)
  | string (text : Option String)
  | array (items : List Json)
  | object (members : List (Option String × Json))

namespace Json

/-! ## Tokens -/

/-- White space. -/
def isBlank (c : Char) : Bool := c == ' ' || c == '\t' || c == '\n' || c == '\r'

/-- The text behind white space. -/
def skipBlanks (cs : List Char) : List Char := cs.dropWhile isBlank

/-- The number that a hexadecimal digit stands for. -/
def hexDigit? (c : Char) : Option Nat :=
  if c.isDigit then some (c.toNat - '0'.toNat)
  else if 'a' ≤ c && c ≤ 'f' then some (c.toNat - 'a'.toNat + 10)
  else if 'A' ≤ c && c ≤ 'F' then some (c.toNat - 'A'.toNat + 10)
  else none

/-- The number that four hexadecimal digits stand for, and the rest. -/
def hexWord? : List Char → Option (Nat × List Char)
  | a :: b :: c :: d :: rest => do
    return ((((← hexDigit? a) * 16 + (← hexDigit? b)) * 16 + (← hexDigit? c)) * 16
      + (← hexDigit? d), rest)
  | _ => none

/-- The character that a letter behind a backslash stands for. -/
def escaped? : Char → Option Char
  | '"' => some '"'
  | '\\' => some '\\'
  | '/' => some '/'
  | 'b' => some '\x08'
  | 'f' => some '\x0c'
  | 'n' => some '\n'
  | 'r' => some '\r'
  | 't' => some '\t'
  | _ => none

/-- The low half of a surrogate pair, escaped at the front of the text, and the rest. -/
def lowSurrogate? : List Char → Option (Nat × List Char)
  | '\\' :: 'u' :: cs =>
    match hexWord? cs with
    | some (low, rest) => if 0xdc00 ≤ low && low ≤ 0xdfff then some (low, rest) else none
    | none => none
  | _ => none

/-- The character that a surrogate pair stands for. -/
def ofSurrogates (high low : Nat) : Char :=
  Char.ofNat (0x10000 + (high - 0xd800) * 0x400 + (low - 0xdc00))

/-- The character that a number behind `\u` begins, or `none` for half of a surrogate pair
alone, and the rest. -/
def unicode (unit : Nat) (cs : List Char) : Option Char × List Char :=
  if 0xd800 ≤ unit && unit ≤ 0xdbff then
    match lowSurrogate? cs with
    | some (low, rest) => (some (ofSurrogates unit low), rest)
    | none => (none, cs)
  else if 0xdc00 ≤ unit && unit ≤ 0xdfff then (none, cs)
  else (some (Char.ofNat unit), cs)

/-- One character, as it is or escaped, and the rest; there is none for a quote, a control
character or an escape that does not exist. -/
def character? : List Char → Option (Option Char × List Char)
  | [] => none
  | '\\' :: 'u' :: cs => (hexWord? cs).map fun (unit, rest) => unicode unit rest
  | '\\' :: c :: cs => (escaped? c).map fun c => (some c, cs)
  | c :: cs => if c == '"' || c == '\\' || c.toNat < 0x20 then none else some (some c, cs)

/-- The characters up to the closing quote, last to first, and the rest. -/
def characters? : Nat → Option (List Char) → List Char → Option (Option (List Char) × List Char)
  | 0, _, _ => none
  | fuel + 1, read, cs =>
    match cs with
    | '"' :: rest => some (read, rest)
    | cs =>
      match character? cs with
      | none => none
      | some (c, rest) => characters? fuel (c.bind fun c => read.map (c :: ·)) rest

/-- A string behind its opening quote, and the rest. -/
def string? (cs : List Char) : Option (Option String × List Char) := do
  let (read, rest) ← characters? (cs.length + 1) (some []) cs
  return (read.map fun read => String.ofList read.reverse, rest)

/-- The digits before the point, of which the first is no zero unless it stands alone. -/
def whole? : List Char → Option (List Char × List Char)
  | '0' :: rest => some (['0'], rest)
  | cs =>
    let (digits, rest) := Decimal.splitDigits cs
    if digits.isEmpty then none else some (digits, rest)

/-- A fraction, if there is one; its point has digits behind it. -/
def fraction? : List Char → Option (Option (List Char) × List Char)
  | '.' :: cs =>
    let (digits, rest) := Decimal.splitDigits cs
    if digits.isEmpty then none else some (some digits, rest)
  | cs => some (none, cs)

/-- An exponent, if there is one; its mark has digits behind it. -/
def exponent? : List Char → Option (Option Int × List Char)
  | [] => some (none, [])
  | c :: cs =>
    if c == 'e' || c == 'E' then
      let (negative, cs) := Decimal.splitSign cs
      let (digits, rest) := Decimal.splitDigits cs
      if digits.isEmpty then none
      else
        let n : Int := Decimal.ofDigits digits
        some (some (if negative then -n else n), rest)
    else some (none, c :: cs)

/-- A number behind its sign, and the rest. -/
def number? (negative : Bool) (cs : List Char) : Option (Json × List Char) := do
  let (whole, cs) ← whole? cs
  let (fraction, cs) ← fraction? cs
  let (exponent, cs) ← exponent? cs
  let isInteger := fraction.isNone && exponent.isNone && !(negative && whole == ['0'])
  return (.number (Decimal.ofParts negative whole (fraction.getD []) (exponent.getD 0)) isInteger,
    cs)

/-- A word at the front of the text, and the rest. -/
def word? (word : String) (cs : List Char) : Option (List Char) :=
  if word.toList.isPrefixOf cs then some (cs.drop word.length) else none

/-! ## Values -/

mutual

/-- A value at the front of the text, and the rest. -/
def value? : Nat → List Char → Option (Json × List Char)
  | 0, _ => none
  | fuel + 1, cs =>
    match skipBlanks cs with
    | '"' :: cs => (string? cs).map fun (text, rest) => (.string text, rest)
    | '[' :: cs =>
      match skipBlanks cs with
      | ']' :: rest => some (.array [], rest)
      | cs => (items? fuel cs).map fun (items, rest) => (.array items, rest)
    | '\x7b' :: cs =>
      match skipBlanks cs with
      | '\x7d' :: rest => some (.object [], rest)
      | cs => (members? fuel cs).map fun (members, rest) => (.object members, rest)
    | '-' :: cs => number? true cs
    | cs =>
      match word? "null" cs, word? "true" cs, word? "false" cs with
      | some rest, _, _ => some (.null, rest)
      | _, some rest, _ => some (.bool true, rest)
      | _, _, some rest => some (.bool false, rest)
      | none, none, none => number? false cs

/-- The items of an array up to its end, and the rest. -/
def items? : Nat → List Char → Option (List Json × List Char)
  | 0, _ => none
  | fuel + 1, cs => do
    let (item, cs) ← value? fuel cs
    match skipBlanks cs with
    | ',' :: cs =>
      let (items, rest) ← items? fuel cs
      return (item :: items, rest)
    | ']' :: rest => return ([item], rest)
    | _ => none

/-- The members of an object up to its end, and the rest. -/
def members? : Nat → List Char → Option (List (Option String × Json) × List Char)
  | 0, _ => none
  | fuel + 1, cs => do
    match skipBlanks cs with
    | '"' :: cs =>
      let (name, cs) ← string? cs
      match skipBlanks cs with
      | ':' :: cs =>
        let (value, cs) ← value? fuel cs
        match skipBlanks cs with
        | ',' :: cs =>
          let (members, rest) ← members? fuel cs
          return ((name, value) :: members, rest)
        | '\x7d' :: rest => return ([(name, value)], rest)
        | _ => none
      | _ => none
    | _ => none

end

/-- The value that a text is, with nothing but white space around it.  Each step into a value
passes a character, so that twice as many steps as characters are enough. -/
def read? (text : String) : Option Json := do
  let cs := text.toList
  let (value, rest) ← value? (2 * cs.length + 2) cs
  if (skipBlanks rest).isEmpty then return value else none

end Json

end NeuralPlan
