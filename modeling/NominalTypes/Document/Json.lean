import NominalTypes.Decimal.Reading
import NominalTypes.Error

/-!
# Reading JSON text

JSON text is read into document values. Beyond the standard, the names of infinity and of the
undefined number are accepted; a number with a fraction or an exponent is a floating-point number
and any other an integer, which may not have too many digits. A repeated key of an object keeps its
first place and its last value. A surrogate pair that is escaped half by half is one character; a
half without the other is kept as its stand-in.
-/

namespace NominalTypes.Document

def skipSpace (cs : List Char) : List Char :=
  cs.dropWhile fun c => c == ' ' || c == '\t' || c == '\n' || c == '\r'

/-- The text after a given word, if it begins with that word. -/
def afterWord? : List Char → List Char → Option (List Char)
  | [], cs => some cs
  | w :: ws, c :: cs => if w == c then afterWord? ws cs else none
  | _ :: _, [] => none

/-- The number that four hexadecimal digits spell. -/
def hexQuad? (a b c d : Char) : Option Nat := do
  let a ← Text.hexValue? a
  let b ← Text.hexValue? b
  let c ← Text.hexValue? c
  let d ← Text.hexValue? d
  return ((a * 16 + b) * 16 + c) * 16 + d

/-- Puts a surrogate pair in front of the characters read so far: the character that it encodes, or
the stand-ins for its halves if that has the place of a stand-in. -/
def pushPair (high low : Nat) (done : List Char) : List Char :=
  let c := Char.ofNat (Text.join high low)
  if Text.isHalf (Text.code c) then Text.standIn low :: Text.standIn high :: done else c :: done

/-- The character of an escaped code unit; half of a surrogate pair has a stand-in. -/
def ofUnit (u : Nat) : Char :=
  if Text.isHalf u then Text.standIn u else Char.ofNat u

/-- The meaning of the character after a backslash. -/
def simpleEscape? : Char → Option Char
  | '"' => some '"'
  | '\\' => some '\\'
  | '/' => some '/'
  | 'b' => some '\x08'
  | 'f' => some '\x0c'
  | 'n' => some '\n'
  | 'r' => some '\r'
  | 't' => some '\t'
  | _ => none

/-- The rest of a string after its opening quotation mark; `done` holds the characters read so far,
the last one first. -/
def readString? : List Char → List Char → Option (String × List Char)
  | [], _ => none
  | '"' :: rest, done => some (String.ofList done.reverse, rest)
  | '\\' :: 'u' :: a :: b :: c :: d :: rest, done =>
    match hexQuad? a b c d with
    | none => none
    | some u =>
      match rest with
      | '\\' :: 'u' :: e :: f :: g :: h :: after =>
        match hexQuad? e f g h with
        | some v =>
          if Text.isHigh u && Text.isLow v then
            readString? after (pushPair u v done)
          else readString? ('\\' :: 'u' :: e :: f :: g :: h :: after) (ofUnit u :: done)
        | none => none
      | rest => readString? rest (ofUnit u :: done)
  | '\\' :: c :: rest, done =>
    match simpleEscape? c with
    | some c => readString? rest (c :: done)
    | none => none
  | c :: rest, done => if c.toNat < 32 then none else readString? rest (c :: done)
termination_by cs => cs.length

/-- The digits of the whole part of a number: a single zero, or digits that do not begin with
zero. -/
def takeWhole : List Char → List Char × List Char
  | '0' :: rest => (['0'], rest)
  | cs => Decimal.takeDigits cs

/-- The fraction of a number, if a point and a digit follow. -/
def takeFraction (cs : List Char) : Option (List Char) × List Char :=
  match cs with
  | '.' :: rest =>
    match Decimal.takeDigits rest with
    | ([], _) => (none, cs)
    | (digits, rest) => (some digits, rest)
  | _ => (none, cs)

/-- The exponent of a number, if a marker and a digit follow. -/
def takeExponent (cs : List Char) : Option Int × List Char :=
  match cs with
  | c :: rest =>
    if c == 'e' || c == 'E' then
      let (negative, rest) := Decimal.takeSign rest
      match Decimal.takeDigits rest with
      | ([], _) => (none, cs)
      | (digits, rest) =>
        let n : Int := Decimal.digitsValue digits
        (some (if negative then -n else n), rest)
    else (none, cs)
  | [] => (none, cs)

/-- A number: an integer unless a fraction or an exponent follows its whole part. -/
def readNumber (cs : List Char) : Result (Datum × List Char) :=
  let (negative, rest) :=
    match cs with
    | '-' :: rest => (true, rest)
    | rest => (false, rest)
  match takeWhole rest with
  | ([], _) => .error .notJson
  | (whole, rest) =>
    let (fraction, rest) := takeFraction rest
    let (exponent, rest) := takeExponent rest
    match fraction, exponent with
    | none, none =>
      let n : Int := Decimal.digitsValue whole
      if Decimal.maxDigits < whole.length then .error .notANumber
      else .ok (.int (if negative then -n else n), rest)
    | _, _ =>
      let fraction := fraction.getD []
      let x := Decimal.toFloat (Decimal.digitsValue (whole ++ fraction))
        (exponent.getD 0 - fraction.length)
      .ok (.float (if negative then -x else x), rest)

def readName? (cs : List Char) : Option (Datum × List Char) :=
  let names : List (String × Datum) :=
    [("null", .null), ("true", .bool true), ("false", .bool false), ("NaN", .float (0.0 / 0.0)),
      ("Infinity", .float (1.0 / 0.0)), ("-Infinity", .float (-1.0 / 0.0))]
  names.findSome? fun (name, d) => (afterWord? name.toList cs).map fun rest => (d, rest)

/-- A string after its opening quotation mark, and the text after it. -/
def readText (cs : List Char) : Result (String × List Char) :=
  match readString? cs [] with
  | some found => .ok found
  | none => .error .notJson

mutual

/-- A value at the front of the text, and the text after it. -/
def readValue : Nat → List Char → Result (Datum × List Char)
  | 0, _ => .error .exhausted
  | fuel + 1, cs =>
    match cs with
    | '"' :: rest => do
      let (s, rest) ← readText rest
      return (.text s, rest)
    | '[' :: rest =>
      match skipSpace rest with
      | ']' :: rest => return (.list [], rest)
      | rest => readItems fuel rest []
    | '\x7b' :: rest =>
      match skipSpace rest with
      | '\x7d' :: rest => return (.object [], rest)
      | rest => readFields fuel rest []
    | cs =>
      match readName? cs with
      | some found => return found
      | none => readNumber cs

/-- The items of a list up to its closing bracket; `done` holds the items read so far, the last one
first. -/
def readItems : Nat → List Char → List Datum → Result (Datum × List Char)
  | 0, _, _ => .error .exhausted
  | fuel + 1, cs, done => do
    let (d, rest) ← readValue fuel cs
    match skipSpace rest with
    | ',' :: rest => readItems fuel (skipSpace rest) (d :: done)
    | ']' :: rest => return (.list (d :: done).reverse, rest)
    | _ => throw .notJson

/-- The fields of an object up to its closing brace. -/
def readFields : Nat → List Char → List (String × Datum) → Result (Datum × List Char)
  | 0, _, _ => .error .exhausted
  | fuel + 1, cs, done =>
    match cs with
    | '"' :: rest => do
      let (key, rest) ← readText rest
      match skipSpace rest with
      | ':' :: rest =>
        let (d, rest) ← readValue fuel (skipSpace rest)
        let done := Datum.insertField done key d
        match skipSpace rest with
        | ',' :: rest => readFields fuel (skipSpace rest) done
        | '\x7d' :: rest => return (.object done, rest)
        | _ => throw .notJson
      | _ => throw .notJson
    | _ => .error .notJson

end

/-- The value that JSON text denotes; nothing but white space may surround it. The text has no
characters in the places of stand-ins. -/
def readJson (s : String) : Result Datum := do
  let cs := s.toList
  let (d, rest) ← readValue (cs.length + 1) (skipSpace cs)
  if (skipSpace rest).isEmpty then return d else throw .notJson

/-- The value that JSON text from outside denotes. -/
def readOutside (s : String) : Result Datum :=
  readJson (Text.fromOutside s)

end NominalTypes.Document
