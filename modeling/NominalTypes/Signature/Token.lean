import NominalTypes.Error
import NominalTypes.Text.Blank
import NominalTypes.Text.Word

/-!
# Tokens of signature text

Signature text consists of identifiers, of the ellipsis, and of single punctuation marks, with white
space between them. Positions count characters.
-/

namespace NominalTypes.Signature

/-- A token of signature text. -/
inductive Token where
  | identifier (name : String)
  | ellipsis
  | mark (c : Char)
  deriving DecidableEq, Repr, Inhabited

/-- A token and where it begins. -/
structure Lexeme where
  token : Token
  position : Nat
  deriving DecidableEq, Repr, Inhabited

/-- Whether an identifier may begin with the character. -/
def isIdentifierStart (c : Char) : Bool :=
  c.isAlpha || c == '_' || c == '$'

variable (words : Text.WordClass)

/-- Whether an identifier may go on with the character. -/
def isIdentifierPart (c : Char) : Bool :=
  words.contains c || c == '$'

def punctuation : List Char :=
  ['@', '<', '>', ',', '?', '[', ']', '.', '&']

/-- The token at the front of the text and what follows it, if a token begins there. The text does
not begin with white space. -/
def nextToken? : List Char → Option (Token × List Char)
  | '.' :: '.' :: '.' :: rest => some (.ellipsis, rest)
  | c :: rest =>
    if isIdentifierStart c then
      some (.identifier (String.ofList (c :: rest.takeWhile (isIdentifierPart words))),
        rest.dropWhile (isIdentifierPart words))
    else if c ∈ punctuation then some (.mark c, rest)
    else none
  | [] => none

/-- The tokens of the text, which stands at the given position, or the position of the first
character that begins no token. At most `fuel` tokens are read. -/
def scan : Nat → List Char → Nat → Except Nat (List Lexeme)
  | 0, _, _ => .ok []
  | fuel + 1, cs, position =>
    match Text.trimStart cs with
    | [] => .ok []
    | c :: rest =>
      let start := position + (cs.length - (c :: rest).length)
      match nextToken? words (c :: rest) with
      | none => .error start
      | some (token, after) => do
        let more ← scan fuel after (start + ((c :: rest).length - after.length))
        return ⟨token, start⟩ :: more

def tokenize (text : String) : Result (List Lexeme) :=
  match scan words text.length text.toList 0 with
  | .ok lexemes => .ok lexemes
  | .error position => .error (.signature .unexpectedCharacter text position)

end NominalTypes.Signature
