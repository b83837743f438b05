import NominalTypes.Signature.Token

/-!
# Declarations of type parameters

A type parameter is declared as `T` or as `T extends` bounds. The name is the longest front of the
text that leaves such a rest, so that `Textends X` declares `T` with the bound `X`.
-/

namespace NominalTypes.Signature

/-- The text after `extends`: at least one blank, and then the bounds without the white space around
them. If nothing but white space follows, its last character stands for the bounds, provided that
another one comes before it. -/
def boundText? (cs : List Char) : Option (List Char) :=
  let blanks := cs.takeWhile Text.isBlank
  match blanks, cs.dropWhile Text.isBlank with
  | [], _ => none
  | _, c :: rest => some (Text.trimEnd (c :: rest))
  | [_], [] => none
  | blanks, [] => blanks.getLast?.map fun c => [c]

def extendsKeyword : List Char :=
  ['e', 'x', 't', 'e', 'n', 'd', 's']

/-- What may follow the name: nothing, or bounds. -/
def afterName? (cs : List Char) : Option (Option (List Char)) :=
  let rest := Text.trimStart cs
  let bounds :=
    if rest.take 7 == extendsKeyword then boundText? (rest.drop 7) else none
  match bounds, rest with
  | some bounds, _ => some (some bounds)
  | none, [] => some none
  | none, _ => none

/-- Splits the text after the first character of the name, of which the next `length` characters or
fewer belong to the name. -/
def splitAfter? (first : Char) (cs : List Char) : Nat → Option (List Char × Option (List Char))
  | 0 => (afterName? cs).map fun bounds => ([first], bounds)
  | length + 1 =>
    match afterName? (cs.drop (length + 1)) with
    | some bounds => some (first :: cs.take (length + 1), bounds)
    | none => splitAfter? first cs length

/-- The name and the text of the bounds of a type parameter. -/
def splitTypeParameter (text : String) (words : Text.WordClass := .unicode14) :
    Result (String × Option String) :=
  let split :=
    match Text.trimStart text.toList with
    | c :: rest =>
      if isIdentifierStart c then
        splitAfter? c rest (rest.takeWhile (isIdentifierPart words)).length
      else none
    | [] => none
  match split with
  | some (name, bounds) => .ok (String.ofList name, bounds.map String.ofList)
  | none => .error (.signature .malformedParameter text 0)

end NominalTypes.Signature
