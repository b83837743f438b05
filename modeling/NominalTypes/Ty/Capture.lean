import NominalTypes.Ty.Basic

/-!
# Capture conversion

Capturing a parameterized type replaces its wildcard arguments by fresh variables. Each has a token
of its own, and the variables of one capture share the number of the capture. Tokens and captures
are counted from one.
-/

namespace NominalTypes

/-- The next token and the number of the next capture. -/
structure CaptureSupply where
  token : Nat := 1
  site : Nat := 1
  deriving DecidableEq, Repr, Inhabited

namespace Ty

/-- Replaces the wildcards among some arguments by variables with consecutive tokens. Gives the
arguments and the next token. -/
def captureArguments (site : Nat) : Nat → List Ty → List Ty × Nat
  | token, [] => ([], token)
  | token, wildcard _ upper lower marks :: args =>
    let (rest, next) := captureArguments site (token + 1) args
    (captured token site upper lower marks :: rest, next)
  | token, arg :: args =>
    let (rest, next) := captureArguments site token args
    (arg :: rest, next)

/-- Captures the wildcard arguments of a type. A type without any stays as it is. -/
def capture (supply : CaptureSupply) (t : Ty) : Result (Ty × CaptureSupply) :=
  match t with
  | declared c args owner marks =>
    if args.any isWildcard then
      let (args, next) := captureArguments supply.site supply.token args
      .ok (declared c args owner marks, { token := next, site := supply.site + 1 })
    else .ok (t, supply)
  | t => if t.isPseudo then .error (.kind (.notCapturable t.kind)) else .ok (t, supply)

end Ty

end NominalTypes
