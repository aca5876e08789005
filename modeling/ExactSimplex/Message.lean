/-!
# Messages

What a solver tells about its progress while it works, at two levels of detail.
-/

namespace ExactSimplex

/-- A message, at the level of detail at which it is wanted. -/
inductive Message
  | debug (text : String)
  | trace (text : String)
  deriving DecidableEq, Repr

/-- Writes the level in front of the text. -/
def Message.line : Message → String
  | .debug text => "DEBUG " ++ text
  | .trace text => "TRACE " ++ text

end ExactSimplex
