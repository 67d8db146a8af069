import TensorShape.Symbolic.Value

/-!
# TensorShape.Check.EncodingError

A value that cannot be put to the solver where it stands.
-/

namespace TensorShape

inductive EncodingError where
  /-- The value is no term or formula of the kind its position asks for. -/
  | unsupported (value : Value) (position : String)
deriving DecidableEq

namespace EncodingError

def message : EncodingError → String
  | .unsupported value position => "cannot lower `" ++ value.text ++ "` as " ++ position

/-- The code under which an error is reported. -/
def code : EncodingError → String
  | .unsupported .. => "shapecheck::verify::unsupported"

def help : EncodingError → String
  | .unsupported .. => "only integer and boolean facts over ranks and dimensions reach the solver"

end EncodingError

end TensorShape
