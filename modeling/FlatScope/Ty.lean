/-!
# Types of the language

`Ty.descriptor` and `methodDescriptor` encode types and call signatures for the target machine.
-/

namespace FlatScope

/-- The built-in types, and classes by their name. -/
inductive Ty where
  | int
  | float
  | string
  | void
  | named (name : String)
deriving DecidableEq, Repr

namespace Ty

/-- The type as a program writes it. -/
def text : Ty → String
  | int => "int"
  | float => "float"
  | string => "string"
  | void => "void"
  | named name => name

def descriptor : Ty → String
  | int => "I"
  | float => "F"
  | string => "Ljava/lang/String;"
  | void => "V"
  | named name => "L" ++ name ++ ";"

end Ty

/-- The call signature of a function, for instance `(IF)V`. -/
def methodDescriptor (result : Ty) (params : List Ty) : String :=
  "(" ++ String.join (params.map Ty.descriptor) ++ ")" ++ result.descriptor

end FlatScope
