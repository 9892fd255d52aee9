/-! JSON values. Members of an object keep their order; a number is an integer or the
bits of a binary64 value. -/

namespace HttpCapture

inductive Json
  | null
  | bool (b : Bool)
  | int (n : Int)
  | float (bits : UInt64)
  | str (s : String)
  | arr (items : List Json)
  | obj (members : List (String × Json))
  deriving Inhabited

namespace Json

def nat (n : Nat) : Json := .int n

def ofFloat (x : Float) : Json := .float x.toBits

/-- An absent value is null. -/
def option {α : Type} (f : α → Json) : Option α → Json
  | none => .null
  | some a => f a

def list {α : Type} (f : α → Json) (l : List α) : Json := .arr (l.map f)

end Json

end HttpCapture
