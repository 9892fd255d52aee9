import HttpCapture.Http.Fields
import HttpCapture.Http.Quoted

/-! The directives that decide whether a response may be stored and for how long it is fresh. All
Cache-Control fields of a message count together, in the order received. -/

namespace HttpCapture

/-- Lifetimes beyond this many seconds are read as this many. -/
def longestDelta : Nat := 0x80000000

/-- A lifetime in seconds: digits only, at least one. -/
def readDelta? (s : List Char) : Option Nat :=
  if s.isEmpty || !s.all Char.isDigit then none
  else some (match readUnsigned s with
    | .ok n => min n longestDelta
    | .error _ => longestDelta)

/-- One member of a Cache-Control list. The argument is trimmed and stripped of its quotes. -/
structure Directive where
  name : List Char
  argument : Option (List Char)
  deriving DecidableEq, Repr

def Directive.ofMember (m : List Char) : Directive :=
  match cutAt '=' m with
  | none => ⟨lower (trim m), none⟩
  | some (name, argument) => ⟨lower (trim name), some (trimBy (· == '"') (trim argument))⟩

/-- The directives of one field value. -/
def directives (s : List Char) : List Directive :=
  (((splitUnquoted s).map trim).filter (!·.isEmpty)).map Directive.ofMember

def Directive.forbidsReuse (d : Directive) : Bool :=
  d.name == "no-cache".toList && d.argument.isNone

def Directive.forbidsStorage (d : Directive) : Bool := d.name == "no-store".toList

def Directive.lifetime? (d : Directive) : Option Nat :=
  if d.name == "max-age".toList then d.argument.bind readDelta? else none

structure CacheDirectives where
  noCache : Bool
  noStore : Bool
  maxAge : Option Nat
  deriving DecidableEq, Repr

/-- A no-cache that names fields does not count; the first max-age that can be read does, and
`Pragma: no-cache` counts as no-cache. -/
def CacheDirectives.ofFields (fields : Fields) : CacheDirectives :=
  let members := (fields.texts "cache-control").flatMap fun s => directives s.toList
  { noCache := members.any Directive.forbidsReuse || fields.hasToken "pragma" "no-cache"
    noStore := members.any Directive.forbidsStorage
    maxAge := members.findSome? Directive.lifetime? }

end HttpCapture
