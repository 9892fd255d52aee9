import HttpCapture.Text.Split

/-! Lists whose members may hold quoted strings. A quoted string runs from a quote to the next quote
that no backslash escapes, or to the end of the text, and commas inside it do not separate. -/

namespace HttpCapture

/-- Where a reader stands relative to quoted strings. -/
inductive QuoteState
  | outside
  | inside
  | escaped
  deriving DecidableEq, Repr

def QuoteState.next : QuoteState → Char → QuoteState
  | .outside, c => if c = '"' then .inside else .outside
  | .inside, c => if c = '\\' then .escaped else if c = '"' then .outside else .inside
  | .escaped, _ => .inside

/-- The state after a whole text. -/
def QuoteState.after (q : QuoteState) (s : List Char) : QuoteState := s.foldl QuoteState.next q

/-- Split the rest of a text; `part` holds the current member's characters, last first. -/
def splitUnquotedFrom (q : QuoteState) (part : List Char) : List Char → List (List Char)
  | [] => [part.reverse]
  | c :: cs =>
    if q = .outside ∧ c = ',' then part.reverse :: splitUnquotedFrom .outside [] cs
    else splitUnquotedFrom (q.next c) (c :: part) cs

/-- The parts between the commas that stand outside quoted strings. -/
def splitUnquoted (s : List Char) : List (List Char) := splitUnquotedFrom .outside [] s

end HttpCapture
