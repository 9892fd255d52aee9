/-! Cutting a list at a separator. -/

namespace HttpCapture

variable {α : Type} [BEq α]

/-- The parts before and after the first `sep`. -/
def cutAt (sep : α) (l : List α) : Option (List α × List α) :=
  match l.dropWhile (· != sep) with
  | [] => none
  | _ :: rest => some (l.takeWhile (· != sep), rest)

/-- The parts between the separators, one more than there are separators. -/
def splitAll (sep : α) (l : List α) : List (List α) :=
  l.foldr (fun a parts =>
    if a == sep then [] :: parts
    else match parts with
      | [] => [[a]]
      | part :: rest => (a :: part) :: rest) [[]]

/-- What follows `start`, when the list starts so. -/
def after? (start l : List α) : Option (List α) :=
  if start.isPrefixOf l then some (l.drop start.length) else none

end HttpCapture
