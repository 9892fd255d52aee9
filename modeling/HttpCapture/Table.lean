/-! Tables of values by key. -/

namespace HttpCapture

/-- Values by key, each key at most once. -/
abbrev Table (α β : Type) := List (α × β)

namespace Table

variable {α β : Type} [DecidableEq α]

def erase (t : Table α β) (key : α) : Table α β := t.filter (·.1 ≠ key)

def put (t : Table α β) (key : α) (value : β) : Table α β := (key, value) :: t.erase key

def get? (t : Table α β) (key : α) : Option β := t.lookup key

/-- Change the value at a key of a table whose keys ascend by rank; a key that is not there has the
value `start`. -/
def amend (rank : α → Nat) (key : α) (start : β) (change : β → β) : Table α β → Table α β
  | [] => [(key, change start)]
  | (k, value) :: rest =>
    if rank key < rank k then (key, change start) :: (k, value) :: rest
    else if key = k then (k, change value) :: rest
    else (k, value) :: amend rank key start change rest

end Table

end HttpCapture
