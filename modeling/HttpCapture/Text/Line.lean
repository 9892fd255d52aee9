import HttpCapture.Text.Split
import HttpCapture.Text.Blank

/-! Lines of a byte stream. A line ends with a line feed; a carriage return in front of it
belongs to the ending. -/

namespace HttpCapture

def lineFeed : UInt8 := 10

def carriageReturn : UInt8 := 13

/-- A line without the carriage return at its end. -/
def dropReturn (line : Bytes) : Bytes :=
  if line.getLast? = some carriageReturn then line.dropLast else line

/-- The first line of a stream. -/
structure Line where
  /-- The line without its ending. -/
  text : Bytes
  /-- How many bytes the line takes, its ending included. -/
  size : Nat
  /-- What follows. -/
  rest : Bytes
  deriving DecidableEq, Repr

/-- The first line, if a line feed ends one. -/
def firstLine? (bs : Bytes) : Option Line :=
  (cutAt lineFeed bs).map fun (line, rest) => ⟨dropReturn line, line.length + 1, rest⟩

theorem cutAt_eq_append {α : Type} [BEq α] [LawfulBEq α] {sep : α} {l before rest : List α}
    (h : cutAt sep l = some (before, rest)) : l = before ++ sep :: rest := by
  unfold cutAt at h
  split at h
  · simp at h
  · next x tail heq =>
    have hx : x = sep := by
      have := List.head?_dropWhile_not (· != sep) l
      rw [heq] at this
      simpa using this
    simp only [Option.some.injEq, Prod.mk.injEq] at h
    rw [← h.1, ← h.2, show sep :: tail = l.dropWhile (· != sep) by rw [heq, hx]]
    exact (List.takeWhile_append_dropWhile).symm

theorem firstLine?_length {bs : Bytes} {l : Line} (h : firstLine? bs = some l) :
    l.size + l.rest.length = bs.length := by
  obtain ⟨⟨line, rest⟩, hcut, rfl⟩ := Option.map_eq_some_iff.1 h
  have := congrArg List.length (cutAt_eq_append hcut)
  simp only [List.length_append, List.length_cons] at this ⊢
  omega

theorem firstLine?_size_pos {bs : Bytes} {l : Line} (h : firstLine? bs = some l) : 0 < l.size := by
  obtain ⟨_, _, rfl⟩ := Option.map_eq_some_iff.1 h
  simp

theorem firstLine?_rest_lt {bs : Bytes} {l : Line} (h : firstLine? bs = some l) :
    l.rest.length < bs.length := by
  have := firstLine?_length h
  have := firstLine?_size_pos h
  omega

end HttpCapture
