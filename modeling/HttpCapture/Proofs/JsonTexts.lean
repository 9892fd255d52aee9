import HttpCapture.Json.Printer
import HttpCapture.Proofs.NumberTexts

/-! The text of a document is put together from the texts of its parts, whatever comes after it. It
takes one line, since a line break in a string is written as an escape. -/

namespace HttpCapture

namespace Json

theorem compactItems_cons_cons (rest : List Char) (item next : Json) (items : List Json) :
    compactItems rest (item :: next :: items) =
      compactOnto (',' :: compactItems rest (next :: items)) item := by
  rw [compactItems]
  simp

theorem compactMembers_cons_cons (rest : List Char) (name : String) (value : Json)
    (next : String × Json) (members : List (String × Json)) :
    compactMembers rest ((name, value) :: next :: members) =
      quote name ++ ':' :: compactOnto (',' :: compactMembers rest (next :: members)) value := by
  rw [compactMembers]
  simp

mutual

theorem compactOnto_append (rest : List Char) (j : Json) :
    compactOnto rest j = compactOnto [] j ++ rest := by
  cases j with
  | arr items =>
    rw [compactOnto, compactOnto, compactItems_append (']' :: rest), compactItems_append [']']]
    simp
  | obj members =>
    rw [compactOnto, compactOnto, compactMembers_append ('\x7d' :: rest),
      compactMembers_append ['\x7d']]
    simp
  | _ => simp [compactOnto]

theorem compactItems_append (rest : List Char) (items : List Json) :
    compactItems rest items = compactItems [] items ++ rest := by
  match items with
  | [] => rfl
  | [item] => rw [compactItems, compactItems, compactOnto_append]
  | item :: next :: items =>
    rw [compactItems_cons_cons, compactItems_cons_cons, compactOnto_append,
      compactOnto_append (',' :: compactItems [] (next :: items)), compactItems_append rest]
    simp

theorem compactMembers_append (rest : List Char) (members : List (String × Json)) :
    compactMembers rest members = compactMembers [] members ++ rest := by
  match members with
  | [] => rfl
  | [(name, value)] =>
    rw [compactMembers, compactMembers, compactOnto_append]
    simp
  | (name, value) :: next :: members =>
    rw [compactMembers_cons_cons, compactMembers_cons_cons, compactOnto_append,
      compactOnto_append (',' :: compactMembers [] (next :: members)), compactMembers_append rest]
    simp

end

theorem newline_not_mem_escape (c : Char) : '\n' ∉ escape c := by
  unfold escape
  split_ifs with hquote hslash hback hfeed hline hreturn htab hcontrol
  all_goals simp
  exact fun h => hline h.symm

theorem newline_not_mem_quote (s : String) : '\n' ∉ quote s := by
  simp [quote, newline_not_mem_escape]

theorem newline_not_mem_toDigits (n : Nat) : '\n' ∉ Nat.toDigits 10 n := by
  intro h
  exact absurd (toDigits_isDigit '\n' h) (by decide)

theorem newline_not_mem_positional {digits : List Char} (h : '\n' ∉ digits) (exponent : Int)
    (keepsPoint : Bool) : '\n' ∉ positional digits exponent keepsPoint := by
  have htake : ∀ n, '\n' ∉ digits.take n := fun n hn => h (List.mem_of_mem_take hn)
  have hdrop : ∀ n, '\n' ∉ digits.drop n := fun n hn => h (List.mem_of_mem_drop hn)
  unfold positional
  dsimp only
  split_ifs <;> simp [h, htake, hdrop]

theorem newline_not_mem_scientific {digits : List Char} (h : '\n' ∉ digits) (place : Int) :
    '\n' ∉ scientific digits place := by
  have htake : '\n' ∉ digits.take 1 := fun hn => h (List.mem_of_mem_take hn)
  have hdrop : '\n' ∉ digits.drop 1 := fun hn => h (List.mem_of_mem_drop hn)
  have hdigits := newline_not_mem_toDigits place.natAbs
  unfold scientific
  dsimp only
  split_ifs <;> simp_all

theorem newline_not_mem_float (bits : UInt64) : '\n' ∉ NumberFormat.json.text bits := by
  have hsize : ∀ size, '\n' ∉ NumberFormat.json.magnitude size := by
    intro size
    have hdigits := newline_not_mem_toDigits (shortestDigits size).digits
    unfold NumberFormat.magnitude
    dsimp only
    split_ifs
    · exact newline_not_mem_positional (by decide) _ _
    · exact newline_not_mem_positional hdigits _ _
    · exact newline_not_mem_scientific hdigits _
  have hnull : '\n' ∉ NumberFormat.json.notANumber.toList ∧
      '\n' ∉ NumberFormat.json.infinity.toList ∧
      '\n' ∉ NumberFormat.json.negativeInfinity.toList := by
    decide
  unfold NumberFormat.text
  dsimp only
  split_ifs <;> simp [hsize, hnull]

theorem newline_not_mem_scalarText (j : Json) : '\n' ∉ scalarText j := by
  cases j with
  | bool b => cases b <;> decide
  | int n =>
    rw [scalarText, toList_toString]
    split_ifs <;> simp [newline_not_mem_toDigits]
  | float bits => exact newline_not_mem_float bits
  | str s => exact newline_not_mem_quote s
  | _ => simp [scalarText]

mutual

theorem newline_not_mem_compactOnto (j : Json) : '\n' ∉ compactOnto [] j := by
  cases j with
  | arr items =>
    rw [compactOnto, compactItems_append]
    simp [newline_not_mem_compactItems items]
  | obj members =>
    rw [compactOnto, compactMembers_append]
    simp [newline_not_mem_compactMembers members]
  | _ => simpa [compactOnto] using newline_not_mem_scalarText _

theorem newline_not_mem_compactItems (items : List Json) : '\n' ∉ compactItems [] items := by
  match items with
  | [] => simp [compactItems]
  | [item] =>
    rw [compactItems]
    exact newline_not_mem_compactOnto item
  | item :: next :: items =>
    rw [compactItems_cons_cons, compactOnto_append]
    simp [newline_not_mem_compactOnto item, newline_not_mem_compactItems (next :: items)]

theorem newline_not_mem_compactMembers (members : List (String × Json)) :
    '\n' ∉ compactMembers [] members := by
  match members with
  | [] => simp [compactMembers]
  | [(name, value)] =>
    rw [compactMembers]
    simp [newline_not_mem_quote, newline_not_mem_compactOnto value]
  | (name, value) :: next :: members =>
    rw [compactMembers_cons_cons, compactOnto_append]
    simp [newline_not_mem_quote, newline_not_mem_compactOnto value,
      newline_not_mem_compactMembers (next :: members)]

end

/-- A document takes one line, whatever its strings hold. -/
theorem newline_not_mem_compact (j : Json) : '\n' ∉ j.compact.toList := by
  simpa [compact] using newline_not_mem_compactOnto j

end Json

end HttpCapture
