import HttpCapture.Json.Tree
import HttpCapture.Proofs.JsonTexts

/-! A JSON document is read as it was written. The text of a value tells where it ends, so that
values can be read one after the other; only a number needs to be followed by something that
does not go on with it. -/

namespace HttpCapture

namespace JsonTree

theorem joinUnits_map_char (text cs : List Char) :
    joinUnits text (cs.map .char) = some (text.reverse ++ cs) := by
  induction cs generalizing text with
  | nil => simp [joinUnits]
  | cons c cs ih => simp [joinUnits, ih]

theorem hexDigitValue?_digitChar : ∀ d < 16, hexDigitValue? (Nat.digitChar d) = some d := by decide

theorem readUnits?_escape (c : Char) (units : List StringUnit) (rest : List Char) :
    readUnits? units (Json.escape c ++ rest) = readUnits? (.char c :: units) rest := by
  unfold Json.escape
  split_ifs with hquote hslash hback hfeed hline hreturn htab hcontrol
  · simp [hquote, readUnits?, shortEscape?]
  · simp [hslash, readUnits?, shortEscape?]
  · obtain rfl : c = '\x08' := Char.toNat_inj.mp hback
    simp [readUnits?, shortEscape?]
  · obtain rfl : c = '\x0c' := Char.toNat_inj.mp hfeed
    simp [readUnits?, shortEscape?]
  · simp [hline, readUnits?, shortEscape?]
  · simp [hreturn, readUnits?, shortEscape?]
  · simp [htab, readUnits?, shortEscape?]
  · have hhex : hex4? '0' '0' (Nat.digitChar (c.toNat / 16)) (Nat.digitChar (c.toNat % 16)) =
        some c.toNat := by
      have hhigh := hexDigitValue?_digitChar (c.toNat / 16) (by omega)
      have hlow := hexDigitValue?_digitChar (c.toNat % 16) (by omega)
      have hzero : hexDigitValue? '0' = some 0 := by decide
      simp [hex4?, hzero, hhigh, hlow]
      omega
    have hunit : StringUnit.ofNat c.toNat = .char c := by
      rw [StringUnit.ofNat, if_neg (by omega), if_neg (by omega), Char.ofNat_toNat]
    simp [readUnits?, hhex, hunit]
  · rw [List.singleton_append, readUnits?]
    · rw [if_neg hcontrol]
    · simpa using hquote
    · simp [hslash]
    · simp [hslash]

theorem readUnits?_quoted (cs : List Char) (units : List StringUnit) (rest : List Char) :
    readUnits? units (cs.flatMap Json.escape ++ '"' :: rest) =
      some (units.reverse ++ cs.map .char, rest) := by
  induction cs generalizing units with
  | nil => simp [readUnits?]
  | cons c cs ih =>
    rw [List.flatMap_cons, List.append_assoc, readUnits?_escape, ih]
    simp

theorem readString?_quoted (s : String) (rest : List Char) :
    readString? (s.toList.flatMap Json.escape ++ '"' :: rest) = some (some s, rest) := by
  rw [readString?, readUnits?_quoted]
  simp [joinUnits_map_char]

end JsonTree

namespace Json

mutual

/-- What a written document is read as. -/
def tree : Json → JsonTree
  | .null => .null
  | .bool b => .bool b
  | .int n => .number ⟨n < 0, Nat.toDigits 10 n.natAbs, none, none⟩
  | .float bits =>
    ((NumberText.read? (NumberFormat.json.text bits)).map fun (t, _) => .number t).getD .null
  | .str s => .str (some s)
  | .arr items => .arr (treeItems items)
  | .obj members => .obj (treeMembers members)

def treeItems : List Json → List JsonTree
  | [] => []
  | item :: items => tree item :: treeItems items

def treeMembers : List (String × Json) → List (Option String × JsonTree)
  | [] => []
  | (name, value) :: members => (some name, tree value) :: treeMembers members

end

theorem treeItems_eq_map (items : List Json) : treeItems items = items.map tree := by
  induction items with
  | nil => simp [treeItems]
  | cons item items ih => simp [treeItems, ih]

theorem treeMembers_eq_map (members : List (String × Json)) :
    treeMembers members = members.map fun m => (some m.1, m.2.tree) := by
  induction members with
  | nil => simp [treeMembers]
  | cons m members ih => simp [treeMembers, ih]

theorem tree_str (s : String) : (str s).tree = .str (some s) := by
  rw [tree]

theorem tree_arr (items : List Json) : (arr items).tree = .arr (items.map tree) := by
  rw [tree, treeItems_eq_map]

theorem tree_obj (members : List (String × Json)) :
    (obj members).tree = .obj (members.map fun m => (some m.1, m.2.tree)) := by
  rw [tree, treeMembers_eq_map]

/-- What may follow a value: the end, or what goes on with or ends an array or an object. -/
def Follows (rest : List Char) : Prop := ∀ c ∈ rest.head?, c = ',' ∨ c = ']' ∨ c = '\x7d'

theorem Follows.stops {rest : List Char} (h : Follows rest) : NumberText.Stops rest := by
  intro c hc
  rcases h c hc with rfl | rfl | rfl <;> decide

theorem skipSpace_cons {c : Char} (h : JsonTree.isSpace c = false) (s : List Char) :
    JsonTree.skipSpace (c :: s) = c :: s :=
  dropWhile_of_head (by simpa using h)

/-- A value is read as its tree from the front of a text. -/
structure ReadsBack (j : Json) : Prop where
  opens : ∃ c s, compactOnto [] j = c :: s ∧ JsonTree.isSpace c = false ∧ c ≠ ']'
  /-- Two steps for each character suffice. -/
  reads : ∀ rest fuel, Follows rest → 2 * (compactOnto [] j).length ≤ fuel →
    JsonTree.read? fuel (compactOnto [] j ++ rest) = some (j.tree, rest)

theorem quote_append (s : String) (rest : List Char) :
    quote s ++ rest = '"' :: (s.toList.flatMap escape ++ '"' :: rest) := by
  simp [quote]

namespace ReadsBack

theorem bool (b : Bool) : ReadsBack (.bool b) := by
  have hzero : ¬2 * (compactOnto [] (.bool b)).length ≤ 0 := by cases b <;> decide
  refine ⟨?_, fun rest fuel _ hfuel => ?_⟩
  · cases b with
    | true => exact ⟨'t', _, rfl, by decide⟩
    | false => exact ⟨'f', _, rfl, by decide⟩
  · cases fuel with
    | zero => exact absurd hfuel hzero
    | succ fuel => cases b <;> rfl

theorem str (s : String) : ReadsBack (.str s) := by
  have htext : compactOnto [] (.str s) = quote s := by simp [compactOnto, scalarText]
  refine ⟨⟨'"', _, htext, by decide⟩, fun rest fuel _ hfuel => ?_⟩
  rw [htext] at hfuel ⊢
  cases fuel with
  | zero => simp [quote] at hfuel
  | succ fuel =>
    rw [quote_append, JsonTree.read?, skipSpace_cons (by decide)]
    simp [JsonTree.readString?_quoted, tree]

theorem of_number {j : Json} {t : NumberText}
    (hread : NumberText.read? (compactOnto [] j) = some (t, [])) (htree : j.tree = .number t) :
    ReadsBack j := by
  obtain ⟨c, s, htext, hc⟩ := NumberText.exists_head_of_read? hread
  have hne : ∀ d, d ≠ '-' → d.isDigit = false → c ≠ d := by
    rintro d hminus hdigit rfl
    simp [hminus, hdigit] at hc
  have hspace : JsonTree.isSpace c = false := by
    simp [JsonTree.isSpace, hne ' ' (by decide) (by decide), hne '\n' (by decide) (by decide),
      hne '\t' (by decide) (by decide), hne '\r' (by decide) (by decide)]
  refine ⟨⟨c, s, htext, hspace, hne ']' (by decide) (by decide)⟩, fun rest fuel hrest hfuel => ?_⟩
  have happend := NumberText.read?_append hread hrest.stops
  rw [htext] at hfuel happend ⊢
  cases fuel with
  | zero => simp at hfuel
  | succ fuel =>
    rw [List.cons_append] at happend ⊢
    unfold JsonTree.read?
    rw [skipSpace_cons hspace]
    -- A text that starts like a number is left to the last case.
    split
    case h_7 =>
      rw [happend, htree]
      rfl
    all_goals
      exact absurd (List.cons.inj ‹c :: (s ++ rest) = _›).1 (hne _ (by decide) (by decide))

theorem int (n : Int) : ReadsBack (.int n) := by
  have htext : compactOnto [] (.int n) = (toString n).toList := by simp [compactOnto, scalarText]
  refine of_number (t := NumberText.ofInt n) ?_ (by simp [tree, NumberText.ofInt])
  rw [htext, NumberText.read?_toString]

theorem float {bits : UInt64} {t : NumberText}
    (h : NumberText.read? (NumberFormat.json.text bits) = some (t, [])) :
    ReadsBack (.float bits) := by
  have htext : compactOnto [] (.float bits) = NumberFormat.json.text bits := by
    simp [compactOnto, scalarText]
  exact of_number (htext ▸ h) (by simp [tree, h])

theorem readItems {items : List Json} (hitems : ∀ item ∈ items, ReadsBack item) (hne : items ≠ [])
    {rest : List Char} {fuel : Nat} (hfuel : 2 * (compactItems [] items).length < fuel) :
    JsonTree.readItems? fuel (compactItems [] items ++ ']' :: rest) =
      some (items.map tree, rest) := by
  induction items generalizing fuel with
  | nil => exact absurd rfl hne
  | cons item items ih =>
    have hitem := hitems item List.mem_cons_self
    cases fuel with
    | zero => simp at hfuel
    | succ fuel =>
      cases items with
      | nil =>
        rw [compactItems] at hfuel ⊢
        have hread := hitem.reads (']' :: rest) fuel (by simp [Follows]) (by omega)
        rw [JsonTree.readItems?, hread]
        dsimp only
        rw [skipSpace_cons (by decide)]
        simp
      | cons next items =>
        rw [compactItems_cons_cons, compactOnto_append] at hfuel ⊢
        simp only [List.length_append, List.length_cons] at hfuel
        have hread := hitem.reads (',' :: (compactItems [] (next :: items) ++ ']' :: rest)) fuel
          (by simp [Follows]) (by omega)
        rw [List.append_assoc, List.cons_append, JsonTree.readItems?, hread]
        dsimp only
        rw [skipSpace_cons (by decide)]
        have hlength : 2 * (compactItems [] (next :: items)).length < fuel := by omega
        have htail := ih (fun item h => hitems item (List.mem_cons_of_mem _ h)) (by simp) hlength
        simp [htail]

section Member

variable {value : Json} (hvalue : ReadsBack value) (name : String) {fuel : Nat}
  (hfuel : 2 * (compactOnto [] value).length ≤ fuel) (rest : List Char)

include hvalue hfuel

theorem readMembers?_last :
    JsonTree.readMembers? (fuel + 1)
    (quote name ++ ':' :: (compactOnto [] value ++ '\x7d' :: rest)) =
      some ([(some name, value.tree)], rest) := by
  have hread := hvalue.reads ('\x7d' :: rest) fuel (by simp [Follows]) hfuel
  rw [quote_append, JsonTree.readMembers?, skipSpace_cons (by decide)]
  simp [JsonTree.readString?_quoted, skipSpace_cons, hread, JsonTree.isSpace]

theorem readMembers?_next :
    JsonTree.readMembers? (fuel + 1) (quote name ++ ':' :: (compactOnto [] value ++ ',' :: rest)) =
      (JsonTree.readMembers? fuel rest).map fun (members, r) =>
        ((some name, value.tree) :: members, r) := by
  have hread := hvalue.reads (',' :: rest) fuel (by simp [Follows]) hfuel
  rw [quote_append, JsonTree.readMembers?, skipSpace_cons (by decide)]
  simp [JsonTree.readString?_quoted, skipSpace_cons, hread, JsonTree.isSpace]

end Member

theorem readMembers {members : List (String × Json)} (hmembers : ∀ m ∈ members, ReadsBack m.2)
    (hne : members ≠ []) {rest : List Char} {fuel : Nat}
    (hfuel : 2 * (compactMembers [] members).length < fuel) :
    JsonTree.readMembers? fuel (compactMembers [] members ++ '\x7d' :: rest) =
      some (members.map fun m => (some m.1, m.2.tree), rest) := by
  induction members generalizing fuel with
  | nil => exact absurd rfl hne
  | cons m members ih =>
    obtain ⟨name, value⟩ := m
    have hvalue : ReadsBack value := hmembers (name, value) List.mem_cons_self
    cases fuel with
    | zero => simp at hfuel
    | succ fuel =>
      cases members with
      | nil =>
        rw [compactMembers] at hfuel ⊢
        simp only [List.length_append, List.length_cons] at hfuel
        rw [List.append_assoc, List.cons_append, readMembers?_last hvalue name (by omega)]
        rfl
      | cons next members =>
        rw [compactMembers_cons_cons, compactOnto_append] at hfuel ⊢
        simp only [List.length_append, List.length_cons] at hfuel
        have hlength : 2 * (compactMembers [] (next :: members)).length < fuel := by omega
        have htail := ih (fun m h => hmembers m (List.mem_cons_of_mem _ h)) (by simp) hlength
        rw [List.append_assoc, List.cons_append, List.append_assoc, List.cons_append,
          readMembers?_next hvalue name (by omega), htail]
        rfl

theorem opens_items {item : Json} (hitem : ReadsBack item) (items : List Json) :
    ∃ c s, compactItems [] (item :: items) = c :: s ∧ JsonTree.isSpace c = false ∧ c ≠ ']' := by
  obtain ⟨c, s, htext, hc⟩ := hitem.opens
  cases items with
  | nil => exact ⟨c, s, by rw [compactItems, htext], hc⟩
  | cons next items =>
    exact ⟨c, _, by rw [compactItems_cons_cons, compactOnto_append, htext, List.cons_append], hc⟩

theorem opens_members (m : String × Json) (members : List (String × Json)) :
    ∃ s, compactMembers [] (m :: members) = '"' :: s := by
  obtain ⟨name, value⟩ := m
  cases members with
  | nil => exact ⟨_, by rw [compactMembers, quote_append]⟩
  | cons next members => exact ⟨_, by rw [compactMembers_cons_cons, quote_append]⟩

theorem arr {items : List Json} (hitems : ∀ item ∈ items, ReadsBack item) :
    ReadsBack (.arr items) := by
  have htext : compactOnto [] (.arr items) = '[' :: (compactItems [] items ++ [']']) := by
    rw [compactOnto, compactItems_append]
  refine ⟨⟨'[', _, htext, by decide⟩, fun rest fuel _ hfuel => ?_⟩
  rw [htext] at hfuel ⊢
  simp only [List.length_cons, List.length_append, List.length_nil] at hfuel
  cases fuel with
  | zero => omega
  | succ fuel =>
    rw [List.cons_append, List.append_assoc, List.singleton_append, JsonTree.read?,
      skipSpace_cons (by decide)]
    cases items with
    | nil => simp [compactItems, tree_arr, skipSpace_cons, JsonTree.isSpace]
    | cons item items =>
      have hread : JsonTree.readItems? fuel (compactItems [] (item :: items) ++ ']' :: rest) =
          some ((item :: items).map tree, rest) := readItems hitems (by simp) (by omega)
      obtain ⟨c, s, hopen, hspace, hclose⟩ := opens_items (hitems item List.mem_cons_self) items
      rw [hopen, List.cons_append] at hread ⊢
      simp [skipSpace_cons hspace, hclose, hread, tree_arr]

theorem obj {members : List (String × Json)} (hmembers : ∀ m ∈ members, ReadsBack m.2) :
    ReadsBack (.obj members) := by
  have htext : compactOnto [] (.obj members) =
      '\x7b' :: (compactMembers [] members ++ ['\x7d']) := by
    rw [compactOnto, compactMembers_append]
  refine ⟨⟨'\x7b', _, htext, by decide⟩, fun rest fuel _ hfuel => ?_⟩
  rw [htext] at hfuel ⊢
  simp only [List.length_cons, List.length_append, List.length_nil] at hfuel
  cases fuel with
  | zero => omega
  | succ fuel =>
    rw [List.cons_append, List.append_assoc, List.singleton_append, JsonTree.read?,
      skipSpace_cons (by decide)]
    cases members with
    | nil => simp [compactMembers, tree_obj, skipSpace_cons, JsonTree.isSpace]
    | cons m members =>
      have hread : JsonTree.readMembers? fuel (compactMembers [] (m :: members) ++ '\x7d' :: rest) =
          some ((m :: members).map fun m => (some m.1, m.2.tree), rest) :=
        readMembers hmembers (by simp) (by omega)
      obtain ⟨s, hopen⟩ := opens_members m members
      rw [hopen, List.cons_append] at hread ⊢
      simp [skipSpace_cons, JsonTree.isSpace, hread, tree_obj]

/-- A document is read back whole. -/
theorem ofText? {j : Json} (h : ReadsBack j) : JsonTree.ofText? j.compact.toList = some j.tree := by
  have hread := h.reads [] (2 * (compactOnto [] j).length + 2) (by simp [Follows]) (by omega)
  rw [List.append_nil] at hread
  simp [JsonTree.ofText?, compact, hread, JsonTree.skipSpace]

end ReadsBack

end Json

end HttpCapture
