import HttpCapture.Http.CacheControl
import HttpCapture.Proofs.TraceLines
import Mathlib.Logic.Relation

/-! Lists that are spread over several fields. A message may carry the members of a list in one
field or in many, as long as no quoted string is cut. Splitting goes on behind a comma as it begins
at the start of a value, and what is put behind the comma is trimmed, so that the members are the
same and come in the same order. -/

namespace HttpCapture

theorem map_trim_modifyHead {b : Char} (hb : isBlank b = true) (parts : List (List Char)) :
    (parts.modifyHead (b :: ·)).map trim = parts.map trim := by
  cases parts with
  | nil => rfl
  | cons part rest => simp [trim, trimBy, hb]

theorem listMembers_append (s t : List Char) :
    listMembers (s ++ ',' :: ' ' :: t) = listMembers s ++ listMembers t := by
  have hsplit : splitAll ',' (s ++ ',' :: ' ' :: t) =
      splitAll ',' s ++ (splitAll ',' t).modifyHead (' ' :: ·) := by
    simp only [splitAll_eq_splitOn]
    rw [List.splitOn_append_cons_self, List.splitOn_cons_eq_if_modifyHead, if_neg (by decide)]
  rw [listMembers, hsplit, List.map_append, map_trim_modifyHead (by decide), List.filter_append]
  rfl

/-- A member begins with what has been read of it. -/
theorem splitUnquotedFrom_append_singleton (q : QuoteState) (part : List Char) (b : Char)
    (s : List Char) :
    splitUnquotedFrom q (part ++ [b]) s = (splitUnquotedFrom q part s).modifyHead (b :: ·) := by
  induction s generalizing q part with
  | nil => simp [splitUnquotedFrom]
  | cons c s ih =>
    unfold splitUnquotedFrom
    split
    · simp
    · exact ih (q.next c) (c :: part)

/-- Outside quoted strings a comma ends what was split before. -/
theorem splitUnquotedFrom_append {q : QuoteState} {s : List Char} (h : q.after s = .outside)
    (part t : List Char) :
    splitUnquotedFrom q part (s ++ ',' :: t) = splitUnquotedFrom q part s ++ splitUnquoted t := by
  induction s generalizing q part with
  | nil =>
    obtain rfl : q = .outside := h
    simp [splitUnquotedFrom, splitUnquoted]
  | cons c s ih =>
    rw [List.cons_append, splitUnquotedFrom, splitUnquotedFrom]
    split
    · next hcomma =>
      obtain ⟨rfl, rfl⟩ := hcomma
      rw [List.cons_append, ih (q := .outside) h]
    · exact ih h _

theorem directives_append {s : List Char} (h : QuoteState.outside.after s = .outside)
    (t : List Char) : directives (s ++ ',' :: ' ' :: t) = directives s ++ directives t := by
  have hblank : splitUnquoted (' ' :: t) = (splitUnquoted t).modifyHead (' ' :: ·) :=
    splitUnquotedFrom_append_singleton .outside [] ' ' t
  rw [directives, splitUnquoted, splitUnquotedFrom_append h, hblank, List.map_append,
    map_trim_modifyHead (by decide), List.filter_append, List.map_append]
  rfl

def listSeparator : Bytes := [44, 32]

theorem valueText?_eq_some {v : Bytes} {s : String} (h : valueText? v = some s) :
    v.all isTextByte = true ∧ s.toList = latinText v := by
  unfold valueText? at h
  split at h
  · next hall =>
    obtain rfl := Option.some.inj h
    exact ⟨hall, by simp⟩
  · cases h

theorem valueText?_join {v w : Bytes} {s t : String} (hv : valueText? v = some s)
    (hw : valueText? w = some t) :
    ∃ u, valueText? (v ++ listSeparator ++ w) = some u ∧
      u.toList = s.toList ++ ',' :: ' ' :: t.toList := by
  obtain ⟨hvall, hs⟩ := valueText?_eq_some hv
  obtain ⟨hwall, ht⟩ := valueText?_eq_some hw
  have hall : (v ++ listSeparator ++ w).all isTextByte = true := by
    rw [List.all_append, List.all_append, hvall, hwall]
    decide
  refine ⟨_, if_pos hall, ?_⟩
  rw [hs, ht]
  simp [latinText, listSeparator]

namespace Fields

/-- Two consecutive values of one name are written as one, and the values of other names stay as
they are. -/
structure Joined (name : String) (v w : Bytes) (fields fields' : Fields) : Prop where
  readable : (valueText? v).isSome = true ∧ (valueText? w).isSome = true
  values : ∃ before after, fields.values name = before ++ v :: w :: after ∧
    fields'.values name = before ++ (v ++ listSeparator ++ w) :: after
  others : ∀ other, other ≠ name → fields'.values other = fields.values other

variable {name other : String} {v w : Bytes} {fields fields' : Fields}

theorem Joined.texts (h : Joined name v w fields fields') : ∃ before after s t u,
    fields.texts name = before ++ s :: t :: after ∧ fields'.texts name = before ++ u :: after ∧
      s.toList = latinText v ∧ u.toList = s.toList ++ ',' :: ' ' :: t.toList := by
  obtain ⟨s, hs⟩ := Option.isSome_iff_exists.mp h.readable.1
  obtain ⟨t, ht⟩ := Option.isSome_iff_exists.mp h.readable.2
  obtain ⟨u, hu, htext⟩ := valueText?_join hs ht
  obtain ⟨before, after, hfields, hfields'⟩ := h.values
  refine ⟨before.filterMap valueText?, after.filterMap valueText?, s, t, u, ?_, ?_,
    (valueText?_eq_some hs).2, htext⟩
  · rw [Fields.texts, hfields, List.filterMap_append, List.filterMap_cons_some hs,
      List.filterMap_cons_some ht]
  · rw [Fields.texts, hfields', List.filterMap_append, List.filterMap_cons_some hu]

theorem Joined.texts_other (h : Joined name v w fields fields') (hne : other ≠ name) :
    fields'.texts other = fields.texts other := by
  rw [Fields.texts, Fields.texts, h.others other hne]

theorem Joined.hasToken_other (h : Joined name v w fields fields') (hne : other ≠ name)
    (token : String) : fields'.hasToken other token = fields.hasToken other token := by
  rw [hasToken, hasToken, h.texts_other hne]

/-- Where quotes do not count, any two values may be joined. -/
theorem Joined.hasToken (h : Joined name v w fields fields') (token : String) :
    fields'.hasToken name token = fields.hasToken name token := by
  obtain ⟨before, after, s, t, u, hfields, hfields', -, htext⟩ := h.texts
  rw [Fields.hasToken, Fields.hasToken, hfields, hfields']
  simp only [List.any_append, List.any_cons, htext, listMembers_append, Bool.or_assoc]

/-- Two fields of one name with fields of other names between them. -/
theorem joined_append (before between after : Fields) (hv : (valueText? v).isSome = true)
    (hw : (valueText? w).isSome = true) (hbetween : ∀ f ∈ between, f.name ≠ name) :
    Joined name v w (before ++ ⟨name, v⟩ :: (between ++ ⟨name, w⟩ :: after))
      (before ++ ⟨name, v ++ listSeparator ++ w⟩ :: (between ++ after)) where
  readable := ⟨hv, hw⟩
  values := by
    have hnone : between.filter (·.name == name) = [] := by simpa using hbetween
    exact ⟨before.values name, after.values name, by simp [Fields.values, hnone],
      by simp [Fields.values, hnone]⟩
  others other hne := by simp [Fields.values, Ne.symm hne]

def directives (fields : Fields) : List Directive :=
  (fields.texts "cache-control").flatMap fun s => HttpCapture.directives s.toList

theorem Joined.directives (h : Joined "cache-control" v w fields fields')
    (hquote : QuoteState.outside.after (latinText v) = .outside) :
    fields'.directives = fields.directives := by
  obtain ⟨before, after, s, t, u, hfields, hfields', hs, htext⟩ := h.texts
  rw [← hs] at hquote
  rw [Fields.directives, Fields.directives, hfields, hfields']
  simp only [List.flatMap_append, List.flatMap_cons, htext, directives_append hquote,
    List.append_assoc]

/-- The same Cache-Control and Pragma lists, with two values of one of them written as one. A
Cache-Control value is not joined to one whose last quoted string is still open. -/
inductive Respread (fields fields' : Fields) : Prop
  | cacheControl {v w : Bytes} (h : Joined "cache-control" v w fields fields')
      (hquote : QuoteState.outside.after (latinText v) = .outside)
  | pragma {v w : Bytes} (h : Joined "pragma" v w fields fields')

theorem Respread.ofFields (h : Respread fields fields') :
    CacheDirectives.ofFields fields' = CacheDirectives.ofFields fields := by
  have hparts : fields'.directives = fields.directives ∧
      fields'.hasToken "pragma" "no-cache" = fields.hasToken "pragma" "no-cache" := by
    cases h with
    | cacheControl h hquote => exact ⟨h.directives hquote, h.hasToken_other (by decide) _⟩
    | pragma h =>
      exact ⟨by rw [Fields.directives, Fields.directives, h.texts_other (by decide)], h.hasToken _⟩
  simp only [CacheDirectives.ofFields]
  simp only [Fields.directives] at hparts
  rw [hparts.1, hparts.2]

end Fields

/-- It does not matter over how many fields the members are spread, however often values are joined
or taken apart. -/
theorem ofFields_eq_of_respread {fields fields' : Fields}
    (h : Relation.EqvGen Fields.Respread fields fields') :
    CacheDirectives.ofFields fields = CacheDirectives.ofFields fields' := by
  induction h with
  | rel _ _ h => exact h.ofFields.symm
  | refl => rfl
  | symm _ _ _ ih => exact ih.symm
  | trans _ _ _ _ _ ih ih' => exact ih.trans ih'

/-- Three Cache-Control fields, the first with a quoted comma, and two Pragma fields in between. -/
theorem ofFields_eq_of_respread_of_quoted :
    let field := fun name value : String => Field.mk name (utf8Bytes value)
    let apart := [field "cache-control" "private=\"a,b\"", field "pragma" "trace",
      field "cache-control" "max-age=60", field "pragma" "no-cache",
      field "cache-control" "max-age=10, no-store"]
    let joined := [field "cache-control" "private=\"a,b\", max-age=60",
      field "pragma" "trace, no-cache", field "cache-control" "max-age=10, no-store"]
    Relation.EqvGen Fields.Respread apart joined ∧
      CacheDirectives.ofFields apart = ⟨true, true, some 60⟩ ∧
      CacheDirectives.ofFields joined = ⟨true, true, some 60⟩ := by
  intro field apart joined
  let halfway := [field "cache-control" "private=\"a,b\", max-age=60", field "pragma" "trace",
    field "pragma" "no-cache", field "cache-control" "max-age=10, no-store"]
  have hcacheControl : Fields.Respread apart halfway :=
    .cacheControl (Fields.joined_append [] [field "pragma" "trace"] _ (by decide +kernel)
      (by decide +kernel) (by decide)) (by decide +kernel)
  have hpragma : Fields.Respread halfway joined :=
    .pragma (Fields.joined_append (halfway.take 1) [] _ (by decide +kernel)
      (by decide +kernel) (by decide))
  have hspread : Relation.EqvGen Fields.Respread apart joined :=
    .trans _ _ _ (.rel _ _ hcacheControl) (.rel _ _ hpragma)
  have happart : CacheDirectives.ofFields apart = ⟨true, true, some 60⟩ := by decide +kernel
  exact ⟨hspread, happart, (ofFields_eq_of_respread hspread).symm.trans happart⟩

end HttpCapture
