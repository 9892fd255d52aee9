import HttpCapture.Cache.Store
import HttpCapture.Proofs.Tables

/-! Which entries of the cache can be found. An entry is listed under its own identity, and as long
as some entry is listed, one is found by its identity without the entity tag. -/

namespace HttpCapture

namespace CacheStore

def identities (s : CacheStore) : List ObjectIdentity := s.entries.map (·.identity)

/-- Listed places have the listed identity, and identities are found without their entity tags
whenever they are listed. -/
structure Consistent (s : CacheStore) : Prop where
  listed : ∀ {i place}, s.byIdentity.get? i = some place → s.identities[place]? = some i
  found : ∀ {l place}, s.byLoose.get? l = some place →
    ∃ i, i.loose = l ∧ s.byIdentity.get? i = some place
  covered : ∀ {i place}, s.byIdentity.get? i = some place →
    ∃ other, s.byLoose.get? i.loose = some other

theorem consistent_empty : Consistent .empty where
  listed h := absurd h (by simp [empty, Table.get?])
  found h := absurd h (by simp [empty, Table.get?])
  covered h := absurd h (by simp [empty, Table.get?])

theorem Consistent.congr {s t : CacheStore} (h : s.Consistent) (hi : t.byIdentity = s.byIdentity)
    (hl : t.byLoose = s.byLoose) (he : t.identities = s.identities) : t.Consistent := by
  constructor
  · intro i place hp
    rw [he]
    exact h.listed (hi ▸ hp)
  · intro l place hp
    rw [hi]
    exact h.found (hl ▸ hp)
  · intro i place hp
    rw [hl]
    exact h.covered (hi ▸ hp)

theorem Consistent.lt_length {s : CacheStore} (h : s.Consistent) {i : ObjectIdentity} {place : Nat}
    (hp : s.byIdentity.get? i = some place) : place < s.identities.length :=
  (List.getElem?_eq_some_iff.mp (h.listed hp)).1

theorem length_identities (s : CacheStore) : s.identities.length = s.entries.length :=
  List.length_map _

theorem Consistent.lt_length_entries {s : CacheStore} (h : s.Consistent) {i : ObjectIdentity}
    {place : Nat} (hp : s.byIdentity.get? i = some place) : place < s.entries.length :=
  s.length_identities ▸ h.lt_length hp

theorem Consistent.exists_entry {s : CacheStore} (h : s.Consistent) {i : ObjectIdentity}
    {place : Nat} (hp : s.byIdentity.get? i = some place) :
    ∃ entry, s.entries[place]? = some entry ∧ entry.identity = i := by
  have hids := h.listed hp
  rwa [identities, List.getElem?_map, Option.map_eq_some_iff] at hids

theorem Consistent.eq_of_listed {s : CacheStore} (h : s.Consistent) {i j : ObjectIdentity}
    {place : Nat} (hi : s.byIdentity.get? i = some place) (hj : s.byIdentity.get? j = some place) :
    i = j :=
  Option.some.inj ((h.listed hi).symm.trans (h.listed hj))

theorem map_modifyEntry {α : Type} (s : CacheStore) (place : Nat) {f : CacheEntry → CacheEntry}
    {g : CacheEntry → α} (hf : ∀ e, g (f e) = g e) :
    (s.modifyEntry place f).entries.map g = s.entries.map g := by
  refine List.ext_getElem? fun n => ?_
  rw [modifyEntry, List.getElem?_map, List.getElem?_map, List.getElem?_modify]
  cases s.entries[n]? with
  | none => rfl
  | some e =>
    by_cases hn : place = n
    · simp [hn, hf]
    · simp [hn]

theorem identities_modifyEntry (s : CacheStore) (place : Nat) {f : CacheEntry → CacheEntry}
    (hf : ∀ e, (f e).identity = e.identity) : (s.modifyEntry place f).identities = s.identities :=
  s.map_modifyEntry place hf

theorem identities_insert (s : CacheStore) (e : CacheEntry) :
    (s.insert e).identities = s.identities ++ [e.identity] := by
  simp [identities, insert]

theorem identities_replace (s : CacheStore) (place : Nat) (old new : ObjectIdentity)
    (request : ExchangeRef) (r : Reply) :
    (s.replace place old new request r).identities = s.identities.set place new := by
  unfold identities replace
  refine List.ext_getElem? fun n => ?_
  rw [List.getElem?_map, List.getElem?_set, List.getElem?_modify]
  by_cases hn : place = n
  · subst hn
    by_cases hlt : place < s.entries.length
    · simp [hlt]
    · simp [hlt]
  · simp [hn, List.getElem?_map]

theorem get?_evict_byIdentity (s : CacheStore) (host path : String) (i : ObjectIdentity) :
    (s.evict host path).byIdentity.get? i =
      if i.isAt host path then none else s.byIdentity.get? i := by
  have h := s.byIdentity.get?_filter (fun k => !k.isAt host path) i
  cases hat : i.isAt host path <;> simpa [evict, hat] using h

theorem get?_evict_byLoose (s : CacheStore) (host path : String) (l : LooseIdentity) :
    (s.evict host path).byLoose.get? l =
      if l.host = host ∧ l.path = path then none else s.byLoose.get? l := by
  have h := s.byLoose.get?_filter (fun k => !decide (k.host = host ∧ k.path = path)) l
  by_cases hat : l.host = host ∧ l.path = path
  · rw [if_pos hat]
    simpa [evict, hat] using h
  · rw [if_neg hat]
    simpa [evict, hat] using h

theorem isAt_loose (i : ObjectIdentity) (host path : String) :
    (i.loose.host = host ∧ i.loose.path = path) ↔ i.isAt host path = true := by
  simp [ObjectIdentity.loose, ObjectIdentity.isAt]

theorem Consistent.evict {s : CacheStore} (h : s.Consistent) (host path : String) :
    (s.evict host path).Consistent := by
  constructor
  · intro i place hp
    rw [get?_evict_byIdentity] at hp
    split at hp
    · exact absurd hp (by simp)
    · exact h.listed hp
  · intro l place hp
    rw [get?_evict_byLoose] at hp
    split at hp
    · exact absurd hp (by simp)
    · next hat =>
      obtain ⟨i, rfl, hi⟩ := h.found hp
      rw [isAt_loose] at hat
      exact ⟨i, rfl, by rw [get?_evict_byIdentity, if_neg hat, hi]⟩
  · intro i place hp
    rw [get?_evict_byIdentity] at hp
    split at hp
    · exact absurd hp (by simp)
    · next hat =>
      obtain ⟨other, ho⟩ := h.covered hp
      exact ⟨other, by rw [get?_evict_byLoose, if_neg (by rwa [isAt_loose]), ho]⟩

theorem Consistent.insert {s : CacheStore} (h : s.Consistent) {e : CacheEntry}
    (hnone : s.byIdentity.get? e.identity = none) : (s.insert e).Consistent := by
  have hlength : s.entries.length = s.identities.length := s.length_identities.symm
  constructor
  · intro i place hp
    rw [CacheStore.insert, Table.get?_put] at hp
    rw [identities_insert]
    split at hp
    · next hi =>
      obtain rfl := Option.some.inj hp
      rw [hlength, List.getElem?_concat_length, hi]
    · rw [List.getElem?_append_left (h.lt_length hp), h.listed hp]
  · intro l place hp
    rw [CacheStore.insert, Table.get?_put] at hp
    rw [CacheStore.insert]
    split at hp
    · next hl => exact ⟨e.identity, hl.symm, by rw [Table.get?_put, if_pos rfl, hp]⟩
    · obtain ⟨i, hi, hlisted⟩ := h.found hp
      have hne : i ≠ e.identity := fun he => by
        rw [he, hnone] at hlisted
        exact absurd hlisted (by simp)
      exact ⟨i, hi, by rw [Table.get?_put, if_neg hne, hlisted]⟩
  · intro i place hp
    rw [CacheStore.insert, Table.get?_put] at hp
    rw [CacheStore.insert]
    simp only [Table.get?_put]
    split
    · exact ⟨_, rfl⟩
    · next hl =>
      rw [if_neg fun he => hl (by rw [he])] at hp
      exact h.covered hp

/-- A listed entry may take another identity that differs from its own in the entity tag alone. -/
theorem Consistent.replace {s : CacheStore} (h : s.Consistent) {place : Nat}
    {old new : ObjectIdentity} (hold : s.byIdentity.get? old = some place)
    (hloose : old.loose = new.loose) (request : ExchangeRef) (r : Reply) :
    (s.replace place old new request r).Consistent := by
  have hlisted : ∀ i, (s.replace place old new request r).byIdentity.get? i =
      if i = new then some place else if i = old then none else s.byIdentity.get? i := by
    intro i
    rw [CacheStore.replace, Table.get?_put, Table.get?_erase]
  have hfound : ∀ l, (s.replace place old new request r).byLoose.get? l =
      if l = new.loose then some place else s.byLoose.get? l := by
    intro l
    rw [CacheStore.replace, Table.get?_put, Table.get?_erase, hloose]
    split <;> rfl
  constructor
  · intro i p hp
    rw [hlisted] at hp
    rw [identities_replace]
    split at hp
    · next hi =>
      obtain rfl := Option.some.inj hp
      rw [List.getElem?_set_self (h.lt_length hold), hi]
    · split at hp
      · exact absurd hp (by simp)
      · next hne =>
        have hplace : place ≠ p := fun he => hne (h.eq_of_listed (he ▸ hp) hold)
        rw [List.getElem?_set_ne hplace, h.listed hp]
  · intro l p hp
    rw [hfound] at hp
    split at hp
    · next hl => exact ⟨new, hl.symm, by rw [hlisted, if_pos rfl, hp]⟩
    · next hl =>
      obtain ⟨i, rfl, hi⟩ := h.found hp
      have hne : i ≠ new := fun he => hl (by rw [he])
      have hne' : i ≠ old := fun he => hl (by rw [he, hloose])
      exact ⟨i, rfl, by rw [hlisted, if_neg hne, if_neg hne', hi]⟩
  · intro i p hp
    rw [hlisted] at hp
    rw [hfound]
    split
    · exact ⟨_, rfl⟩
    · next hl =>
      rw [if_neg fun he => hl (by rw [he]), if_neg fun he => hl (by rw [he, hloose])] at hp
      exact h.covered hp

theorem Consistent.lookup_eq_none_iff {s : CacheStore} (h : s.Consistent) (i : ObjectIdentity) :
    s.lookup i = none ↔ s.byIdentity.get? i = none ∧
      (i.validator = none → ∀ j, j.loose = i.loose → s.byIdentity.get? j = none) := by
  unfold lookup
  cases hi : s.byIdentity.get? i with
  | some place => simp
  | none =>
    by_cases hv : i.validator = none
    · have hloose : (none <|> if i.validator.isNone then s.byLoose.get? i.loose else none) =
          s.byLoose.get? i.loose := by
        simp [hv]
      rw [hloose]
      simp only [hv, true_and, forall_const]
      constructor
      · intro hnone j hj
        cases hlisted : s.byIdentity.get? j with
        | none => rfl
        | some place =>
          obtain ⟨other, ho⟩ := h.covered hlisted
          rw [hj, hnone] at ho
          exact absurd ho (by simp)
      · intro hnone
        cases hl : s.byLoose.get? i.loose with
        | none => rfl
        | some place =>
          obtain ⟨j, hj, hlisted⟩ := h.found hl
          rw [hnone j hj] at hlisted
          exact absurd hlisted (by simp)
    · simp [hv]

/-- The entry found for an identity. -/
structure Matches (s : CacheStore) (i : ObjectIdentity) (place : Nat) (entry : CacheEntry) :
    Prop where
  present : s.entries[place]? = some entry
  listed : s.byIdentity.get? entry.identity = some place
  loose : entry.identity.loose = i.loose
  /-- It has that very identity, or there is none that has and the entity tag does not matter. -/
  tag : entry.identity = i ∨ i.validator = none ∧ s.byIdentity.get? i = none

theorem Consistent.matches_of_lookup {s : CacheStore} (h : s.Consistent) {i : ObjectIdentity}
    {place : Nat} (hl : s.lookup i = some place) : ∃ entry, s.Matches i place entry := by
  unfold lookup at hl
  cases hi : s.byIdentity.get? i with
  | some p =>
    obtain rfl : p = place := by simpa [hi] using hl
    obtain ⟨entry, he, hid⟩ := h.exists_entry hi
    exact ⟨entry, he, by rw [hid, hi], by rw [hid], .inl hid⟩
  | none =>
    by_cases hv : i.validator = none
    · have hfound : s.byLoose.get? i.loose = some place := by simpa [hi, hv] using hl
      obtain ⟨j, hj, hlisted⟩ := h.found hfound
      obtain ⟨entry, he, hid⟩ := h.exists_entry hlisted
      exact ⟨entry, he, by rw [hid, hlisted], by rw [hid, hj], .inr ⟨hv, hi⟩⟩
    · exact absurd hl (by simp [hi, hv])

/-- Of all entries only the one at a place is listed anew, under a new identity. -/
structure Relists (s t : CacheStore) (place : Nat) (new : ObjectIdentity) : Prop where
  listed : ∀ i p, t.byIdentity.get? i = some p ↔
    if p = place then i = new else s.byIdentity.get? i = some p
  identities : ∀ p, t.identities[p]? = if p = place then some new else s.identities[p]?

theorem Consistent.relists_insert {s : CacheStore} (h : s.Consistent) {e : CacheEntry}
    (hnone : s.byIdentity.get? e.identity = none) :
    s.Relists (s.insert e) s.entries.length e.identity := by
  have hlength : s.entries.length = s.identities.length := s.length_identities.symm
  constructor
  · intro i p
    rw [CacheStore.insert, Table.get?_put]
    by_cases hp : p = s.entries.length
    · rw [if_pos hp]
      split
      · next hi => simp [hi, hp]
      · next hi =>
        simp only [hi, iff_false]
        intro hg
        have := h.lt_length hg
        omega
    · have hne : s.entries.length ≠ p := fun he => hp he.symm
      rw [if_neg hp]
      split
      · next hi => simp [hi, hnone, hne]
      · exact Iff.rfl
  · intro p
    rw [identities_insert, hlength]
    by_cases hp : p = s.identities.length
    · rw [if_pos hp, hp, List.getElem?_concat_length]
    · rw [if_neg hp, List.getElem?_append]
      split
      · rfl
      · rw [List.getElem?_eq_none (by simp; omega), List.getElem?_eq_none (by omega)]

theorem Consistent.relists_replace {s : CacheStore} (h : s.Consistent) {place : Nat}
    {old new : ObjectIdentity} (hold : s.byIdentity.get? old = some place)
    (hnew : old = new ∨ s.byIdentity.get? new = none) (request : ExchangeRef) (r : Reply) :
    s.Relists (s.replace place old new request r) place new := by
  constructor
  · intro j p
    rw [CacheStore.replace, Table.get?_put, Table.get?_erase]
    by_cases hp : p = place
    · rw [if_pos hp, hp]
      split
      · next hj => simpa using hj
      · next hj =>
        simp only [hj, iff_false]
        split
        · simp
        · next hne => exact fun hg => hne (h.eq_of_listed hg hold)
    · have hne : some place ≠ some p := fun he => hp (Option.some.inj he).symm
      rw [if_neg hp]
      split
      · next hj =>
        -- The new identity was that of this very entry, or of none.
        rcases hnew with heq | hnone
        · rw [hj, ← heq, hold]
        · rw [hj, hnone]
          exact ⟨fun he => absurd he hne, fun he => absurd he (by simp)⟩
      · split
        · next hj =>
          rw [hj, hold]
          exact ⟨fun he => absurd he (by simp), fun he => absurd he hne⟩
        · exact Iff.rfl
  · intro p
    have hlt := h.lt_length hold
    rw [identities_replace, List.getElem?_set]
    by_cases hp : p = place
    · rw [if_pos hp, if_pos hp.symm, if_pos hlt]
    · rw [if_neg hp, if_neg fun he => hp he.symm]

end CacheStore

end HttpCapture
