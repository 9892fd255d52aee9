import HttpCapture.Proofs.CacheContents

/-! What a cache holds under an identity, whatever places it has given to its entries. Two caches
agree at a path if they hold the same under every identity there. They still do when the same is
done to both there, and what is done to one of them elsewhere does not matter. -/

namespace HttpCapture

/-- What a cache holds under an identity. -/
structure Holding where
  stored : Option Reply
  ranges : Option RangeSet
  pieces : Option (List Reply)

def Holding.merge (h : Holding) (range : Option ByteRange) (r : Reply) : Holding where
  stored := h.stored
  ranges := range.elim h.ranges fun b => some ((h.ranges.getD []).insert b)
  pieces :=
    if (range.any fun b => (h.ranges.getD []).covers b) = false then some (h.pieces.getD [] ++ [r])
    else h.pieces

namespace ObjectIdentity

variable {host path : String} {i j : ObjectIdentity}

theorem ne_of_isAt (hi : i.isAt host path = true) (hj : j.isAt host path = false) : i ≠ j := by
  rintro rfl
  exact Bool.false_ne_true (hj.symm.trans hi)

theorem ne_loose_of_isAt {l : LooseIdentity} (hl : l.host = host ∧ l.path = path)
    (hj : j.isAt host path = false) : l ≠ j.loose := by
  rintro rfl
  exact Bool.false_ne_true (hj.symm.trans ((CacheStore.isAt_loose j host path).mp hl))

end ObjectIdentity

namespace CacheStore

def holding (s : CacheStore) (i : ObjectIdentity) : Holding where
  stored := (s.byIdentity.get? i).bind (s.storedReplies[·]?)
  ranges := s.ranges.get? i
  pieces := s.pieces.get? i

/-- The identity under which an object is listed that may have any entity tag. -/
def usual (s : CacheStore) (l : LooseIdentity) : Option ObjectIdentity :=
  (s.byLoose.get? l).bind (s.identities[·]?)

/-- The identity of the entry that matches an identity. -/
def found (s : CacheStore) (i : ObjectIdentity) : Option ObjectIdentity :=
  if (s.holding i).stored.isSome then some i
  else if i.validator.isNone then s.usual i.loose
  else none

section Holdings

variable {s : CacheStore}

theorem stored_holding {i : ObjectIdentity} {place : Nat} {entry : CacheEntry}
    (hp : s.byIdentity.get? i = some place) (hentry : s.entries[place]? = some entry) :
    (s.holding i).stored = some entry.stored := by
  rw [holding, hp, Option.bind_some, storedReplies, List.getElem?_map, hentry, Option.map_some]

theorem Consistent.stored_isSome (hs : s.Consistent) (i : ObjectIdentity) :
    (s.holding i).stored.isSome = (s.byIdentity.get? i).isSome := by
  cases hp : s.byIdentity.get? i with
  | none => rw [holding, hp]; rfl
  | some place =>
    obtain ⟨entry, hentry, -⟩ := hs.exists_entry hp
    rw [stored_holding hp hentry]
    rfl

theorem Consistent.usual_of_found (hs : s.Consistent) {l : LooseIdentity} {place : Nat}
    (hl : s.byLoose.get? l = some place) :
    ∃ i, i.loose = l ∧ s.byIdentity.get? i = some place ∧ s.usual l = some i := by
  obtain ⟨i, hi, hp⟩ := hs.found hl
  exact ⟨i, hi, hp, by rw [usual, hl, Option.bind_some, hs.listed hp]⟩

theorem Consistent.lookup_eq (hs : s.Consistent) (i : ObjectIdentity) :
    s.lookup i = (s.found i).bind s.byIdentity.get? := by
  have hisSome := hs.stored_isSome i
  unfold lookup CacheStore.found
  cases hp : s.byIdentity.get? i with
  | some place => simp [hisSome, hp]
  | none =>
    by_cases hv : i.validator.isNone = true
    · cases hl : s.byLoose.get? i.loose with
      | none => simp [hisSome, hp, hv, usual, hl]
      | some place =>
        obtain ⟨j, -, hj, husual⟩ := hs.usual_of_found hl
        simp [hisSome, hp, hv, husual, hj]
    · simp [hisSome, hp, hv]

/-- What is found under an identity is the entry that matches it. -/
theorem Consistent.matches_of_found (hs : s.Consistent) {i j : ObjectIdentity}
    (h : s.found i = some j) : ∃ place entry, s.lookup i = some place ∧ s.Matches i place entry ∧
      entry.identity = j ∧ (s.holding j).stored = some entry.stored := by
  have hlisted : ∃ place, s.byIdentity.get? j = some place := by
    unfold CacheStore.found at h
    split at h
    · next hstored =>
      obtain rfl := Option.some.inj h
      rw [hs.stored_isSome] at hstored
      exact Option.isSome_iff_exists.mp hstored
    · split at h
      · obtain ⟨place, hl, -⟩ := Option.bind_eq_some_iff.mp h
        obtain ⟨i', -, hp, husual⟩ := hs.usual_of_found hl
        obtain rfl := Option.some.inj (husual.symm.trans h)
        exact ⟨place, hp⟩
      · cases h
  obtain ⟨place, hp⟩ := hlisted
  have hlook : s.lookup i = some place := by rw [hs.lookup_eq, h, Option.bind_some, hp]
  obtain ⟨entry, hentry, hj⟩ := hs.exists_entry hp
  obtain ⟨other, hmatch⟩ := hs.matches_of_lookup hlook
  obtain rfl := Option.some.inj (hentry.symm.trans hmatch.present)
  exact ⟨place, entry, hlook, hmatch, hj, stored_holding hp hentry⟩

theorem holding_congr (s t : CacheStore) (hlisted : t.byIdentity = s.byIdentity)
    (hstored : t.storedReplies = s.storedReplies) (hranges : t.ranges = s.ranges)
    (hpieces : t.pieces = s.pieces) (i : ObjectIdentity) : t.holding i = s.holding i := by
  rw [holding, holding, hlisted, hstored, hranges, hpieces]

theorem usual_congr (s t : CacheStore) (hloose : t.byLoose = s.byLoose)
    (hids : t.identities = s.identities) (l : LooseIdentity) : t.usual l = s.usual l := by
  rw [usual, usual, hloose, hids]

theorem Consistent.holding_insert (hs : s.Consistent) (e : CacheEntry) (i : ObjectIdentity) :
    (s.insert e).holding i =
      if i = e.identity then { s.holding i with stored := some e.stored } else s.holding i := by
  have hlisted := s.get?_byIdentity_insert i e
  by_cases hi : i = e.identity
  · rw [if_pos hi] at hlisted ⊢
    rw [holding, hlisted, Option.bind_some, getElem?_storedReplies_insert, if_pos rfl]
    rfl
  · rw [if_neg hi] at hlisted ⊢
    rw [holding, holding, hlisted]
    cases hp : s.byIdentity.get? i with
    | none => rfl
    | some place =>
      have hlt := hs.lt_length_entries hp
      rw [Option.bind_some, Option.bind_some, getElem?_storedReplies_insert, if_neg hlt.ne]
      rfl

theorem Consistent.usual_insert (hs : s.Consistent) (e : CacheEntry) (l : LooseIdentity) :
    (s.insert e).usual l = if l = e.identity.loose then some e.identity else s.usual l := by
  have hl : (s.insert e).byLoose.get? l =
      if l = e.identity.loose then some s.entries.length else s.byLoose.get? l :=
    Table.get?_put _ _ _ _
  rw [usual, hl, identities_insert]
  split
  · rw [← s.length_identities, Option.bind_some, List.getElem?_concat_length]
  · rw [usual]
    cases hp : s.byLoose.get? l with
    | none => rfl
    | some place =>
      obtain ⟨i, -, hlisted, -⟩ := hs.usual_of_found hp
      rw [Option.bind_some, Option.bind_some, List.getElem?_append_left (hs.lt_length hlisted)]

theorem Consistent.holding_replace (hs : s.Consistent) {place : Nat} {old new : ObjectIdentity}
    (hold : s.byIdentity.get? old = some place) (request : ExchangeRef) (r : Reply)
    (i : ObjectIdentity) :
    (s.replace place old new request r).holding i =
      if i = new then
        { stored := some r
          ranges := if i = old then none else (s.holding i).ranges
          pieces := if i = old then none else (s.holding i).pieces }
      else if i = old then ⟨none, none, none⟩
      else s.holding i := by
  have hreplaced := getElem?_storedReplies_replace (hs.lt_length_entries hold) old new request r
  rw [holding, get?_ranges_replace, get?_pieces_replace, get?_byIdentity_replace]
  by_cases hi : i = new
  · rw [if_pos hi, if_pos hi, Option.bind_some, hreplaced, if_pos rfl]
    rfl
  · rw [if_neg hi, if_neg hi]
    by_cases hiold : i = old
    · simp [hiold]
    · simp only [if_neg hiold, holding]
      cases hp : s.byIdentity.get? i with
      | none => rfl
      | some p =>
        have hne : p ≠ place := fun he => hiold (hs.eq_of_listed (he ▸ hp) hold)
        rw [Option.bind_some, Option.bind_some, hreplaced, if_neg hne]

theorem Consistent.usual_replace (hs : s.Consistent) {place : Nat} {old new : ObjectIdentity}
    (hold : s.byIdentity.get? old = some place) (hloose : old.loose = new.loose)
    (request : ExchangeRef) (r : Reply) (l : LooseIdentity) :
    (s.replace place old new request r).usual l =
      if l = new.loose then some new else s.usual l := by
  have hl : (s.replace place old new request r).byLoose.get? l =
      if l = new.loose then some place else s.byLoose.get? l := by
    rw [CacheStore.replace, Table.get?_put, Table.get?_erase, hloose]
    split <;> rfl
  rw [usual, hl, identities_replace]
  split
  · rw [Option.bind_some, List.getElem?_set_self (hs.lt_length hold)]
  · next hne =>
    rw [usual]
    cases hp : s.byLoose.get? l with
    | none => rfl
    | some p =>
      obtain ⟨i, rfl, hlisted, -⟩ := hs.usual_of_found hp
      have hplace : place ≠ p := by
        rintro rfl
        exact hne (by rw [hs.eq_of_listed hlisted hold, hloose])
      rw [Option.bind_some, Option.bind_some, List.getElem?_set_ne hplace]

theorem holding_evict (s : CacheStore) (host path : String) (i : ObjectIdentity) :
    (s.evict host path).holding i =
      if i.isAt host path then ⟨none, none, none⟩ else s.holding i := by
  rw [holding, get?_evict_byIdentity, get?_ranges_evict, get?_pieces_evict]
  split
  · rfl
  · rfl

theorem usual_evict (s : CacheStore) (host path : String) (l : LooseIdentity) :
    (s.evict host path).usual l =
      if l.host = host ∧ l.path = path then none else s.usual l := by
  rw [usual, get?_evict_byLoose]
  split
  · rfl
  · rfl

theorem holding_merge (s : CacheStore) (i j : ObjectIdentity) (range : Option ByteRange)
    (r : Reply) : (s.merge i range r).holding j =
      if j = i then (s.holding i).merge range r else s.holding j := by
  rw [holding, (s.listing_merge i range r).1, storedReplies_merge, get?_ranges_merge,
    get?_pieces_merge]
  by_cases hj : j = i
  · subst hj
    rw [if_pos rfl, if_pos rfl, Holding.merge]
    simp only [true_and]
    rfl
  · simp [hj, holding]

theorem usual_merge (s : CacheStore) (i : ObjectIdentity) (range : Option ByteRange) (r : Reply)
    (l : LooseIdentity) : (s.merge i range r).usual l = s.usual l :=
  usual_congr s _ (s.listing_merge i range r).2.1 (s.identities_merge i range r) l

end Holdings

/-- Two caches hold the same at a path. -/
structure AgreesAt (host path : String) (s t : CacheStore) : Prop where
  holding : ∀ i : ObjectIdentity, i.isAt host path = true → s.holding i = t.holding i
  usual : ∀ l : LooseIdentity, l.host = host ∧ l.path = path → s.usual l = t.usual l

namespace AgreesAt

variable {host path : String} {s t u : CacheStore}

theorem refl (s : CacheStore) : AgreesAt host path s s := ⟨fun _ _ => rfl, fun _ _ => rfl⟩

theorem symm (h : AgreesAt host path s t) : AgreesAt host path t s :=
  ⟨fun i hi => (h.holding i hi).symm, fun l hl => (h.usual l hl).symm⟩

theorem trans (h : AgreesAt host path s t) (h' : AgreesAt host path t u) : AgreesAt host path s u :=
  ⟨fun i hi => (h.holding i hi).trans (h'.holding i hi),
    fun l hl => (h.usual l hl).trans (h'.usual l hl)⟩

theorem of_modifyEntry (s : CacheStore) (place : Nat) {f : CacheEntry → CacheEntry}
    (hids : ∀ e, (f e).identity = e.identity) (hstored : ∀ e, (f e).stored = e.stored) :
    AgreesAt host path (s.modifyEntry place f) s where
  holding i _ :=
    holding_congr s (s.modifyEntry place f) rfl (s.map_modifyEntry place hstored) rfl rfl i
  usual l _ := usual_congr s (s.modifyEntry place f) rfl (s.identities_modifyEntry place hids) l

theorem of_countHit (s : CacheStore) (place : Nat) : AgreesAt host path (s.countHit place) s :=
  of_modifyEntry s place (fun _ => rfl) fun _ => rfl

theorem of_addDuplicate (s : CacheStore) (place : Nat) (ref : ExchangeRef) (bytes : Nat) :
    AgreesAt host path (s.addDuplicate place ref bytes) s :=
  of_modifyEntry s place (fun _ => rfl) fun _ => rfl

theorem of_revalidate (s : CacheStore) (host' path' : String) :
    AgreesAt host path (s.revalidate host' path') s := by
  unfold revalidate
  split
  · exact of_countHit s _
  · exact refl s

/-! What happens at other paths. -/

theorem of_insert (hs : s.Consistent) {e : CacheEntry} (he : e.identity.isAt host path = false) :
    AgreesAt host path (s.insert e) s where
  holding i hi := by rw [hs.holding_insert, if_neg (ObjectIdentity.ne_of_isAt hi he)]
  usual l hl := by rw [hs.usual_insert, if_neg (ObjectIdentity.ne_loose_of_isAt hl he)]

theorem of_replace (hs : s.Consistent) {place : Nat} {old new : ObjectIdentity}
    (hold : s.byIdentity.get? old = some place) (hloose : old.loose = new.loose)
    (hnew : new.isAt host path = false) (request : ExchangeRef) (r : Reply) :
    AgreesAt host path (s.replace place old new request r) s where
  holding i hi := by
    have hne : old.isAt host path = false := by
      rw [Bool.eq_false_iff, Ne, ← isAt_loose, hloose, isAt_loose, hnew]
      exact Bool.false_ne_true
    rw [hs.holding_replace hold, if_neg (ObjectIdentity.ne_of_isAt hi hnew),
      if_neg (ObjectIdentity.ne_of_isAt hi hne)]
  usual l hl := by
    rw [hs.usual_replace hold hloose, if_neg (ObjectIdentity.ne_loose_of_isAt hl hnew)]

theorem of_merge (s : CacheStore) {j : ObjectIdentity} (hj : j.isAt host path = false)
    (range : Option ByteRange) (r : Reply) : AgreesAt host path (s.merge j range r) s where
  holding i hi := by rw [holding_merge, if_neg (ObjectIdentity.ne_of_isAt hi hj)]
  usual l _ := s.usual_merge j range r l

theorem of_evict (s : CacheStore) {host' path' : String} (hne : ¬(host = host' ∧ path = path')) :
    AgreesAt host path (s.evict host' path') s where
  holding i hi := by
    rw [holding_evict, if_neg]
    rw [← isAt_loose] at hi ⊢
    rwa [hi.1, hi.2]
  usual l hl := by
    rw [usual_evict, if_neg]
    rwa [hl.1, hl.2]

/-! What happens at the path itself. -/

theorem insert (h : AgreesAt host path s t) (hs : s.Consistent) (ht : t.Consistent)
    {e f : CacheEntry} (hidentity : e.identity = f.identity) (hstored : e.stored = f.stored) :
    AgreesAt host path (s.insert e) (t.insert f) where
  holding i hi := by
    rw [hs.holding_insert, ht.holding_insert, h.holding i hi, hidentity, hstored]
  usual l hl := by rw [hs.usual_insert, ht.usual_insert, h.usual l hl, hidentity]

theorem replace (h : AgreesAt host path s t) (hs : s.Consistent) (ht : t.Consistent)
    {p q : Nat} {old new : ObjectIdentity} (hp : s.byIdentity.get? old = some p)
    (hq : t.byIdentity.get? old = some q) (hloose : old.loose = new.loose) (request : ExchangeRef)
    (r : Reply) :
    AgreesAt host path (s.replace p old new request r) (t.replace q old new request r) where
  holding i hi := by
    rw [hs.holding_replace hp, ht.holding_replace hq, h.holding i hi]
  usual l hl := by
    rw [hs.usual_replace hp hloose, ht.usual_replace hq hloose, h.usual l hl]

theorem merge (h : AgreesAt host path s t) {j : ObjectIdentity} (hj : j.isAt host path = true)
    (range : Option ByteRange) (r : Reply) :
    AgreesAt host path (s.merge j range r) (t.merge j range r) where
  holding i hi := by rw [holding_merge, holding_merge, h.holding i hi, h.holding j hj]
  usual l hl := by rw [usual_merge, usual_merge, h.usual l hl]

theorem evict (h : AgreesAt host path s t) :
    AgreesAt host path (s.evict host path) (t.evict host path) where
  holding i hi := by rw [holding_evict, holding_evict, h.holding i hi]
  usual l hl := by rw [usual_evict, usual_evict, h.usual l hl]

theorem found_eq (h : AgreesAt host path s t) {i : ObjectIdentity} (hi : i.isAt host path = true) :
    s.found i = t.found i := by
  rw [CacheStore.found, CacheStore.found, h.holding i hi,
    h.usual i.loose ((isAt_loose _ _ _).mpr hi)]

theorem hasPath_eq (h : AgreesAt host path s t) (hs : s.Consistent) (ht : t.Consistent) :
    s.hasPath host path = t.hasPath host path := by
  have hlisted : ∀ {s : CacheStore}, s.Consistent → (s.hasPath host path = true ↔
      ∃ i : ObjectIdentity, i.isAt host path = true ∧ (s.holding i).stored.isSome = true) := by
    intro s hs
    constructor
    · intro hpath
      obtain ⟨⟨i, place⟩, hmem, hi⟩ := List.any_eq_true.mp hpath
      obtain ⟨p, hp⟩ := Table.exists_get?_of_mem hmem
      exact ⟨i, hi, by rw [hs.stored_isSome, hp]; rfl⟩
    · rintro ⟨i, hi, hstored⟩
      rw [hs.stored_isSome] at hstored
      obtain ⟨p, hp⟩ := Option.isSome_iff_exists.mp hstored
      obtain ⟨before, after, hsplit, -⟩ := List.lookup_eq_some_iff.mp hp
      exact List.any_eq_true.mpr ⟨(i, p), hsplit ▸ by simp, hi⟩
  rw [Bool.eq_iff_iff, hlisted hs, hlisted ht]
  constructor
  · rintro ⟨i, hi, hstored⟩
    exact ⟨i, hi, h.holding i hi ▸ hstored⟩
  · rintro ⟨i, hi, hstored⟩
    exact ⟨i, hi, h.holding i hi ▸ hstored⟩

end AgreesAt

end CacheStore

end HttpCapture
