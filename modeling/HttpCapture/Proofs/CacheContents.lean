import HttpCapture.Proofs.ObjectChanges
import HttpCapture.Proofs.RangeSetCoverage

/-! What the cache keeps under an identity. Ranges and pieces are kept for listed
identities only, the pieces begin with the reply that the entry holds, and the ranges are
those that the pieces carry. -/

namespace HttpCapture

/-- The object positions that a reply carries. -/
def Reply.positions (c : Completeness) (r : Reply) : Finset Nat :=
  (r.objectRange c).elim ∅ ByteRange.positions

namespace CacheStore

section Tables

variable (s : CacheStore) (i j : ObjectIdentity) (range : Option ByteRange) (r : Reply)

theorem get?_ranges_merge : (s.merge i range r).ranges.get? j =
    if j = i then range.elim (s.ranges.get? i) fun b => some (((s.ranges.get? i).getD []).insert b)
    else s.ranges.get? j := by
  unfold merge
  cases range with
  | none =>
    by_cases hj : j = i <;> simp [hj]
  | some b =>
    dsimp only
    split <;> exact Table.get?_put _ _ _ _

theorem get?_pieces_merge : (s.merge i range r).pieces.get? j =
    if j = i ∧ (range.any fun b => RangeSet.covers ((s.ranges.get? i).getD []) b) = false then
      some ((s.pieces.get? i).getD [] ++ [r])
    else s.pieces.get? j := by
  unfold merge
  cases range with
  | none =>
    by_cases hj : j = i <;> simp [Table.get?_put, hj]
  | some b =>
    dsimp only
    by_cases hcovers : RangeSet.covers ((s.ranges.get? i).getD []) b = true
    · simp [hcovers]
    · by_cases hj : j = i <;> simp [hcovers, Table.get?_put, hj]

theorem get?_ranges_evict (host path : String) : (s.evict host path).ranges.get? i =
    if i.isAt host path then none else s.ranges.get? i := by
  have h := s.ranges.get?_filter (fun k => !k.isAt host path) i
  cases hat : i.isAt host path <;> simpa [evict, hat] using h

theorem get?_pieces_evict (host path : String) : (s.evict host path).pieces.get? i =
    if i.isAt host path then none else s.pieces.get? i := by
  have h := s.pieces.get?_filter (fun k => !k.isAt host path) i
  cases hat : i.isAt host path <;> simpa [evict, hat] using h

theorem get?_byIdentity_insert (e : CacheEntry) : (s.insert e).byIdentity.get? i =
    if i = e.identity then some s.entries.length else s.byIdentity.get? i :=
  Table.get?_put _ _ _ _

theorem get?_byIdentity_replace (place : Nat) (new : ObjectIdentity) (request : ExchangeRef) :
    (s.replace place j new request r).byIdentity.get? i =
      if i = new then some place else if i = j then none else s.byIdentity.get? i := by
  rw [replace, Table.get?_put, Table.get?_erase]

theorem get?_pieces_replace (place : Nat) (new : ObjectIdentity) (request : ExchangeRef) :
    (s.replace place j new request r).pieces.get? i =
      if i = j then none else s.pieces.get? i :=
  Table.get?_erase _ _ _

theorem get?_ranges_replace (place : Nat) (new : ObjectIdentity) (request : ExchangeRef) :
    (s.replace place j new request r).ranges.get? i =
      if i = j then none else s.ranges.get? i :=
  Table.get?_erase _ _ _

theorem tables_revalidate (host path : String) :
    (s.revalidate host path).byLoose = s.byLoose ∧ (s.revalidate host path).ranges = s.ranges ∧
      (s.revalidate host path).pieces = s.pieces := by
  unfold revalidate
  split <;> exact ⟨rfl, rfl, rfl⟩

end Tables

theorem apart_merge {c : Completeness} {s : CacheStore} {i : ObjectIdentity}
    (h : RangeSet.Apart ((s.ranges.get? i).getD [])) (r : Reply) :
    RangeSet.Apart (((s.merge i (r.objectRange c) r).ranges.get? i).getD []) := by
  rw [get?_ranges_merge, if_pos rfl]
  cases r.objectRange c with
  | none => exact h
  | some b => exact h.insert b

theorem positions_merge {c : Completeness} {s : CacheStore} {i : ObjectIdentity}
    (h : RangeSet.Apart ((s.ranges.get? i).getD [])) (r : Reply) :
    RangeSet.positions (((s.merge i (r.objectRange c) r).ranges.get? i).getD []) =
      r.positions c ∪ RangeSet.positions ((s.ranges.get? i).getD []) := by
  rw [get?_ranges_merge, if_pos rfl, Reply.positions]
  cases r.objectRange c with
  | none => simp
  | some b => exact h.positions_insert b

/-- What is kept under one identity. -/
structure HoldsAt (c : Completeness) (s : CacheStore) (i : ObjectIdentity) : Prop where
  unlisted : s.byIdentity.get? i = none → s.pieces.get? i = none ∧ s.ranges.get? i = none
  first : ∀ place, s.byIdentity.get? i = some place →
    ∃ r rest, s.storedReplies[place]? = some r ∧ s.pieces.get? i = some (r :: rest)
  apart : RangeSet.Apart ((s.ranges.get? i).getD [])
  positions : ∀ x, x ∈ RangeSet.positions ((s.ranges.get? i).getD []) ↔
    ∃ p ∈ (s.pieces.get? i).getD [], x ∈ p.positions c

namespace HoldsAt

variable {c : Completeness} {s t : CacheStore} {i : ObjectIdentity}

theorem of_none (hlisted : s.byIdentity.get? i = none) (hpieces : s.pieces.get? i = none)
    (hranges : s.ranges.get? i = none) : HoldsAt c s i where
  unlisted _ := ⟨hpieces, hranges⟩
  first place hplace := absurd (hlisted.symm.trans hplace) (by simp)
  apart := by
    rw [hranges]
    exact RangeSet.apart_nil
  positions x := by simp [hranges, hpieces, RangeSet.positions]

theorem congr (h : HoldsAt c s i) (hlisted : t.byIdentity.get? i = s.byIdentity.get? i)
    (hstored : ∀ place, s.byIdentity.get? i = some place →
      t.storedReplies[place]? = s.storedReplies[place]?)
    (hpieces : t.pieces.get? i = s.pieces.get? i) (hranges : t.ranges.get? i = s.ranges.get? i) :
    HoldsAt c t i := by
  refine ⟨?_, fun place hplace => ?_, ?_, ?_⟩
  · rw [hlisted, hpieces, hranges]
    exact h.unlisted
  · rw [hlisted] at hplace
    rw [hstored place hplace, hpieces]
    exact h.first place hplace
  · rw [hranges]
    exact h.apart
  · rw [hranges, hpieces]
    exact h.positions

/-- A reply becomes a piece unless the ranges hold its positions already. -/
theorem positions_merge_pieces (hapart : RangeSet.Apart ((s.ranges.get? i).getD []))
    (hpositions : ∀ x, x ∈ RangeSet.positions ((s.ranges.get? i).getD []) ↔
      ∃ p ∈ (s.pieces.get? i).getD [], x ∈ p.positions c) (r : Reply) (x : Nat) :
    x ∈ RangeSet.positions (((s.merge i (r.objectRange c) r).ranges.get? i).getD []) ↔
      ∃ p ∈ ((s.merge i (r.objectRange c) r).pieces.get? i).getD [], x ∈ p.positions c := by
  rw [positions_merge hapart, Finset.mem_union, hpositions, get?_pieces_merge]
  by_cases hcovers : ((r.objectRange c).any fun b =>
      RangeSet.covers ((s.ranges.get? i).getD []) b) = false
  · rw [if_pos ⟨rfl, hcovers⟩]
    simp [or_comm, or_and_right, exists_or]
  · rw [if_neg fun h => hcovers h.2]
    have hsub : x ∈ r.positions c → ∃ p ∈ (s.pieces.get? i).getD [], x ∈ p.positions c := by
      intro hx
      obtain ⟨b, hb, hheld⟩ := (Option.any_eq_true _ _).mp (Bool.eq_true_of_not_eq_false hcovers)
      rw [Reply.positions, hb] at hx
      exact (hpositions x).mp (RangeSet.positions_of_covers hheld hx)
    exact ⟨fun h => h.elim hsub id, .inr⟩

/-- An entry that holds a reply takes over the bytes of another one. -/
theorem merge (h : HoldsAt c s i) {place : Nat} (hplace : s.byIdentity.get? i = some place)
    (r : Reply) : HoldsAt c (s.merge i (r.objectRange c) r) i := by
  obtain ⟨q, rest, hstored, hpieces⟩ := h.first place hplace
  have hlisting := s.listing_merge i (r.objectRange c) r
  refine ⟨fun hnone => ?_, fun p hp => ?_, apart_merge h.apart r,
    positions_merge_pieces h.apart h.positions r⟩
  · rw [hlisting.1, hplace] at hnone
    cases hnone
  · rw [hlisting.1, hplace] at hp
    obtain rfl := Option.some.inj hp
    rw [storedReplies_merge, get?_pieces_merge, hpieces]
    split
    · exact ⟨q, rest ++ [r], hstored, rfl⟩
    · exact ⟨q, rest, hstored, rfl⟩

/-- A new or changed entry begins with the reply that it holds. -/
theorem merge_first {place : Nat} (hplace : s.byIdentity.get? i = some place) {r : Reply}
    (hstored : s.storedReplies[place]? = some r) (hpieces : s.pieces.get? i = none)
    (hranges : s.ranges.get? i = none) : HoldsAt c (s.merge i (r.objectRange c) r) i := by
  have hlisting := s.listing_merge i (r.objectRange c) r
  have hapart : RangeSet.Apart ((s.ranges.get? i).getD []) := by
    rw [hranges]
    exact RangeSet.apart_nil
  have hpositions : ∀ x, x ∈ RangeSet.positions ((s.ranges.get? i).getD []) ↔
      ∃ p ∈ (s.pieces.get? i).getD [], x ∈ p.positions c := by
    simp [hranges, hpieces, RangeSet.positions]
  refine ⟨fun hnone => ?_, fun p hp => ?_, apart_merge hapart r,
    positions_merge_pieces hapart hpositions r⟩
  · rw [hlisting.1, hplace] at hnone
    cases hnone
  · rw [hlisting.1, hplace] at hp
    obtain rfl := Option.some.inj hp
    refine ⟨r, [], by rw [storedReplies_merge, hstored], ?_⟩
    rw [get?_pieces_merge, hpieces, hranges, if_pos]
    · rfl
    · exact ⟨rfl, by cases r.objectRange c <;> rfl⟩

/-- Nothing else is touched by a merge. -/
theorem merge_other (h : HoldsAt c s i) {j : ObjectIdentity} (hne : i ≠ j)
    (range : Option ByteRange) (r : Reply) : HoldsAt c (s.merge j range r) i := by
  have hlisting := s.listing_merge j range r
  refine h.congr (by rw [hlisting.1]) (fun _ _ => by rw [storedReplies_merge]) ?_ ?_
  · rw [get?_pieces_merge, if_neg fun he => hne he.1]
  · rw [get?_ranges_merge, if_neg hne]

end HoldsAt

theorem holdsAt_evict {c : Completeness} {s : CacheStore} {i : ObjectIdentity} (h : HoldsAt c s i)
    (host path : String) : HoldsAt c (s.evict host path) i := by
  have hlisted := s.get?_evict_byIdentity host path i
  have hpieces := s.get?_pieces_evict i host path
  have hranges := s.get?_ranges_evict i host path
  cases hat : i.isAt host path with
  | true =>
    rw [hat, if_pos rfl] at hlisted hpieces hranges
    exact .of_none hlisted hpieces hranges
  | false =>
    rw [hat, if_neg Bool.false_ne_true] at hlisted hpieces hranges
    exact h.congr hlisted (fun _ _ => rfl) hpieces hranges

end CacheStore

namespace CacheRules

variable {rules : CacheRules} {s : CacheStore} {r : Reply} {o : CacheStore × CacheDecision}

theorem Outcome.holdsAt (ho : rules.Outcome s r o) (hs : s.Consistent)
    (h : ∀ i, s.HoldsAt rules.completeness i) (i : ObjectIdentity) :
    o.1.HoldsAt rules.completeness i := by
  cases ho with
  | ignored => exact h i
  | evicted => exact CacheStore.holdsAt_evict (h i) _ _
  | @revalidated a hno ha hpath =>
    obtain ⟨-, hranges, hpieces⟩ := s.tables_revalidate a.host a.path
    refine (h i).congr ?_ (fun _ _ => by rw [CacheStore.storedReplies_revalidate]) ?_ ?_
    · rw [(s.listing_revalidate _ _).1]
    · rw [hpieces]
    · rw [hranges]
  | @missed a hr hnone =>
    have hfree := ((hs.lookup_eq_none_iff _).mp hnone).1
    have hlisted :=
      s.get?_byIdentity_insert i ⟨rules.identityOf r a, a.ref, r, .cacheMiss, 0, [], 0⟩
    by_cases hi : i = rules.identityOf r a
    · subst hi
      obtain ⟨hpieces, hranges⟩ := (h _).unlisted hfree
      refine CacheStore.HoldsAt.merge_first (hlisted.trans (if_pos rfl)) ?_ hpieces hranges
      rw [CacheStore.getElem?_storedReplies_insert, if_pos rfl]
    · refine CacheStore.HoldsAt.merge_other ?_ hi _ _
      refine (h i).congr (hlisted.trans (if_neg hi)) (fun place hplace => ?_) rfl rfl
      rw [CacheStore.getElem?_storedReplies_insert, if_neg (hs.lt_length_entries hplace).ne]
  | @changed a place entry judged hr hlook hmatch =>
    have hstored := CacheStore.getElem?_storedReplies_replace hmatch.lt_length_countHit
      entry.identity (rules.identityOf r a) a.ref r
    have hlisted := (s.countHit place).get?_byIdentity_replace i entry.identity r place
      (rules.identityOf r a) a.ref
    have hpieces := (s.countHit place).get?_pieces_replace i entry.identity r place
      (rules.identityOf r a) a.ref
    have hranges := (s.countHit place).get?_ranges_replace i entry.identity r place
      (rules.identityOf r a) a.ref
    by_cases hold : i = entry.identity
    · rw [if_pos hold] at hpieces hranges
      by_cases hi : i = rules.identityOf r a
      · subst hi
        refine CacheStore.HoldsAt.merge_first (hlisted.trans (if_pos rfl)) ?_ hpieces hranges
        rw [hstored, if_pos rfl]
      · rw [if_neg hi, if_pos hold] at hlisted
        exact (CacheStore.HoldsAt.of_none hlisted hpieces hranges).merge_other hi _ _
    · rw [if_neg hold] at hpieces hranges
      by_cases hi : i = rules.identityOf r a
      · -- The new identity is not that of the entry, so it was listed for none.
        have hfree : s.byIdentity.get? i = none :=
          hi ▸ (hmatch.tag.resolve_left fun he => hold (hi.trans he.symm)).2
        obtain ⟨hnopieces, hnoranges⟩ := (h i).unlisted hfree
        subst hi
        refine CacheStore.HoldsAt.merge_first (hlisted.trans (if_pos rfl)) ?_
          (hpieces.trans hnopieces) (hranges.trans hnoranges)
        rw [hstored, if_pos rfl]
      · rw [if_neg hi, if_neg hold] at hlisted
        refine CacheStore.HoldsAt.merge_other ?_ hi _ _
        refine (h i).congr hlisted (fun p hp => ?_) hpieces hranges
        have hne : p ≠ place := fun he => hold (hs.eq_of_listed (he ▸ hp) hmatch.listed)
        rw [hstored, if_neg hne, CacheStore.storedReplies_countHit]
  | @repeated a place entry judged d bytes uncovered hr hlook hmatch hd hbytes =>
    have hcounted : ∀ j, ((s.countHit place).addDuplicate place r.ref bytes).HoldsAt
        rules.completeness j := fun j => (h j).congr rfl
      (fun _ _ => by rw [CacheStore.storedReplies_addDuplicate, CacheStore.storedReplies_countHit])
      rfl rfl
    by_cases hi : i = entry.identity
    · subst hi
      exact (hcounted _).merge hmatch.listed r
    · exact (hcounted i).merge_other hi _ _

theorem holdsAt_storeAfter (rules : CacheRules) (rs : List Reply) (i : ObjectIdentity) :
    (rules.storeAfter rs).HoldsAt rules.completeness i := by
  induction rs using List.reverseRecOn generalizing i with
  | nil => exact .of_none rfl rfl rfl
  | append_singleton rs r ih =>
    rw [storeAfter_append_singleton]
    have hs := rules.consistent_storeAfter rs
    exact (rules.outcome_step hs r).holdsAt hs ih i

end CacheRules

end HttpCapture
