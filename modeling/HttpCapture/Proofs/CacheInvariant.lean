import HttpCapture.Proofs.CacheContents

/-! The cache after any number of replies. Of the entries at a path the newest one is listed if any
is, so a revalidation is counted for an entry that can still be found. -/

namespace HttpCapture

namespace CacheStore

variable {s t : CacheStore}

/-- Entries at the path of a listed entry that are newer than it are listed, too. -/
def NewestListed (s : CacheStore) : Prop :=
  ∀ ⦃i j : ObjectIdentity⦄ ⦃p q : Nat⦄, s.byIdentity.get? i = some p →
    s.identities[q]? = some j → p ≤ q → j.isAt i.host i.path = true → s.byIdentity.get? j = some q

namespace NewestListed

theorem congr (h : s.NewestListed) (hlisted : t.byIdentity = s.byIdentity)
    (hids : t.identities = s.identities) : t.NewestListed := by
  intro i j p q hp hq hle hat
  rw [hlisted] at hp ⊢
  rw [hids] at hq
  exact h hp hq hle hat

theorem evict (h : s.NewestListed) (host path : String) : (s.evict host path).NewestListed := by
  intro i j p q hp hq hle hat
  rw [get?_evict_byIdentity] at hp ⊢
  have hsame : j.isAt host path = i.isAt host path := by
    simp only [ObjectIdentity.isAt, Bool.decide_and, Bool.and_eq_true, decide_eq_true_eq] at hat ⊢
    rw [hat.1, hat.2]
  rw [hsame]
  cases hgone : i.isAt host path with
  | true =>
    rw [hgone, if_pos rfl] at hp
    cases hp
  | false =>
    rw [hgone, if_neg Bool.false_ne_true] at hp
    rw [if_neg Bool.false_ne_true]
    exact h hp hq hle hat

/-- Only an entry that is the last one, or was listed at the same path, is listed anew. -/
theorem relists (h : s.NewestListed) {place : Nat} {new : ObjectIdentity}
    (ht : s.Relists t place new) (hplace : s.identities.length ≤ place ∨
      ∃ old, s.byIdentity.get? old = some place ∧ old.loose = new.loose) : t.NewestListed := by
  intro i j p q hp hq hle hat
  rw [ht.listed] at hp ⊢
  rw [ht.identities] at hq
  by_cases hqplace : q = place
  · rw [if_pos hqplace] at hq ⊢
    exact (Option.some.inj hq).symm
  · rw [if_neg hqplace] at hq ⊢
    by_cases hpplace : p = place
    · rw [if_pos hpplace] at hp
      subst hp
      rcases hplace with hlast | ⟨old, hold, hloose⟩
      · have hlt := (List.getElem?_eq_some_iff.mp hq).1
        omega
      · have hhost : old.host = i.host := congrArg LooseIdentity.host hloose
        have hpath : old.path = i.path := congrArg LooseIdentity.path hloose
        exact h hold hq (hpplace ▸ hle) (by rwa [hhost, hpath])
    · rw [if_neg hpplace] at hp
      exact h hp hq hle hat

/-- The entry for which a revalidation is counted. -/
theorem exists_revalidate (h : s.NewestListed) (hs : s.Consistent) {host path : String}
    (hpath : s.hasPath host path = true) : ∃ i place, i.isAt host path = true ∧
      s.byIdentity.get? i = some place ∧ s.revalidate host path = s.countHit place := by
  obtain ⟨⟨i, place⟩, hmem, hat⟩ := List.any_eq_true.mp hpath
  obtain ⟨p, hp⟩ := Table.exists_get?_of_mem hmem
  obtain ⟨e, he, rfl⟩ := hs.exists_entry hp
  have hmem : (e, p) ∈ s.entries.zipIdx.filter fun e => e.1.identity.isAt host path :=
    List.mem_filter.mpr ⟨List.mem_zipIdx_iff_getElem?.mpr he, hat⟩
  have hplaces : (s.entries.zipIdx.map Prod.snd).Pairwise (· ≤ ·) := by
    rw [List.zipIdx_map_snd]
    exact List.pairwise_le_range' 1
  have hordered := (List.pairwise_map.mp hplaces).filter fun e => e.1.identity.isAt host path
  obtain ⟨⟨newest, q⟩, hlast⟩ := Option.ne_none_iff_exists'.mp
    (mt List.getLast?_eq_none_iff.mp (List.ne_nil_of_mem hmem))
  have hle : p ≤ q := by
    have : Std.Refl fun a b : CacheEntry × Nat => a.2 ≤ b.2 := ⟨fun _ => Nat.le_refl _⟩
    have hrel := hordered.rel_getLast hmem
    rwa [List.getLast_of_getLast?_eq_some hlast] at hrel
  obtain ⟨hentry, hnewest⟩ := List.mem_filter.mp (List.mem_of_getLast? hlast)
  have hids : s.identities[q]? = some newest.identity := by
    rw [identities, List.getElem?_map, List.mem_zipIdx_iff_getElem?.mp hentry]
    rfl
  obtain ⟨rfl, rfl⟩ := (isAt_loose e.identity host path).mpr hat
  refine ⟨newest.identity, q, hnewest, h hp hids hle hnewest, ?_⟩
  rw [revalidate, hlast]
  rfl

end NewestListed

/-- How the tables of a cache fit together. -/
structure Orderly (c : Completeness) (s : CacheStore) : Prop where
  listed : ∀ i place, s.byIdentity.get? i = some place →
    ∃ entry, s.entries[place]? = some entry ∧ entry.identity = i
  distinct : ∀ i j place, s.byIdentity.get? i = some place →
    s.byIdentity.get? j = some place → i = j
  loose : ∀ l, (s.byLoose.get? l).isSome ↔ ∃ i, i.loose = l ∧ (s.byIdentity.get? i).isSome
  found : ∀ l place, s.byLoose.get? l = some place →
    ∃ i, i.loose = l ∧ s.byIdentity.get? i = some place
  pieces : ∀ i, (s.pieces.get? i).isSome ↔ (s.byIdentity.get? i).isSome
  /-- The pieces begin with the reply that the entry holds. -/
  first : ∀ i place entry, s.byIdentity.get? i = some place → s.entries[place]? = some entry →
    ∃ rest, s.pieces.get? i = some (entry.stored :: rest)
  ranges : ∀ i, (s.ranges.get? i).isSome → (s.byIdentity.get? i).isSome
  apart : ∀ i held, s.ranges.get? i = some held → RangeSet.Apart held
  /-- The ranges are those of the pieces. -/
  covered : ∀ i x, x ∈ RangeSet.positions ((s.ranges.get? i).getD []) ↔
    ∃ p ∈ (s.pieces.get? i).getD [], x ∈ p.positions c

theorem Consistent.orderly {c : Completeness} (hs : s.Consistent) (h : ∀ i, s.HoldsAt c i) :
    s.Orderly c where
  listed i place := hs.exists_entry
  distinct i j place := hs.eq_of_listed
  loose l := by
    constructor
    · intro hl
      obtain ⟨place, hplace⟩ := Option.isSome_iff_exists.mp hl
      obtain ⟨i, hi, hp⟩ := hs.found hplace
      exact ⟨i, hi, by rw [hp]; rfl⟩
    · rintro ⟨i, rfl, hi⟩
      obtain ⟨place, hp⟩ := Option.isSome_iff_exists.mp hi
      obtain ⟨other, hother⟩ := hs.covered hp
      rw [hother]
      rfl
  found l place := hs.found
  pieces i := by
    cases hp : s.byIdentity.get? i with
    | none => simp [((h i).unlisted hp).1]
    | some place =>
      obtain ⟨r, rest, -, hpieces⟩ := (h i).first place hp
      simp [hpieces]
  first i place entry hp hentry := by
    obtain ⟨r, rest, hstored, hpieces⟩ := (h i).first place hp
    rw [storedReplies, List.getElem?_map, hentry] at hstored
    exact ⟨rest, by rw [hpieces, ← Option.some.inj hstored]⟩
  ranges i hi := by
    cases hp : s.byIdentity.get? i with
    | none => simp [((h i).unlisted hp).2] at hi
    | some place => rfl
  apart i held hheld := by
    have hapart := (h i).apart
    rwa [hheld] at hapart
  covered i := (h i).positions

end CacheStore

namespace CacheRules

variable {rules : CacheRules} {s : CacheStore} {r : Reply} {o : CacheStore × CacheDecision}

theorem Outcome.newestListed (ho : rules.Outcome s r o) (hs : s.Consistent)
    (h : s.NewestListed) : o.1.NewestListed := by
  cases ho with
  | ignored => exact h
  | evicted => exact h.evict _ _
  | revalidated =>
    obtain ⟨hlisted, hids⟩ := s.listing_revalidate _ _
    exact h.congr hlisted hids
  | @missed a hr hnone =>
    exact h.relists (rules.relists_miss hs hnone) (.inl s.length_identities.le)
  | @changed a place entry judged hr hlook hmatch =>
    exact h.relists (hs.relists_changed hmatch a.ref _ r) (.inr ⟨_, hmatch.listed, hmatch.loose⟩)
  | repeated =>
    exact h.congr (CacheStore.listing_merge _ _ _ _).1 (s.identities_repeated _ _ _ _ _ _)

theorem newestListed_storeAfter (rules : CacheRules) (rs : List Reply) :
    (rules.storeAfter rs).NewestListed := by
  induction rs using List.reverseRecOn with
  | nil =>
    intro i j p q hp
    cases hp
  | append_singleton rs r ih =>
    have hs := rules.consistent_storeAfter rs
    rw [storeAfter_append_singleton]
    exact (rules.outcome_step hs r).newestListed hs ih

theorem Outcome.exists_revalidated (ho : rules.Outcome s r o) (hs : s.Consistent)
    (h : s.NewestListed) (hd : o.2.diagnosis = .objNotChanged304) :
    ∃ a i place, r.asked = some a ∧ i.isAt a.host a.path = true ∧
      s.byIdentity.get? i = some place ∧ o.1 = s.countHit place := by
  cases ho with
  | ignored hno hd' => rcases hd' with rfl | rfl | rfl <;> cases hd
  | evicted => cases hd
  | @revalidated a hno ha hpath =>
    obtain ⟨i, place, hat, hp, hcounted⟩ := h.exists_revalidate hs hpath
    exact ⟨a, i, place, ha, hat, hp, hcounted⟩
  | missed => cases hd
  | changed => cases hd
  | repeated hr hlook hmatch hrepeat =>
    dsimp only at hd
    subst hd
    cases hrepeat

end CacheRules

/-- After any number of replies the tables of the cache fit together, and a revalidation is counted
for an entry that is listed at its path. -/
theorem orderly_storeAfter (rules : CacheRules) (rs : List Reply) :
    let s := rules.storeAfter rs
    s.Orderly rules.completeness ∧
      ∀ r, (rules.step s r).2.diagnosis = .objNotChanged304 → ∃ a i place, r.asked = some a ∧
        i.isAt a.host a.path = true ∧ s.byIdentity.get? i = some place ∧
        (rules.step s r).1 = s.countHit place := by
  intro s
  have hs := rules.consistent_storeAfter rs
  refine ⟨hs.orderly (rules.holdsAt_storeAfter rs), fun r hd => ?_⟩
  exact (rules.outcome_step hs r).exists_revalidated hs (rules.newestListed_storeAfter rs) hd

/-- A revalidation is counted for the entry that the reply before it has created. -/
theorem orderly_storeAfter_of_revalidation :
    let rules : CacheRules := ⟨.standard, .standard⟩
    let notModified := Exchange.start 0 .downlink (.response "HTTP/1.1" 304 "")
    let rs := unsortedReplies
      [.ofReplies [(.sampleWhole "no-cache" (some "x"), [1]), (notModified, [])]]
    let s := rules.storeAfter (rs.take 1)
    s.Orderly rules.completeness ∧ s.byIdentity.map (·.2) = [0] ∧
      ∃ r ∈ rs, ∃ i place, s.byIdentity.get? i = some place ∧
        (rules.step s r).1 = s.countHit place := by
  intro rules notModified rs s
  obtain ⟨horderly, hcounted⟩ := orderly_storeAfter rules (rs.take 1)
  let r := rs.get ⟨1, by decide +kernel⟩
  have hd : (rules.step s r).2.diagnosis = .objNotChanged304 := by decide +kernel
  obtain ⟨a, i, place, -, -, hlisted, hstep⟩ := hcounted r hd
  exact ⟨horderly, by decide +kernel, r, List.get_mem _ _, i, place, hlisted, hstep⟩

end HttpCapture
