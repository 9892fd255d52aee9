import HttpCapture.Proofs.CacheRun
import HttpCapture.Proofs.RepeatedBytes

/-! Bytes counted as duplicates were sent before. What the cache keeps as pieces of an object are
earlier replies for that object, so the verified bytes are repeated by them. -/

namespace HttpCapture

namespace Reply

/-- A reply that carries an object or a part of one. -/
def isWholeOrPartial (r : Reply) : Bool :=
  r.response.status? == some 200 || r.response.status? == some 206

def loose? (c : Completeness) (r : Reply) : Option LooseIdentity :=
  r.asked.map fun a => ⟨a.host, a.path, r.objectLength c⟩

/-- Whether a reply carries bytes of the object that another one is for. -/
def sharesObject (c : Completeness) (r p : Reply) : Bool :=
  p.isWholeOrPartial && r.asked.isSome && p.loose? c == r.loose? c

end Reply

namespace CacheRules

theorem Cacheable.isWholeOrPartial {rules : CacheRules} {r : Reply} {a : Asked}
    (h : rules.Cacheable r a) : r.isWholeOrPartial = true := by
  rcases h.status with hs | hs <;> simp [Reply.isWholeOrPartial, hs]

theorem Cacheable.loose? {rules : CacheRules} {r : Reply} {a : Asked} (h : rules.Cacheable r a) :
    r.loose? rules.completeness = some (rules.identityOf r a).loose := by
  rw [Reply.loose?, h.asked]
  rfl

/-- The pieces listed under an identity are replies among the given ones that carry its object. -/
def PiecesFrom (rules : CacheRules) (rs : List Reply) (s : CacheStore) : Prop :=
  ∀ i, ∀ p ∈ (s.pieces.get? i).getD [],
    p ∈ rs ∧ p.isWholeOrPartial = true ∧ p.loose? rules.completeness = some i.loose

theorem PiecesFrom.append {rules : CacheRules} {rs : List Reply} {s : CacheStore}
    (h : rules.PiecesFrom rs s) (r : Reply) : rules.PiecesFrom (rs ++ [r]) s := by
  intro i p hp
  obtain ⟨hmem, hkept, hloose⟩ := h i p hp
  exact ⟨List.mem_append_left _ hmem, hkept, hloose⟩

theorem PiecesFrom.of_get? {rules : CacheRules} {rs : List Reply} {s t : CacheStore}
    (h : rules.PiecesFrom rs s)
    (ht : ∀ i, t.pieces.get? i = s.pieces.get? i ∨ t.pieces.get? i = none) :
    rules.PiecesFrom rs t := by
  intro i p hp
  rcases ht i with hi | hi
  · exact h i p (hi ▸ hp)
  · rw [hi] at hp
    exact absurd hp List.not_mem_nil

theorem PiecesFrom.merge {rules : CacheRules} {rs : List Reply} {s : CacheStore}
    (h : rules.PiecesFrom rs s) {i : ObjectIdentity} (range : Option ByteRange) {r : Reply}
    (hr : r ∈ rs) (hkept : r.isWholeOrPartial = true)
    (hloose : r.loose? rules.completeness = some i.loose) :
    rules.PiecesFrom rs (s.merge i range r) := by
  -- Whether the ranges grow or not, the list under `i` gets `r` at most.
  have hadd : ∀ t : CacheStore, t.pieces = s.pieces.put i ((s.pieces.get? i).getD [] ++ [r]) →
      rules.PiecesFrom rs t := by
    intro t ht j p hp
    rw [ht, Table.get?_put] at hp
    split at hp
    · next hj =>
      rw [Option.getD_some, List.mem_append, List.mem_singleton] at hp
      rcases hp with hp | rfl
      · exact hj ▸ h i p hp
      · exact ⟨hr, hkept, by rw [hj, hloose]⟩
    · exact h j p hp
  unfold CacheStore.merge
  dsimp only
  split
  · exact hadd _ rfl
  · split
    · exact h.of_get? fun _ => .inl rfl
    · exact hadd _ rfl

theorem Outcome.piecesFrom {rules : CacheRules} {rs : List Reply} {s : CacheStore} {r : Reply}
    {o : CacheStore × CacheDecision} (ho : rules.Outcome s r o) (h : rules.PiecesFrom rs s) :
    rules.PiecesFrom (rs ++ [r]) o.1 := by
  have h := h.append r
  have hmem : r ∈ rs ++ [r] := List.mem_append_right _ List.mem_cons_self
  cases ho with
  | ignored => exact h
  | @evicted a hno ha =>
    refine h.of_get? fun i => ?_
    have hfilter := s.pieces.get?_filter (fun k => !k.isAt a.host a.path) i
    rw [show (s.evict a.host a.path).pieces.get? i = _ from hfilter]
    split
    · exact .inl rfl
    · exact .inr rfl
  | revalidated =>
    refine h.of_get? fun i => .inl ?_
    unfold CacheStore.revalidate
    split <;> rfl
  | @missed a hr hnone =>
    have hinserted :=
      h.of_get? (t := s.insert ⟨rules.identityOf r a, a.ref, r, .cacheMiss, 0, [], 0⟩)
      fun _ => .inl rfl
    exact hinserted.merge _ hmem hr.isWholeOrPartial hr.loose?
  | @changed a place entry judged hr hlook hmatch =>
    have hreplaced := h.of_get?
      (t := (s.countHit place).replace place entry.identity (rules.identityOf r a) a.ref r)
        fun i => by
        rw [CacheStore.replace, Table.get?_erase]
        split
        · exact .inr rfl
        · exact .inl rfl
    exact hreplaced.merge _ hmem hr.isWholeOrPartial hr.loose?
  | @repeated a place entry judged d bytes uncovered hr hlook hmatch hd hbytes =>
    have hcounted := h.of_get? (t := (s.countHit place).addDuplicate place r.ref bytes)
      fun _ => .inl rfl
    exact hcounted.merge _ hmem hr.isWholeOrPartial (hmatch.loose ▸ hr.loose?)

theorem piecesFrom_storeAfter (rules : CacheRules) (rs : List Reply) :
    rules.PiecesFrom rs (rules.storeAfter rs) := by
  induction rs using List.reverseRecOn with
  | nil => exact fun i p hp => absurd hp List.not_mem_nil
  | append_singleton rs r ih =>
    rw [storeAfter_append_singleton]
    exact (rules.outcome_step (rules.consistent_storeAfter rs) r).piecesFrom ih

theorem Outcome.duplicateBytes_le {rules : CacheRules} {rs : List Reply} {s : CacheStore}
    {r : Reply} {o : CacheStore × CacheDecision} (ho : rules.Outcome s r o)
    (h : rules.PiecesFrom rs s) :
    o.2.duplicateBytes ≤ r.bodyBytes ∧
      (r.capture.offsets rules.completeness ⊆
          r.repeated rules.completeness (rs.filter (r.sharesObject rules.completeness)) ∨
        o.2.duplicateBytes ≤
          (r.repeated rules.completeness
            (rs.filter (r.sharesObject rules.completeness))).card) := by
  cases ho with
  | ignored => exact ⟨Nat.zero_le _, .inr (Nat.zero_le _)⟩
  | evicted => exact ⟨Nat.zero_le _, .inr (Nat.zero_le _)⟩
  | revalidated => exact ⟨Nat.zero_le _, .inr (Nat.zero_le _)⟩
  | missed => exact ⟨Nat.zero_le _, .inr (Nat.zero_le _)⟩
  | changed => exact ⟨Nat.zero_le _, .inr (Nat.zero_le _)⟩
  | @repeated a place entry judged d bytes uncovered hr hlook hmatch hd hbytes =>
    have hpieces : ∀ p ∈ (s.pieces.get? entry.identity).getD [],
        p ∈ rs.filter (r.sharesObject rules.completeness) := by
      intro p hp
      obtain ⟨hmem, hkept, hloose⟩ := h _ p hp
      rw [hmatch.loose, ← hr.loose?] at hloose
      exact List.mem_filter.mpr ⟨hmem, by simp [Reply.sharesObject, hkept, hr.asked, hloose]⟩
    have hmono := Reply.repeated_mono hpieces (c := rules.completeness) (r := r)
    subst hbytes
    refine ⟨r.verifiedBytes_le rules.completeness _, ?_⟩
    rcases r.verifiedBytes_le_repeated rules.completeness
      ((s.pieces.get? entry.identity).getD []) with hall | hle
    · exact .inl (hall.trans hmono)
    · exact .inr (Nat.le_trans hle (Finset.card_le_card hmono))

end CacheRules

/-- A part of an object, from the given offset on, that may not be used again unasked. -/
def Exchange.samplePart (first last : UInt64) : Exchange :=
  { Exchange.start 0 .downlink (.response "HTTP/1.1" 206 "") with
    fields := [⟨"cache-control", utf8Bytes "no-cache"⟩]
    range := some ⟨first, last⟩
    instanceLength := some 4 }

/-- Each decision is about the reply in its turn. The bytes it counts as duplicates are body bytes
of the reply, and no more than there are offsets of its content at which an earlier reply for the
same object has the same byte, unless that is so at all of them. -/
theorem duplicateBytes_le_repeated (rules : CacheRules) (sessions : List Session) {n : Nat}
    {d : CacheDecision} (hd : (rules.report sessions).decisions[n]? = some d) :
    ∃ r, (repliesOf sessions)[n]? = some r ∧ d.response = r.ref ∧ d.duplicateBytes ≤ r.bodyBytes ∧
      let earlier := ((repliesOf sessions).take n).filter (r.sharesObject rules.completeness)
      (r.capture.offsets rules.completeness ⊆ r.repeated rules.completeness earlier ∨
        d.duplicateBytes ≤ (r.repeated rules.completeness earlier).card) := by
  rw [rules.decisions_getElem?, Option.map_eq_some_iff] at hd
  obtain ⟨r, hr, rfl⟩ := hd
  have hrs := rules.consistent_storeAfter ((repliesOf sessions).take n)
  have ho := rules.outcome_step hrs r
  obtain ⟨hbody, hrepeated⟩ := ho.duplicateBytes_le (rules.piecesFrom_storeAfter _)
  exact ⟨r, hr, ho.response, hbody, hrepeated⟩

/-- Two parts that overlap in one byte. -/
theorem duplicateBytes_le_repeated_of_overlap :
    let rules : CacheRules := ⟨.standard, .standard⟩
    let sessions := [Session.ofReplies [(.samplePart 0 1, [1, 2]), (.samplePart 1 3, [2, 3, 4])]]
    ∃ d r, (rules.report sessions).decisions[1]? = some d ∧ (repliesOf sessions)[1]? = some r ∧
      d.duplicateBytes = 1 ∧ d.duplicateBytes ≤ r.bodyBytes ∧
      let earlier := ((repliesOf sessions).take 1).filter (r.sharesObject rules.completeness)
      (r.capture.offsets rules.completeness ⊆ r.repeated rules.completeness earlier ∨
        d.duplicateBytes ≤ (r.repeated rules.completeness earlier).card) := by
  intro rules sessions
  have hreplies : repliesOf sessions = unsortedReplies sessions :=
    repliesOf_of_pairwise (by decide +kernel)
  have hbytes : (rules.report sessions).decisions[1]?.map (·.duplicateBytes) = some 1 := by
    rw [rules.decisions_getElem?, hreplies]
    decide +kernel
  obtain ⟨d, hd, hone⟩ := Option.map_eq_some_iff.mp hbytes
  obtain ⟨r, hr, -, hbody, hrepeated⟩ := duplicateBytes_le_repeated rules sessions hd
  exact ⟨d, r, hd, hr, hone, hbody, hrepeated⟩

end HttpCapture
