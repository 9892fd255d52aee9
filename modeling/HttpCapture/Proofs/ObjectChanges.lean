import HttpCapture.Proofs.CacheHistory
import HttpCapture.Proofs.RepeatedBytes
import HttpCapture.Proofs.ReplyOrder

/-! When an object counts as changed. A reply is compared with the one by which its entry was
created or last changed. Where the two have an offset of the object in common, a change is a
difference that can be seen. Parts that have none in common count as a change as well. -/

namespace HttpCapture

/-- What shows that two replies do not carry the same object. -/
inductive Reply.Differ (c : Completeness) (stored r : Reply) : Prop
  | date (h : stored.response.header? "last-modified" ≠ r.response.header? "last-modified")
  | unreadable
      (h : (stored.capture.content c).toOption = none ∨ (r.capture.content c).toOption = none)
  | content (hwhole : Capture.areWhole stored.capture r.capture = true)
      (h : stored.capture.content c ≠ r.capture.content c)
  | byte {offset : Nat} {a b : UInt8} (ha : stored.capture.byteAt? c offset = some a)
      (hb : r.capture.byteAt? c offset = some b) (h : a ≠ b)

namespace Capture

variable {c : Completeness} {a b : Capture} {ca cb : Bytes}

def span? (c : Completeness) (x : Capture) : Option ByteRange := x.exchange.span? c x.stream

/-- Both are whole objects, or both span some offset. -/
def Comparable (c : Completeness) (a b : Capture) : Prop :=
  areWhole a b = true ∨ ∃ ra ∈ a.span? c, ∃ rb ∈ b.span? c, ∃ x ∈ ra.positions, x ∈ rb.positions

theorem span?_of_content (ha : a.content c = .ok ca) :
    a.span? c = a.exchange.placement ca.length := by
  rw [span?, Exchange.span?, show a.exchange.content c a.stream = .ok ca from ha]
  rfl

theorem overlap_isSome {a b : Exchange} {ra rb : ByteRange} (ha : a.placement ca.length = some ra)
    (hb : b.placement cb.length = some rb) {x : Nat} (hxa : x ∈ ra.positions)
    (hxb : x ∈ rb.positions) : (overlap a ca b cb).isSome = true := by
  have hpositions := ByteRange.positions_inter? ra rb
  cases hinter : ra.inter? rb with
  | none =>
    have hx : x ∈ ra.positions ∩ rb.positions := Finset.mem_inter.mpr ⟨hxa, hxb⟩
    rw [← hpositions, hinter] at hx
    exact absurd hx (by simp)
  | some part => simp [overlap, ha, hb, hinter]

theorem overlap_differs {a b : Exchange} {r : ByteRange} (h : overlap a ca b cb = some (r, false)) :
    ∃ x u v, a.origin ≤ x ∧ b.origin ≤ x ∧ ca[x - a.origin]? = some u ∧
      cb[x - b.origin]? = some v ∧ u ≠ v := by
  obtain ⟨hpositions, hr, oa, ob, hoa, hob, hra, hrb, hsame⟩ := overlap_eq_some h
  obtain ⟨x, hx, hbytes⟩ := exists_ne_of_window_ne hr hra hrb (beq_eq_false_iff_ne.mp hsame)
  rw [hpositions, Finset.mem_inter, Finset.mem_Ico, Finset.mem_Ico] at hx
  obtain ⟨⟨hxa, hxa'⟩, hxb, hxb'⟩ := hx
  have hu : x - a.origin < ca.length := by omega
  have hv : x - b.origin < cb.length := by omega
  rw [hoa, hob, List.getElem?_eq_getElem hu, List.getElem?_eq_getElem hv] at hbytes
  exact ⟨x, _, _, hxa, hxb, List.getElem?_eq_getElem hu, List.getElem?_eq_getElem hv,
    fun heq => hbytes (congrArg some heq)⟩

end Capture

namespace Reply

theorem Differ.of_content {c : Completeness} {stored r : Reply}
    (hsame : Capture.sameContent c stored.capture r.capture = false)
    (hcomparable : Capture.Comparable c stored.capture r.capture) : Differ c stored r := by
  cases hs : stored.capture.content c with
  | error => exact .unreadable (.inl (by rw [hs]; rfl))
  | ok cs =>
    cases hr : r.capture.content c with
    | error => exact .unreadable (.inr (by rw [hr]; rfl))
    | ok cr =>
      rw [Capture.sameContent, hs, hr] at hsame
      dsimp only at hsame
      by_cases hwhole : Capture.areWhole stored.capture r.capture = true
      · rw [if_pos hwhole] at hsame
        have hne : cs ≠ cr := by simpa using hsame
        apply Differ.content hwhole
        rw [hs, hr]
        exact fun heq => hne (Except.ok.inj heq)
      · rw [if_neg hwhole] at hsame
        obtain ⟨ra, hra, rb, hrb, x, hxa, hxb⟩ := hcomparable.resolve_left hwhole
        rw [Capture.span?_of_content hs] at hra
        rw [Capture.span?_of_content hr] at hrb
        have hsome := Capture.overlap_isSome hra hrb hxa hxb
        obtain ⟨⟨part, same⟩, hoverlap⟩ := Option.isSome_iff_exists.mp hsome
        have hfalse : same = false := by simpa [hoverlap] using hsame
        rw [hfalse] at hoverlap
        obtain ⟨y, u, v, hya, hyb, hu, hv, hne⟩ := Capture.overlap_differs hoverlap
        have hstored : stored.capture.byteAt? c y = some u := by
          rw [Capture.byteAt?_of_content hs hya, hu]
        have hreply : r.capture.byteAt? c y = some v := by
          rw [Capture.byteAt?_of_content hr hyb, hv]
        exact .byte hstored hreply hne

theorem Differ.of_not_unchanged {c : Completeness} {stored r : Reply}
    (h : r.unchanged stored c = false)
    (hcomparable : Capture.Comparable c stored.capture r.capture) : Differ c stored r := by
  rw [unchanged, Bool.and_eq_false_iff] at h
  rcases h with hsame | hdate
  · exact .of_content hsame hcomparable
  · exact .date (by simpa using hdate)

end Reply

namespace CacheRules

variable {rules : CacheRules} {s : CacheStore} {r : Reply} {a : Asked}

theorem step_of_cacheable (hr : rules.Cacheable r a) :
    rules.step s r = rules.judge s r a a.path := by
  unfold step
  rw [hr.asked]
  dsimp only
  rw [hr.admitted, hr.requestStores, hr.replyStores]
  rcases hr.status with hs | hs <;> rw [hs] <;> rfl

theorem judge_of_matched {place : Nat} {entry : CacheEntry}
    (hlook : s.lookup (rules.identityOf r a) = some place)
    (hentry : s.entries[place]? = some entry) :
    rules.judge s r a a.path = rules.hit s place entry r a (rules.identityOf r a) := by
  unfold judge
  dsimp only
  rw [show r.identity rules.completeness a.host a.path = rules.identityOf r a from rfl, hlook,
    Option.bind_some, hentry]
  rfl

theorem compare_eq_objChanged {entry : CacheEntry} {judged : Freshness}
    (h : (rules.compare s entry r a judged).1 = .objChanged) :
    judged.isExpired = true ∧ r.unchanged entry.stored rules.completeness = false := by
  unfold compare at h
  dsimp only at h
  split at h
  · split at h
    · exact absurd h (by simp)
    · split at h
      · exact absurd h (by simp)
      · split at h <;> exact absurd h (by simp)
  · next hexpired =>
    split at h
    · split at h <;> exact absurd h (by simp)
    · next hchanged => exact ⟨by simpa using hexpired, by simpa using hchanged⟩

/-- A change is found against what the matched entry holds, once it may not be used unasked. -/
theorem exists_stored_of_objChanged (hs : s.Consistent)
    (hd : (rules.step s r).2.diagnosis = .objChanged) :
    ∃ place entry, (rules.visit s r).place = some place ∧ s.entries[place]? = some entry ∧
      r.unchanged entry.stored rules.completeness = false := by
  have hmatched : ∃ a place entry, rules.Cacheable r a ∧
      s.lookup (rules.identityOf r a) = some place ∧ s.entries[place]? = some entry ∧
      (rules.step s r).2.identity = some (rules.identityOf r a) := by
    have ho := rules.outcome_step hs r
    generalize rules.step s r = o at ho hd ⊢
    cases ho with
    | ignored hno hd' =>
      rcases hd' with rfl | rfl | rfl <;> exact absurd hd (by simp [Reply.rejected])
    | evicted => exact absurd hd (by simp [Reply.rejected])
    | revalidated => exact absurd hd (by simp [Reply.rejected])
    | missed => exact absurd hd (by simp [miss])
    | changed hr hlook hmatch => exact ⟨_, _, _, hr, hlook, hmatch.present, rfl⟩
    | repeated hr hlook hmatch => exact ⟨_, _, _, hr, hlook, hmatch.present, rfl⟩
  obtain ⟨a, place, entry, hr, hlook, hentry, hidentity⟩ := hmatched
  refine ⟨place, entry, Visit.place_of_found hidentity hlook, hentry, ?_⟩
  rw [step_of_cacheable hr, judge_of_matched hlook hentry] at hd
  exact (compare_eq_objChanged hd).2

end CacheRules

/-- The reply that visits have left in the entry at a place. -/
def storedBy (visits : List Visit) (place : Nat) : Option Reply :=
  (visits.filter (·.names place)).getLast?.map (·.reply)

namespace CacheStore

def storedReplies (s : CacheStore) : List Reply := s.entries.map (·.stored)

theorem getElem?_storedReplies_insert (s : CacheStore) (e : CacheEntry) (place : Nat) :
    (s.insert e).storedReplies[place]? =
      if place = s.entries.length then some e.stored else s.storedReplies[place]? := by
  have hlength : s.storedReplies.length = s.entries.length := List.length_map _
  have hinserted : (s.insert e).storedReplies = s.storedReplies ++ [e.stored] := by
    simp [storedReplies, insert]
  rw [hinserted, ← hlength]
  by_cases hp : place = s.storedReplies.length
  · rw [if_pos hp, hp, List.getElem?_concat_length]
  · rw [if_neg hp, List.getElem?_append]
    split
    · rfl
    · rw [List.getElem?_eq_none (by simp; omega), List.getElem?_eq_none (by omega)]

theorem getElem?_storedReplies_replace {s : CacheStore} {place : Nat} (h : place < s.entries.length)
    (old new : ObjectIdentity) (request : ExchangeRef) (r : Reply) (p : Nat) :
    (s.replace place old new request r).storedReplies[p]? =
      if p = place then some r else s.storedReplies[p]? := by
  rw [storedReplies, storedReplies, replace, List.getElem?_map, List.getElem?_map,
    List.getElem?_modify]
  by_cases hp : p = place
  · subst hp
    simp [h]
  · have hp' : place ≠ p := fun he => hp he.symm
    simp [hp, hp']

theorem storedReplies_countHit (s : CacheStore) (place : Nat) :
    (s.countHit place).storedReplies = s.storedReplies :=
  s.map_modifyEntry place fun _ => rfl

theorem storedReplies_addDuplicate (s : CacheStore) (place : Nat) (ref : ExchangeRef)
    (bytes : Nat) : (s.addDuplicate place ref bytes).storedReplies = s.storedReplies :=
  s.map_modifyEntry place fun _ => rfl

theorem storedReplies_revalidate (s : CacheStore) (host path : String) :
    (s.revalidate host path).storedReplies = s.storedReplies := by
  unfold revalidate
  split
  · exact s.map_modifyEntry _ fun _ => rfl
  · rfl

theorem storedReplies_merge (s : CacheStore) (i : ObjectIdentity) (range : Option ByteRange)
    (r : Reply) : (s.merge i range r).storedReplies = s.storedReplies := by
  rw [storedReplies, (s.listing_merge i range r).2.2, storedReplies]

/-- Every entry holds the reply by which it was created or last changed. -/
def StoresLast (visits : List Visit) (s : CacheStore) : Prop :=
  ∀ place, s.storedReplies[place]? = storedBy visits place

namespace StoresLast

variable {visits : List Visit} {v : Visit} {s t : CacheStore}

theorem append_of_not_names (h : StoresLast visits s) (hn : ∀ place, v.names place = false)
    (ht : t.storedReplies = s.storedReplies) : StoresLast (visits ++ [v]) t := by
  intro place
  rw [ht, h place, storedBy, storedBy, List.filter_append,
    List.filter_cons_of_neg (by simp [hn place]), List.filter_nil, List.append_nil]

theorem append_of_names (h : StoresLast visits s) {place : Nat}
    (hn : ∀ p, v.names p = true ↔ p = place)
    (ht : ∀ p, t.storedReplies[p]? = if p = place then some v.reply else s.storedReplies[p]?) :
    StoresLast (visits ++ [v]) t := by
  intro p
  rw [ht, storedBy, List.filter_append]
  by_cases hp : p = place
  · rw [if_pos hp, List.filter_cons_of_pos ((hn p).mpr hp), List.filter_nil, List.getLast?_concat]
    rfl
  · rw [if_neg hp, h p, List.filter_cons_of_neg fun hv => hp ((hn p).mp hv), List.filter_nil,
      List.append_nil]
    rfl

end StoresLast

end CacheStore

namespace CacheRules

variable {rules : CacheRules} {s : CacheStore} {r : Reply}

theorem Outcome.storesLast {visits : List Visit} {o : CacheStore × CacheDecision}
    (ho : rules.Outcome s r o) (h : s.StoresLast visits) :
    o.1.StoresLast (visits ++ [Visit.of s r o.2]) := by
  cases ho with
  | ignored => exact h.append_of_not_names (fun _ => rfl) rfl
  | evicted => exact h.append_of_not_names (fun _ => rfl) rfl
  | revalidated =>
    exact h.append_of_not_names (fun _ => rfl) (s.storedReplies_revalidate _ _)
  | @missed a hr hnone =>
    refine h.append_of_names
      (Visit.names_iff (Visit.place_of_missed rfl hnone) (.inl rfl)) fun p => ?_
    rw [miss, CacheStore.storedReplies_merge, CacheStore.getElem?_storedReplies_insert]
    rfl
  | @changed a place entry judged hr hlook hmatch =>
    refine h.append_of_names
      (Visit.names_iff (Visit.place_of_found rfl hlook) (.inr rfl)) fun p => ?_
    rw [CacheStore.storedReplies_merge,
      CacheStore.getElem?_storedReplies_replace hmatch.lt_length_countHit,
      CacheStore.storedReplies_countHit]
    rfl
  | @repeated a place entry judged d bytes uncovered hr hlook hmatch hd hbytes =>
    refine h.append_of_not_names (Visit.names_of_isRepeat hd) ?_
    rw [CacheStore.storedReplies_merge, CacheStore.storedReplies_addDuplicate,
      CacheStore.storedReplies_countHit]

theorem storesLast_visitsFrom (rules : CacheRules) (rs : List Reply) :
    (rules.storeAfter rs).StoresLast (rules.visitsFrom .empty rs) := by
  induction rs using List.reverseRecOn with
  | nil => exact fun _ => rfl
  | append_singleton rs r ih =>
    rw [storeAfter_append_singleton, visitsFrom_append_singleton]
    exact (rules.outcome_step (rules.consistent_storeAfter rs) r).storesLast ih

end CacheRules

/-- A reply found to change the object of an entry differs from the reply by which the entry was
created or last changed, if the two can be compared. -/
theorem differ_of_objChanged (rules : CacheRules) (sessions : List Session) {n : Nat} {v : Visit}
    (hv : (rules.visits sessions)[n]? = some v) (hd : v.decision.diagnosis = .objChanged) :
    ∃ place stored, v.place = some place ∧
      storedBy ((rules.visits sessions).take n) place = some stored ∧
      (Capture.Comparable rules.completeness stored.capture v.reply.capture →
        Reply.Differ rules.completeness stored v.reply) := by
  rw [CacheRules.visits, CacheRules.getElem?_visitsFrom, Option.map_eq_some_iff] at hv
  obtain ⟨r, -, rfl⟩ := hv
  have hs := rules.consistent_storeAfter ((repliesOf sessions).take n)
  have hlast := rules.storesLast_visitsFrom ((repliesOf sessions).take n)
  obtain ⟨place, entry, hplace, hentry, hchanged⟩ := CacheRules.exists_stored_of_objChanged hs hd
  have hstored := hlast place
  rw [CacheStore.storedReplies, List.getElem?_map, hentry, Option.map_some,
    ← CacheRules.take_visitsFrom] at hstored
  exact ⟨place, entry.stored, hplace, hstored.symm, Reply.Differ.of_not_unchanged hchanged⟩

/-- Parts of an object of four bytes that may not be used again unasked. -/
def sampleParts (parts : List (String × String)) : Session :=
  sampleConversation (parts.map fun (range, body) => sampleReply "206 Partial Content"
    ("Content-Range: bytes " ++ range ++ "/4\r\nCache-Control: no-cache") body)

/-- Two parts with one offset in common, where the second part has another byte. -/
theorem differ_of_objChanged_of_overlap :
    let rules : CacheRules := ⟨.standard, .standard⟩
    let s := sampleParts [("0-1", "ab"), ("1-2", "xc")]
    let sessions := Session.reassembleEach [(s, ⟨.standard, 200⟩, 0)]
    ∃ stored v, (rules.visits sessions)[1]? = some v ∧ v.decision.diagnosis = .objChanged ∧
      storedBy ((rules.visits sessions).take 1) 0 = some stored ∧
      Capture.Comparable rules.completeness stored.capture v.reply.capture ∧
      Reply.Differ rules.completeness stored v.reply := by
  intro rules s sessions
  have hreplies : repliesOf sessions = unsortedReplies [s.listedAsFound ⟨.standard, 200⟩ 0] :=
    repliesOf_reassembleEach (by decide) (by decide) (by decide +kernel) (by decide +kernel)
  have hvisits : (rules.visits sessions).map (fun v =>
      (v.decision.diagnosis, v.place, v.reply.capture.span? rules.completeness)) =
        [(.cacheMiss, some 0, some ⟨0, 1⟩), (.objChanged, some 0, some ⟨1, 2⟩)] := by
    rw [CacheRules.visits, hreplies]
    decide +kernel
  obtain ⟨first, rest, hrun, hfirst, hrest⟩ := List.map_eq_cons_iff.mp hvisits
  obtain ⟨second, last, rfl, hsecond, hlast⟩ := List.map_eq_cons_iff.mp hrest
  obtain rfl := List.map_eq_nil_iff.mp hlast
  simp only [Prod.mk.injEq] at hfirst hsecond
  obtain ⟨hmiss, hplace, hspan⟩ := hfirst
  obtain ⟨hchanged, hplace', hspan'⟩ := hsecond
  have hv : (rules.visits sessions)[1]? = some second := by rw [hrun]; rfl
  obtain ⟨place, stored, hp, hstored, hdiffer⟩ := differ_of_objChanged rules sessions hv hchanged
  obtain rfl : 0 = place := Option.some.inj (hplace'.symm.trans hp)
  have hfirst : stored = first.reply := by
    have hnames : first.names 0 = true := by simp [Visit.names, hplace, hmiss]
    rw [hrun] at hstored
    simpa [storedBy, hnames] using hstored.symm
  have hcomparable : Capture.Comparable rules.completeness stored.capture second.reply.capture :=
    .inr ⟨_, hfirst ▸ hspan, _, hspan', 1, by decide, by decide⟩
  exact ⟨stored, second, hv, hchanged, hstored, hcomparable, hdiffer hcomparable⟩

/-- Two parts of one object that do not overlap count as a change, though nothing shows one. -/
theorem objChanged_of_disjoint_parts :
    let rules : CacheRules := ⟨.standard, .standard⟩
    let s := sampleParts [("0-1", "ab"), ("2-3", "cd")]
    let sessions := Session.reassembleEach [(s, ⟨.standard, 200⟩, 0)]
    ∃ v, (rules.visits sessions)[1]? = some v ∧ v.decision.diagnosis = .objChanged ∧
      ∀ stored ∈ (repliesOf sessions).take 1, ¬Reply.Differ rules.completeness stored v.reply := by
  intro rules s sessions
  have hreplies : repliesOf sessions = unsortedReplies [s.listedAsFound ⟨.standard, 200⟩ 0] :=
    repliesOf_reassembleEach (by decide) (by decide) (by decide +kernel) (by decide +kernel)
  have hvisits : (rules.visits sessions).map (fun v =>
      (v.decision.diagnosis, v.reply.response.header? "last-modified",
        (v.reply.capture.content rules.completeness).toOption, v.reply.response.range)) =
        [(.cacheMiss, none, some [97, 98], some ⟨0, 1⟩),
          (.objChanged, none, some [99, 100], some ⟨2, 3⟩)] := by
    rw [CacheRules.visits, hreplies]
    decide +kernel
  obtain ⟨first, rest, hrun, hfirst, hrest⟩ := List.map_eq_cons_iff.mp hvisits
  obtain ⟨second, last, rfl, hsecond, hlast⟩ := List.map_eq_cons_iff.mp hrest
  obtain rfl := List.map_eq_nil_iff.mp hlast
  simp only [Prod.mk.injEq] at hfirst hsecond
  obtain ⟨-, hdate, hcontent, hrange⟩ := hfirst
  obtain ⟨hchanged, hdate', hcontent', hrange'⟩ := hsecond
  have hreplies : repliesOf sessions = [first.reply, second.reply] := by
    rw [← rules.map_reply_visitsFrom .empty (repliesOf sessions)]
    exact congrArg (List.map (·.reply)) hrun
  refine ⟨second, by rw [hrun]; rfl, hchanged, fun stored hstored hdiffer => ?_⟩
  obtain rfl : stored = first.reply := by simpa [hreplies] using hstored
  cases hdiffer with
  | date h => exact h (hdate.trans hdate'.symm)
  | unreadable h => simp [hcontent, hcontent'] at h
  | content hwhole =>
    have hrange : first.reply.capture.exchange.range = some ⟨0, 1⟩ := hrange
    simp [Capture.areWhole, hrange] at hwhole
  | @byte offset x y hx hy =>
    have hrange : first.reply.capture.exchange.range = some ⟨0, 1⟩ := hrange
    have hrange' : second.reply.capture.exchange.range = some ⟨2, 3⟩ := hrange'
    have hx := (List.getElem?_eq_some_iff.mp (show [97, 98][offset]? = some x by
      simpa [Capture.byteAt?, hcontent, Exchange.origin, hrange] using hx)).1
    have hy : 2 ≤ offset := by
      by_contra hlt
      simp [Capture.byteAt?, hcontent', Exchange.origin, hrange', hlt] at hy
    have hlt : offset < 2 := hx
    omega

end HttpCapture
