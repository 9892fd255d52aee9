import HttpCapture.Proofs.CacheRun

/-! Entries told by the decisions alone. An entry lives from the miss that creates it until
something at its path may not be cached, and is known by the identity it was last given. The cache
lists just the entries that live. -/

namespace HttpCapture

/-- A reply, the decision about it, and the place of the entry that it created or matched. -/
structure Visit where
  reply : Reply
  decision : CacheDecision
  place : Option Nat

namespace Visit

/-- A decision names an object when an entry for it was found or created. -/
def of (s : CacheStore) (r : Reply) (d : CacheDecision) : Visit :=
  ⟨r, d, d.identity.map fun i => (s.lookup i).getD s.entries.length⟩

def isFor (host path : String) (v : Visit) : Bool :=
  v.reply.asked.any fun a => a.host == host && a.path == path

/-- Whether objects at a path were forgotten. -/
def evicts (host path : String) (v : Visit) : Bool :=
  v.decision.diagnosis == .notCacheable && v.isFor host path

/-- Whether the entry at a place was created or changed. -/
def names (place : Nat) (v : Visit) : Bool :=
  v.place == some place &&
    (v.decision.diagnosis == .cacheMiss || v.decision.diagnosis == .objChanged)

section

variable {s : CacheStore} {r : Reply} {d : CacheDecision} {i : ObjectIdentity}

theorem place_of_missed (hi : d.identity = some i) (hnone : s.lookup i = none) :
    (Visit.of s r d).place = some s.entries.length := by
  simp [Visit.of, hi, hnone]

theorem place_of_found {place : Nat} (hi : d.identity = some i) (hlook : s.lookup i = some place) :
    (Visit.of s r d).place = some place := by
  simp [Visit.of, hi, hlook]

end

theorem names_of_isRepeat {v : Visit} (hd : v.decision.diagnosis.isRepeat = true) (place : Nat) :
    v.names place = false := by
  cases hdiagnosis : v.decision.diagnosis <;> simp_all [names, Diagnosis.isRepeat]

theorem names_iff {v : Visit} {place : Nat} (hplace : v.place = some place)
    (hd : v.decision.diagnosis = .cacheMiss ∨ v.decision.diagnosis = .objChanged) (p : Nat) :
    v.names p = true ↔ p = place := by
  rcases hd with hd | hd <;> simpa [names, hplace, hd] using eq_comm

end Visit

/-- An entry that was created by a miss and not evicted since, with the identity that it was given
last. -/
structure Live (visits : List Visit) (place : Nat) (i : ObjectIdentity) : Prop where
  created : ∃ before v after, visits = before ++ v :: after ∧ v.place = some place ∧
    v.decision.diagnosis = .cacheMiss ∧ ∀ w ∈ after, w.evicts i.host i.path = false
  identity : (visits.filter (·.names place)).getLast?.bind (·.decision.identity) = some i

namespace Live

variable {visits : List Visit} {v : Visit} {place : Nat} {i : ObjectIdentity}

theorem append_of_not_names (h : Live visits place i) (hn : v.names place = false)
    (he : v.evicts i.host i.path = false) : Live (visits ++ [v]) place i := by
  obtain ⟨before, w, after, rfl, hplace, hmiss, hafter⟩ := h.created
  refine ⟨⟨before, w, after ++ [v], by simp, hplace, hmiss, ?_⟩, ?_⟩
  · intro u hu
    rcases List.mem_append.mp hu with hu | hu
    · exact hafter u hu
    · exact List.mem_singleton.mp hu ▸ he
  · rw [List.filter_append, List.filter_cons_of_neg (by simp [hn]), List.filter_nil,
      List.append_nil]
    exact h.identity

theorem of_append_of_not_names (h : Live (visits ++ [v]) place i) (hn : v.names place = false) :
    Live visits place i ∧ v.evicts i.host i.path = false := by
  obtain ⟨before, w, after, hsplit, hplace, hmiss, hafter⟩ := h.created
  have hidentity := h.identity
  rw [List.filter_append, List.filter_cons_of_neg (by simp [hn]), List.filter_nil, List.append_nil]
    at hidentity
  rcases List.eq_nil_or_concat after with rfl | ⟨after, u, rfl⟩
  · obtain ⟨-, hw⟩ := List.append_inj' hsplit rfl
    obtain rfl : v = w := by simpa using hw
    exact absurd hn (by simp [Visit.names, hplace, hmiss])
  · rw [List.concat_eq_append, ← List.cons_append, ← List.append_assoc] at hsplit
    obtain ⟨hvisits, hu⟩ := List.append_inj' hsplit rfl
    obtain rfl : v = u := by simpa using hu
    have hlast := hafter v (by simp)
    have hafter : ∀ u ∈ after, u.evicts i.host i.path = false := fun u hu => hafter u (by simp [hu])
    exact ⟨⟨⟨before, w, after, hvisits, hplace, hmiss, hafter⟩, hidentity⟩, hlast⟩

theorem identity_of_names (h : Live (visits ++ [v]) place i) (hn : v.names place = true) :
    v.decision.identity = some i := by
  have hidentity := h.identity
  rwa [List.filter_append, List.filter_cons_of_pos hn, List.filter_nil, List.getLast?_concat,
    Option.bind_some] at hidentity

theorem of_miss (hplace : v.place = some place) (hmiss : v.decision.diagnosis = .cacheMiss)
    (hi : v.decision.identity = some i) : Live (visits ++ [v]) place i := by
  have hn : v.names place = true := by simp [Visit.names, hplace, hmiss]
  refine ⟨⟨visits, v, [], rfl, hplace, hmiss, by simp⟩, ?_⟩
  rw [List.filter_append, List.filter_cons_of_pos hn, List.filter_nil, List.getLast?_concat,
    Option.bind_some, hi]

theorem of_change {j : ObjectIdentity} (h : Live visits place j) (hplace : v.place = some place)
    (hchange : v.decision.diagnosis = .objChanged) (hi : v.decision.identity = some i)
    (hloose : j.loose = i.loose) : Live (visits ++ [v]) place i := by
  have hn : v.names place = true := by simp [Visit.names, hplace, hchange]
  have hhost : j.host = i.host := congrArg LooseIdentity.host hloose
  have hpath : j.path = i.path := congrArg LooseIdentity.path hloose
  obtain ⟨before, w, after, rfl, hw, hmiss, hafter⟩ := h.created
  refine ⟨⟨before, w, after ++ [v], by simp, hw, hmiss, ?_⟩, ?_⟩
  · intro u hu
    rcases List.mem_append.mp hu with hu | hu
    · rw [← hhost, ← hpath]
      exact hafter u hu
    · rw [List.mem_singleton.mp hu]
      simp [Visit.evicts, hchange]
  · rw [List.filter_append, List.filter_cons_of_pos hn, List.filter_nil, List.getLast?_concat,
      Option.bind_some, hi]

end Live

namespace CacheRules

def visit (rules : CacheRules) (s : CacheStore) (r : Reply) : Visit := .of s r (rules.step s r).2

def visitsFrom (rules : CacheRules) (s : CacheStore) : List Reply → List Visit
  | [] => []
  | r :: rs => rules.visit s r :: rules.visitsFrom (rules.step s r).1 rs

def visits (rules : CacheRules) (sessions : List Session) : List Visit :=
  rules.visitsFrom .empty (repliesOf sessions)

theorem visitsFrom_append_singleton (rules : CacheRules) (s : CacheStore) (rs : List Reply)
    (r : Reply) : rules.visitsFrom s (rs ++ [r]) =
      rules.visitsFrom s rs ++ [rules.visit (rules.replay s rs).1 r] := by
  induction rs generalizing s with
  | nil => rfl
  | cons q rs ih => exact congrArg (_ :: ·) (ih (rules.step s q).1)

theorem map_reply_visitsFrom (rules : CacheRules) (s : CacheStore) (rs : List Reply) :
    (rules.visitsFrom s rs).map (·.reply) = rs := by
  induction rs generalizing s with
  | nil => rfl
  | cons r rs ih => exact congrArg (r :: ·) (ih (rules.step s r).1)

theorem map_decision_visitsFrom (rules : CacheRules) (s : CacheStore) (rs : List Reply) :
    (rules.visitsFrom s rs).map (·.decision) = (rules.replay s rs).2 := by
  induction rs generalizing s with
  | nil => rfl
  | cons r rs ih => exact congrArg ((rules.step s r).2 :: ·) (ih (rules.step s r).1)

theorem map_decision_visits (rules : CacheRules) (sessions : List Session) :
    (rules.visits sessions).map (·.decision) = (rules.report sessions).decisions :=
  (rules.map_decision_visitsFrom _ _).trans (rules.tallies_report sessions).decisions.symm

theorem map_reply_visits (rules : CacheRules) (sessions : List Session) :
    (rules.visits sessions).map (·.reply) = repliesOf sessions :=
  rules.map_reply_visitsFrom _ _

theorem take_visitsFrom (rules : CacheRules) (s : CacheStore) (rs : List Reply) (n : Nat) :
    (rules.visitsFrom s rs).take n = rules.visitsFrom s (rs.take n) := by
  induction rs generalizing s n with
  | nil => simp [visitsFrom]
  | cons r rs ih =>
    cases n with
    | zero => rfl
    | succ n => exact congrArg (rules.visit s r :: ·) (ih (rules.step s r).1 n)

theorem getElem?_visitsFrom (rules : CacheRules) (s : CacheStore) (rs : List Reply) (n : Nat) :
    (rules.visitsFrom s rs)[n]? = rs[n]?.map (rules.visit (rules.replay s (rs.take n)).1) := by
  induction rs generalizing s n with
  | nil => simp [visitsFrom]
  | cons r rs ih =>
    cases n with
    | zero => rfl
    | succ n => exact ih (rules.step s r).1 n

end CacheRules

/-- The listing of a cache is what the visits to it tell. -/
structure Tracks (visits : List Visit) (s : CacheStore) : Prop where
  live : ∀ i place, Live visits place i ↔ s.byIdentity.get? i = some place
  /-- The identities that an entry was ever given differ in their entity tags alone. -/
  named : ∀ v ∈ visits, ∀ place, v.names place = true →
    ∃ j i, v.decision.identity = some j ∧ s.identities[place]? = some i ∧ j.loose = i.loose

namespace Tracks

variable {visits : List Visit} {v : Visit} {s t : CacheStore}

theorem empty : Tracks [] .empty := by
  refine ⟨fun i place => ⟨fun h => ?_, fun h => ?_⟩, fun v hv => absurd hv List.not_mem_nil⟩
  · obtain ⟨before, w, after, hsplit, -⟩ := h.created
    exact absurd hsplit (by simp)
  · exact absurd h (by simp [CacheStore.empty, Table.get?])

theorem append_of_not_names (h : Tracks visits s) (hn : ∀ place, v.names place = false)
    (hget : ∀ i, t.byIdentity.get? i =
      if v.evicts i.host i.path then none else s.byIdentity.get? i)
    (hids : t.identities = s.identities) : Tracks (visits ++ [v]) t := by
  constructor
  · intro i place
    rw [hget]
    cases he : v.evicts i.host i.path with
    | true =>
      constructor
      · intro hl
        rw [(hl.of_append_of_not_names (hn place)).2] at he
        exact absurd he (by simp)
      · exact fun hg => absurd hg (by simp)
    | false =>
      rw [if_neg (by simp), ← h.live]
      exact ⟨fun hl => (hl.of_append_of_not_names (hn place)).1,
        fun hl => hl.append_of_not_names (hn place) he⟩
  · intro w hw place hnames
    rw [hids]
    rcases List.mem_append.mp hw with hw | hw
    · exact h.named w hw place hnames
    · rw [List.mem_singleton.mp hw, hn place] at hnames
      exact absurd hnames (by simp)

theorem append_of_names (h : Tracks visits s) {place : Nat} {new : ObjectIdentity}
    (hplace : v.place = some place)
    (hd : v.decision.diagnosis = .cacheMiss ∨ v.decision.diagnosis = .objChanged)
    (hnew : v.decision.identity = some new) (hlive : Live (visits ++ [v]) place new)
    (hrelists : s.Relists t place new)
    (hloose : ∀ i, s.identities[place]? = some i → i.loose = new.loose) :
    Tracks (visits ++ [v]) t := by
  have hnames := Visit.names_iff hplace hd
  have hevicts : ∀ host path, v.evicts host path = false := by
    intro host path
    rcases hd with hd | hd <;> simp [Visit.evicts, hd]
  constructor
  · intro i p
    rw [hrelists.listed]
    by_cases hp : p = place
    · subst hp
      rw [if_pos rfl]
      constructor
      · intro hl
        have hi := hl.identity_of_names ((hnames p).mpr rfl)
        exact Option.some.inj (hi.symm.trans hnew)
      · rintro rfl
        exact hlive
    · have hn : v.names p = false := by
        rw [Bool.eq_false_iff, Ne, hnames]
        exact hp
      rw [if_neg hp, ← h.live]
      exact ⟨fun hl => (hl.of_append_of_not_names hn).1,
        fun hl => hl.append_of_not_names hn (hevicts _ _)⟩
  · intro w hw p hwn
    rw [hrelists.identities]
    rcases List.mem_append.mp hw with hw | hw
    · obtain ⟨j, i, hj, hi, hji⟩ := h.named w hw p hwn
      by_cases hp : p = place
      · exact ⟨j, new, hj, if_pos hp, hji.trans (hloose i (hp ▸ hi))⟩
      · exact ⟨j, i, hj, by rw [if_neg hp, hi], hji⟩
    · obtain rfl := List.mem_singleton.mp hw
      exact ⟨new, new, hnew, if_pos ((hnames p).mp hwn), rfl⟩

end Tracks

end HttpCapture
