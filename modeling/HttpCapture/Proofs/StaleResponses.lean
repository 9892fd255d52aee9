import HttpCapture.Proofs.PassedTime

/-! How staleness goes on. The rules by lifetimes compare a moment that is fixed with the present
one, so what they find stale stays stale, and a request that asks for more finds no less. The
assumed lifetime is compared with the time that has passed. -/

namespace HttpCapture

namespace Lifetimes

variable {t : Lifetimes} {now₁ now₂ : Instant}

theorem isPast_mono {moment : Option Instant} (hle : now₂.lt now₁ = false)
    (h : isPast now₁ moment = true) : isPast now₂ moment = true := by
  cases moment with
  | none => cases h
  | some moment =>
    simp only [isPast, Option.any_some, Instant.lt_eq_true, Instant.lt_eq_false] at *
    omega

theorem isExpired_mono (hle : now₂.lt now₁ = false) (h : t.isExpired now₁ = true) :
    t.isExpired now₂ = true := by
  simp only [isExpired, Bool.or_eq_true] at h ⊢
  exact h.imp_left (.imp_left (.imp (.imp (isPast_mono hle) (isPast_mono hle)) (isPast_mono hle)))

theorem isFresh_of_later (hle : now₂.lt now₁ = false) (h : t.isFresh now₂ = true) :
    t.isFresh now₁ = true := by
  rw [Instant.lt_eq_false] at hle
  simp only [isFresh, Bool.or_eq_true] at h ⊢
  refine h.imp (fun hexpires => ?_) fun huntil => ?_
  · cases he : t.expires with
    | none => simp [he] at hexpires
    | some e =>
      simp only [he, Option.any_some, Instant.lt_eq_true] at hexpires ⊢
      omega
  · cases hu : t.freshUntil with
    | none => simp [hu] at huntil
    | some u =>
      simp only [hu, Option.any_some, Bool.not_eq_true', Instant.lt_eq_false] at huntil ⊢
      omega

/-- An expiry decides at every moment but its own. -/
theorem isExpired_of_expires {e : Nat} (he : t.expires = some e) (hfresh : t.isFresh now₁ = false)
    (hlt : now₁.lt now₂ = true) : t.isExpired now₂ = true := by
  simp only [isFresh, he, Option.any_some, Bool.or_eq_false_iff, Instant.lt_eq_false] at hfresh
  have hpast : isPast now₂ (t.expires.map dateInstant) = true := by
    rw [Instant.lt_eq_true] at hlt
    simp only [isPast, he, Option.map_some, Option.any_some, Instant.lt_eq_true]
    omega
  simp [isExpired, hpast]

end Lifetimes

/-- When a response was sent: its date, or the time of its capture if it has none. -/
def Exchange.sentAt (stored : Exchange) : Instant :=
  ((stored.fields.date? "date").map dateInstant).getD (Instant.ofTimestamp stored.timestamp)

theorem isExpired_freshness {stored request : Exchange} {now : Instant} {assumed : Int} :
    (freshness stored request now assumed).isExpired = true ↔
      (CacheDirectives.ofFields stored.fields).noCache = true ∨
      (CacheDirectives.ofFields request.fields).noCache = true ∨
      (Lifetimes.of stored request).isExpired now = true ∨
      (Lifetimes.of stored request).isFresh now = false ∧
        (now.since stored.sentAt).lt (Span.ofSeconds assumed) = false := by
  unfold freshness
  dsimp only
  rw [show ((Lifetimes.of stored request).date.map dateInstant).getD
    (Instant.ofTimestamp stored.timestamp) = stored.sentAt from rfl]
  generalize (CacheDirectives.ofFields stored.fields).noCache = forbidden
  generalize (CacheDirectives.ofFields request.fields).noCache = unwanted
  generalize (Lifetimes.of stored request).isExpired now = expired
  generalize (Lifetimes.of stored request).isFresh now = fresh
  generalize (now.since stored.sentAt).lt (Span.ofSeconds assumed) = young
  revert forbidden unwanted expired fresh young
  decide

/-- Where nothing is said about lifetimes, a response stays fresh if the assumed one outlasts any
capture. -/
theorem freshness_of_undated {stored request : Exchange} {assumed : Int}
    (hstored : (CacheDirectives.ofFields stored.fields).noCache = false)
    (hrequest : (CacheDirectives.ofFields request.fields).noCache = false)
    (hlifetimes : Lifetimes.of stored request = ⟨none, none, none, none, none, none⟩)
    (hassumed : Span.ofSeconds assumed = .longest) :
    freshness stored request (Instant.ofTimestamp request.timestamp) assumed = .freshByAge := by
  have hspan := Instant.since_lt_longest request.timestamp stored.timestamp
  unfold freshness
  dsimp only
  rw [hstored, hrequest, hlifetimes, hassumed]
  simp [Lifetimes.isExpired, Lifetimes.isFresh, Lifetimes.isPast, Lifetimes.freshUntil,
    Lifetimes.acceptedUntil, Lifetimes.arrivedOld, Lifetimes.arrivedExpired, hspan]

/-- Leap seconds make no difference between two moments: none begins or ends between them while
they are close, or the response was sent on a whole second, as with every date, or says when it
expires. -/
def Exchange.UntouchedByLeap (stored : Exchange) (now₁ now₂ : Instant) : Prop :=
  now₁.CountAlike now₂ ∨ stored.sentAt.nanos = 0 ∨
    (stored.fields.date? "expires").isSome = true

/-- The second request asks for no less than the first. It has the same date, takes no stored
response if the first takes none, and sets a max-age that is no longer, or any at all if the first
sets none. -/
structure Exchange.AsksMore (request request' : Exchange) : Prop where
  date : request'.fields.date? "date" = request.fields.date? "date"
  noCache : (CacheDirectives.ofFields request.fields).noCache = true →
    (CacheDirectives.ofFields request'.fields).noCache = true
  maxAge : ∀ m, (CacheDirectives.ofFields request.fields).maxAge = some m →
    ∃ m' ≤ m, (CacheDirectives.ofFields request'.fields).maxAge = some m'

section

variable {stored request request' : Exchange} {now now₁ now₂ : Instant}
  {assumed assumed₁ assumed₂ : Int}

theorem Exchange.sentAt_spec (stored : Exchange) : Instant.firstSecond ≤ stored.sentAt.seconds ∧
    (stored.sentAt.nanos < 1000000000 ∨ stored.sentAt.seconds = -1) := by
  unfold sentAt
  cases stored.fields.date? "date" with
  | none => exact Instant.ofTimestamp_spec _
  | some d =>
    simp only [Option.map_some, Option.getD_some, dateInstant, Instant.firstSecond]
    omega

theorem not_young_of_passed_le (h₁ : now₁.IsValid) (h₂ : now₂.IsValid) (hassumed : 0 ≤ assumed₁)
    (hshorter : assumed₁ ≤ assumed₂)
    (hpassed : (now₁.since stored.sentAt).seconds ≤ (now₂.since stored.sentAt).seconds)
    (hold : (now₁.since stored.sentAt).lt (Span.ofSeconds assumed₂) = false) :
    (now₂.since stored.sentAt).lt (Span.ofSeconds assumed₁) = false := by
  obtain ⟨hfirst, hbase⟩ := stored.sentAt_spec
  rw [← Bool.not_eq_true, Instant.since_lt_ofSeconds h₁ hfirst hbase (by omega)] at hold
  rw [← Bool.not_eq_true, Instant.since_lt_ofSeconds h₂ hfirst hbase hassumed]
  omega

theorem isExpired_freshness_mono (h₁ : now₁.IsValid) (h₂ : now₂.IsValid)
    (hle : now₂.lt now₁ = false) (hassumed : 0 ≤ assumed₁) (hshorter : assumed₁ ≤ assumed₂)
    (hleap : stored.UntouchedByLeap now₁ now₂)
    (hstale : (freshness stored request now₁ assumed₂).isExpired = true) :
    (freshness stored request now₂ assumed₁).isExpired = true := by
  rw [isExpired_freshness] at hstale ⊢
  rcases hstale with hstale | hstale | hstale | ⟨hfresh, hold⟩
  · exact .inl hstale
  · exact .inr (.inl hstale)
  · exact .inr (.inr (.inl (Lifetimes.isExpired_mono hle hstale)))
  · have hlater : (Lifetimes.of stored request).isFresh now₂ = false := by
      rw [← Bool.not_eq_true] at hfresh ⊢
      exact fun h => hfresh (Lifetimes.isFresh_of_later hle h)
    have hpassed (hsteady : stored.sentAt.nanos = 0 ∨ now₁.CountAlike now₂) :=
      Instant.since_seconds_mono h₁ h₂ hle stored.sentAt_spec.2 hsteady
    have hbyAge := fun hpassed => not_young_of_passed_le h₁ h₂ hassumed hshorter hpassed hold
    rcases hleap with hleap | hsent | hexpires
    · exact .inr (.inr (.inr ⟨hlater, hbyAge (hpassed (.inr hleap))⟩))
    · exact .inr (.inr (.inr ⟨hlater, hbyAge (hpassed (.inl hsent))⟩))
    -- What expires is left to the assumed lifetime at one moment only.
    · obtain ⟨e, he⟩ := Option.isSome_iff_exists.mp hexpires
      cases hlt : now₁.lt now₂ with
      | true => exact .inr (.inr (.inl (Lifetimes.isExpired_of_expires he hfresh hlt)))
      | false =>
        obtain rfl := Instant.eq_of_not_lt hlt hle
        exact .inr (.inr (.inr ⟨hlater, hbyAge (Int.le_refl _)⟩))

theorem momentAfter_mono (date : Nat) {shorter longer : Nat} (h : shorter ≤ longer) :
    (momentAfter date longer).lt (momentAfter date shorter) = false := by
  rw [Instant.lt_eq_false]
  unfold momentAfter
  split
  · split
    · simp only [dateInstant]
      omega
    · simp only [dateInstant, Instant.latest]
      omega
  · rw [if_neg (by omega)]
    exact .inr ⟨rfl, Nat.le_refl _⟩

theorem isPast_acceptedUntil (h : request.AsksMore request')
    (hpast : Lifetimes.isPast now (Lifetimes.of stored request).acceptedUntil = true) :
    Lifetimes.isPast now (Lifetimes.of stored request').acceptedUntil = true := by
  cases hage : (CacheDirectives.ofFields request.fields).maxAge with
  | none => simp [Lifetimes.acceptedUntil, Lifetimes.of, hage, Lifetimes.isPast] at hpast
  | some m =>
    obtain ⟨m', hm', hage'⟩ := h.maxAge m hage
    simp only [Lifetimes.acceptedUntil, Lifetimes.of, hage, hage', h.date] at hpast ⊢
    cases hbase : request.fields.date? "date" <|> stored.fields.date? "date" with
    | none => simp [hbase, Lifetimes.isPast] at hpast
    | some d =>
      have hearlier := momentAfter_mono d hm'
      simp only [hbase, Lifetimes.isPast, Option.any_some, Instant.lt_eq_true,
        Instant.lt_eq_false] at hpast hearlier ⊢
      omega

theorem isExpired_freshness_of_asksMore (h : request.AsksMore request')
    (hstale : (freshness stored request now assumed).isExpired = true) :
    (freshness stored request' now assumed).isExpired = true := by
  rw [isExpired_freshness] at hstale ⊢
  rcases hstale with hstale | hstale | hstale | hstale
  · exact .inl hstale
  · exact .inr (.inl (h.noCache hstale))
  · refine .inr (.inr (.inl ?_))
    simp only [Lifetimes.isExpired, Bool.or_eq_true] at hstale ⊢
    exact hstale.imp_left (.imp_left (.imp_right (isPast_acceptedUntil h)))
  · exact .inr (.inr (.inr hstale))

end

/-- The request with one more Cache-Control field. -/
def Exchange.addCacheControl (request : Exchange) (value : Bytes) : Exchange :=
  { request with fields := request.fields ++ [⟨"cache-control", value⟩] }

/-- A further Cache-Control field asks for no less, whatever it says. -/
theorem asksMore_addCacheControl (request : Exchange) (value : Bytes) :
    request.AsksMore (request.addCacheControl value) where
  date := by simp [Exchange.addCacheControl, Fields.date?, Fields.text?, Fields.values]
  noCache := by
    simp only [Exchange.addCacheControl, CacheDirectives.ofFields, Fields.hasToken, Fields.texts,
      Fields.values]
    simp +contextual [or_imp]
  maxAge m h := by
    refine ⟨m, Nat.le_refl m, ?_⟩
    simp only [Exchange.addCacheControl, CacheDirectives.ofFields, Fields.texts, Fields.values]
      at h ⊢
    rw [List.filter_append, List.map_append, List.filterMap_append, List.flatMap_append,
      List.findSome?_append, h, Option.some_or]

/-- What is stale stays stale as time goes on, also if a shorter lifetime is assumed, unless a leap
second is counted and forgotten. It stays stale for a request that asks for no less, such as one
with a Cache-Control field added. -/
theorem stale_stays_stale (stored request : Exchange) :
    (∀ (now₁ now₂ : Instant) (assumed₁ assumed₂ : Int), now₁.IsValid → now₂.IsValid →
      now₂.lt now₁ = false → 0 ≤ assumed₁ → assumed₁ ≤ assumed₂ →
      stored.UntouchedByLeap now₁ now₂ →
      (freshness stored request now₁ assumed₂).isExpired = true →
      (freshness stored request now₂ assumed₁).isExpired = true) ∧
    ∀ (now : Instant) (assumed : Int), (freshness stored request now assumed).isExpired = true →
      (∀ request', request.AsksMore request' →
        (freshness stored request' now assumed).isExpired = true) ∧
      ∀ value, (freshness stored (request.addCacheControl value) now assumed).isExpired = true :=
  ⟨fun _ _ _ _ => isExpired_freshness_mono, fun _ _ hstale =>
    ⟨fun _ hasks => isExpired_freshness_of_asksMore hasks hstale,
      fun value => isExpired_freshness_of_asksMore (asksMore_addCacheControl request value) hstale⟩⟩

/-- A response that was captured within a second is stale for one lifetime and then for a shorter
one. A dated one is stale for a request that takes it for a minute, so also for five seconds or not
at all. -/
theorem stale_stays_stale_of_dated :
    let stored := { Exchange.start 0 .downlink (.response "HTTP/1.1" 200 "OK") with
      timestamp := ⟨0x3fe0000000000000⟩ }
    let dated := { stored with fields := [⟨"date", utf8Bytes "Thu, 01 Jan 1970 00:00:00 GMT"⟩] }
    let request := Exchange.start 0 .uplink (.request "GET" "/" "HTTP/1.1")
    let asking := fun age : String => request.addCacheControl (utf8Bytes ("max-age=" ++ age))
    let refusing := (asking "60").addCacheControl (utf8Bytes "no-cache")
    Instant.IsValid ⟨60, 600000000⟩ ∧ Instant.IsValid ⟨86400, 0⟩ ∧
      stored.UntouchedByLeap ⟨60, 600000000⟩ ⟨86400, 0⟩ ∧
      (freshness stored request ⟨60, 600000000⟩ 60).isExpired = true ∧
      (freshness stored request ⟨86400, 0⟩ 30).isExpired = true ∧
      (asking "60").AsksMore (asking "5") ∧
      (freshness dated (asking "60") ⟨61, 0⟩ 100).isExpired = true ∧
      (freshness dated (asking "5") ⟨61, 0⟩ 100).isExpired = true ∧
      (freshness dated refusing ⟨61, 0⟩ 100).isExpired = true := by
  intro stored dated request asking refusing
  have hmoments : Instant.IsValid ⟨60, 600000000⟩ ∧ Instant.IsValid ⟨86400, 0⟩ ∧
      stored.UntouchedByLeap ⟨60, 600000000⟩ ⟨86400, 0⟩ :=
    ⟨by decide, by decide, .inl ⟨by decide, by decide⟩⟩
  have hstale : (freshness stored request ⟨60, 600000000⟩ 60).isExpired = true ∧
      (freshness dated (asking "60") ⟨61, 0⟩ 100).isExpired = true := by
    decide +kernel
  have hages : (CacheDirectives.ofFields (asking "60").fields).maxAge = some 60 ∧
      (CacheDirectives.ofFields (asking "5").fields).maxAge = some 5 := by
    decide +kernel
  have hasks : (asking "60").AsksMore (asking "5") :=
    { date := by decide +kernel
      noCache := by decide +kernel
      maxAge := fun m hm => ⟨5, by cases hages.1.symm.trans hm; decide, hages.2⟩ }
  have hlater := (stale_stays_stale stored request).1 _ _ 30 60 hmoments.1 hmoments.2.1 (by decide)
    (by decide) (by decide) hmoments.2.2 hstale.1
  have hless := (stale_stays_stale dated (asking "60")).2 _ _ hstale.2
  exact ⟨hmoments.1, hmoments.2.1, hmoments.2.2, hstale.1, hlater, hasks, hstale.2,
    hless.1 _ hasks, hless.2 _⟩

/-- A response captured half a second after the epoch is stale for a minute within the leap second
that follows this minute, and fresh again after it. -/
theorem stale_until_end_of_leap_second :
    let stored := { Exchange.start 0 .downlink (.response "HTTP/1.1" 200 "OK") with
      timestamp := ⟨0x3fe0000000000000⟩ }
    let request := Exchange.start 0 .uplink (.request "GET" "/" "HTTP/1.1")
    let now₁ : Instant := ⟨59, 1750000000⟩
    let now₂ : Instant := ⟨60, 0⟩
    now₁.IsValid ∧ now₂.IsValid ∧ now₂.lt now₁ = false ∧
      (freshness stored request now₁ 60).isExpired = true ∧
      (freshness stored request now₂ 60).isExpired = false := by
  decide +kernel

end HttpCapture
