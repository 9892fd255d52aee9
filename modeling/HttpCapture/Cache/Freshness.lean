import HttpCapture.Exchange.Basic
import HttpCapture.Http.CacheControl
import HttpCapture.Http.Date

/-! Whether a stored response is still fresh when a later request asks for its object. -/

namespace HttpCapture

inductive Freshness
  | expired
  | fresh
  /-- No lifetime is given, and the one assumed instead has passed. -/
  | expiredByAge
  | freshByAge
  deriving DecidableEq, Repr

namespace Freshness

def all : List Freshness := [.expired, .fresh, .expiredByAge, .freshByAge]

def name : Freshness → String
  | .expired => "expired"
  | .fresh => "not_expired"
  | .expiredByAge => "expired_heuristic"
  | .freshByAge => "not_expired_heuristic"

def isExpired : Freshness → Bool
  | .expired | .expiredByAge => true
  | _ => false

end Freshness

/-- The date in a field, if it can be read. -/
def Fields.date? (fields : Fields) (name : String) : Option Nat :=
  (fields.text? name).bind fun s => (readDate (trim s.toList)).toOption

/-- The moment of a field's date. -/
def dateInstant (seconds : Nat) : Instant := ⟨seconds, 0⟩

/-- The moment some seconds after a date, or the latest one if the calendar ends before. -/
def momentAfter (date seconds : Nat) : Instant :=
  if ((date + seconds : Nat) : Int) ≤ Instant.lastSecond then dateInstant (date + seconds)
  else Instant.latest

/-- What a stored response and a new request say about lifetimes, in seconds. -/
structure Lifetimes where
  date : Option Nat
  expires : Option Nat
  age : Option Nat
  maxAge : Option Nat
  requestDate : Option Nat
  requestMaxAge : Option Nat
  deriving DecidableEq, Repr

def Lifetimes.of (stored request : Exchange) : Lifetimes where
  date := stored.fields.date? "date"
  expires := stored.fields.date? "expires"
  age := (stored.fields.number? "age").map (min · 0x7fffffffffffffff)
  maxAge := (CacheDirectives.ofFields stored.fields).maxAge
  requestDate := request.fields.date? "date"
  requestMaxAge := (CacheDirectives.ofFields request.fields).maxAge

namespace Lifetimes

/-- When the response's own max-age runs out. -/
def freshUntil (t : Lifetimes) : Option Instant :=
  match t.date, t.maxAge with
  | some d, some m => some (momentAfter d m)
  | _, _ => none

/-- When the request's max-age runs out, counted from its own date if it has one. -/
def acceptedUntil (t : Lifetimes) : Option Instant :=
  match t.requestMaxAge, t.requestDate <|> t.date with
  | some m, some d => some (momentAfter d m)
  | _, _ => none

/-- Whether a moment, if there is one, lies before `now`. -/
def isPast (now : Instant) (moment : Option Instant) : Bool := moment.any (·.lt now)

/-- The age the response already had on arrival used up its max-age. -/
def arrivedOld (t : Lifetimes) : Bool :=
  match t.age, t.maxAge with
  | some a, some m => m ≤ a
  | _, _ => false

/-- That age used up the time from its date to its expiry. -/
def arrivedExpired (t : Lifetimes) : Bool :=
  match t.age, t.expires, t.date with
  | some a, some e, some d => (e : Int) - d ≤ a
  | _, _, _ => false

def isExpired (t : Lifetimes) (now : Instant) : Bool :=
  isPast now t.freshUntil || isPast now (t.expires.map dateInstant) ||
    isPast now t.acceptedUntil || t.arrivedOld || t.arrivedExpired

/-- An expiry lies ahead, or a max-age lies ahead or ends now. -/
def isFresh (t : Lifetimes) (now : Instant) : Bool :=
  (t.expires.any fun e => now.lt (dateInstant e)) ||
    t.freshUntil.any fun moment => !moment.lt now

end Lifetimes

/-- Judge a stored response at the moment of a request. Where nothing decides, it is fresh for
`assumed` seconds from its date, or from its capture time when it has no date. -/
def freshness (stored request : Exchange) (now : Instant) (assumed : Int) : Freshness :=
  let t := Lifetimes.of stored request
  if (CacheDirectives.ofFields stored.fields).noCache ||
      (CacheDirectives.ofFields request.fields).noCache then .expired
  else if t.isExpired now then .expired
  else if t.isFresh now then .fresh
  else
    let base := (t.date.map dateInstant).getD (Instant.ofTimestamp stored.timestamp)
    if (now.since base).lt (Span.ofSeconds assumed) then .freshByAge else .expiredByAge

end HttpCapture
