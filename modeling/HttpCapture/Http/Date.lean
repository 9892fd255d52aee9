import HttpCapture.Text.Ascii
import HttpCapture.Text.Split

/-! Dates as header fields write them. Three layouts are in use; each is a list of parts, and one
reader serves them all. A date counts only if it exists in the calendar, lies in the years 1970 to
9999 and falls on the weekday it names. -/

namespace HttpCapture

def monthNames : List String :=
  ["Jan", "Feb", "Mar", "Apr", "May", "Jun", "Jul", "Aug", "Sep", "Oct", "Nov", "Dec"]

def weekdayNames : List String :=
  ["Monday", "Tuesday", "Wednesday", "Thursday", "Friday", "Saturday", "Sunday"]

/-- A point of the calendar; months count from one and weekdays from zero on Monday. -/
structure CalendarDate where
  year : Nat
  month : Nat
  day : Nat
  hour : Nat
  minute : Nat
  second : Nat
  weekday : Nat
  deriving DecidableEq, Repr

def isLeapYear (y : Nat) : Bool := y % 4 == 0 && (y % 100 != 0 || y % 400 == 0)

def daysInMonth (y m : Nat) : Nat :=
  match m with
  | 2 => if isLeapYear y then 29 else 28
  | 4 | 6 | 9 | 11 => 30
  | _ => 31

/-- Days of the years 1 to `y - 1`. -/
def daysBeforeYear (y : Nat) : Nat := 365 * (y - 1) + (y - 1) / 4 - (y - 1) / 100 + (y - 1) / 400

def daysBeforeMonth (y m : Nat) : Nat :=
  ((List.range (m - 1)).map (daysInMonth y <| · + 1)).foldr (· + ·) 0

/-- Days since the first of January 1970, from that day on. -/
def CalendarDate.days (d : CalendarDate) : Nat :=
  daysBeforeYear d.year - daysBeforeYear 1970 + daysBeforeMonth d.year d.month + (d.day - 1)

/-- Seconds since the start of 1970. -/
def CalendarDate.seconds (d : CalendarDate) : Nat :=
  d.days * 86400 + d.hour * 3600 + d.minute * 60 + d.second

/-- The first day of 1970 was a Thursday. -/
def CalendarDate.exists? (d : CalendarDate) : Bool :=
  d.second < 60 && d.minute < 60 && d.hour < 24 && 1970 ≤ d.year && d.year ≤ 9999 &&
    1 ≤ d.month && d.month ≤ 12 && 1 ≤ d.day && d.day ≤ daysInMonth d.year d.month &&
    d.weekday == (d.days + 3) % 7

/-- A part of a date layout. -/
inductive DatePart
  | text (s : String)
  | anyChar
  | weekday
  | shortWeekday
  | month
  | day
  | paddedDay
  | year
  | shortYear
  | hour
  | minute
  | second

def digitValue? (c : Char) : Option Nat := if c.isDigit then some (c.toNat - 48) else none

/-- The number that exactly `n` digits at the front spell, and what follows them. -/
def takeDigits (n : Nat) (s : List Char) : Option (Nat × List Char) :=
  if s.length < n then none
  else ((s.take n).mapM digitValue?).map fun ds => (ds.foldl (· * 10 + ·) 0, s.drop n)

/-- The position of the name that starts the text, and what follows it. -/
def takeName (names : List String) (s : List Char) : Option (Nat × List Char) :=
  (names.zipIdx.findSome? fun (name, i) => (after? name.toList s).map (i, ·))

def DatePart.read (p : DatePart) (d : CalendarDate) (s : List Char) :
    Option (CalendarDate × List Char) :=
  match p with
  | .text t => (after? t.toList s).map (d, ·)
  | .anyChar => s.tail?.map (d, ·)
  | .weekday => (takeName weekdayNames s).map fun (i, r) => ({ d with weekday := i }, r)
  | .shortWeekday =>
    (takeName (weekdayNames.map (fun n => String.ofList (n.toList.take 3))) s).map fun (i, r) =>
      ({ d with weekday := i }, r)
  | .month => (takeName monthNames s).map fun (i, r) => ({ d with month := i + 1 }, r)
  | .day => (takeDigits 2 s).map fun (n, r) => ({ d with day := n }, r)
  | .paddedDay =>
    (match s with
      | ' ' :: r => takeDigits 1 r
      | _ => takeDigits 2 s).map fun (n, r) => ({ d with day := n }, r)
  | .year => (takeDigits 4 s).map fun (n, r) => ({ d with year := n }, r)
  | .shortYear =>
    (takeDigits 2 s).map fun (n, r) =>
      ({ d with year := if n < 70 then 2000 + n else 1900 + n }, r)
  | .hour => (takeDigits 2 s).map fun (n, r) => ({ d with hour := n }, r)
  | .minute => (takeDigits 2 s).map fun (n, r) => ({ d with minute := n }, r)
  | .second => (takeDigits 2 s).map fun (n, r) => ({ d with second := n }, r)

/-- Read all parts in turn; nothing may be left over. -/
def readLayout (d : CalendarDate) : List DatePart → List Char → Option CalendarDate
  | [], s => if s.isEmpty then some d else none
  | p :: ps, s => (p.read d s).bind fun (d, r) => readLayout d ps r

def clockParts : List DatePart := [.hour, .text ":", .minute, .text ":", .second]

/-- The fixed layout, the layout with dashes and a two-digit year, and the layout with the year
last. The dashed layout admits any character before its clock. -/
def dateLayouts : List (List DatePart) :=
  [[.shortWeekday, .text ", ", .day, .text " ", .month, .text " ", .year, .text " "] ++
     clockParts ++ [.text " GMT"],
   [.weekday, .text ", ", .day, .text "-", .month, .text "-", .shortYear, .anyChar] ++
     clockParts ++ [.text " GMT"],
   [.shortWeekday, .text " ", .month, .text " ", .paddedDay, .text " "] ++
     clockParts ++ [.text " ", .year]]

inductive DateError
  | invalid
  deriving DecidableEq, Repr

def DateError.message : DateError → String
  | .invalid => "httpdate parse error: string contains no or an invalid date"

/-- Seconds since the start of 1970 of an ASCII date in one of the three layouts. -/
def readDate (s : List Char) : Except DateError Nat :=
  if s.any (fun c => c.toNat ≥ 128) then .error .invalid
  else
    let start : CalendarDate := ⟨0, 0, 0, 0, 0, 0, 0⟩
    match dateLayouts.findSome? (readLayout start · (trim s)) with
    | some d => if d.exists? then .ok d.seconds else .error .invalid
    | none => .error .invalid

end HttpCapture
