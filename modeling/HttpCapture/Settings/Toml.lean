import HttpCapture.Text.Ascii
import HttpCapture.Text.Split

/-! Documents of keys and values in tables, the format of settings files. A document is a list
of lines with a key, a table header or nothing; the tables are put together afterwards, where no
key may be set twice. -/

namespace HttpCapture

/-- How a table came about, which decides what may be added to it. -/
inductive TableKind
  /-- On the way to a table that a header names. -/
  | implicit
  /-- By a dotted key. -/
  | dotted
  /-- By a header of its own. -/
  | header
  /-- As a value. -/
  | inline
  deriving DecidableEq, Repr

inductive Toml
  | string (s : String)
  | integer (n : Int)
  | float (x : Float)
  | boolean (b : Bool)
  /-- Dates and times are recognised, but nothing is done with them. -/
  | moment
  | array (items : List Toml)
  | table (kind : TableKind) (entries : List (String × Toml))
  /-- Tables that repeated headers add, the latest first. -/
  | tables (items : List (List (String × Toml)))
  deriving Inhabited

namespace Toml

/-- What is left of a text is at the head of every reader's result. -/
abbrev Rest := List Char

/-- One step of a reader. -/
abbrev Reader (α : Type) := Rest → Option (α × Rest)

def isInlineBlank (c : Char) : Bool := c = ' ' ∨ c = '\t'

def skipBlanks (s : Rest) : Rest := s.dropWhile isInlineBlank

/-- Characters that may stand in comments and literal strings: no control characters but the tab. -/
def isPlainChar (c : Char) : Bool := c = '\t' ∨ (32 ≤ c.toNat ∧ c.toNat ≠ 127)

/-- The text behind a line ending. -/
def newline? : Rest → Option Rest
  | '\n' :: r => some r
  | '\r' :: '\n' :: r => some r
  | _ => none

def skipComment : Rest → Rest
  | '#' :: r => r.dropWhile isPlainChar
  | s => s

/-- Blanks and a comment, then the end of the line or of the text. -/
def endOfLine? (s : Rest) : Option Rest :=
  match skipComment (skipBlanks s) with
  | [] => some []
  | r => newline? r

/-- Skip blanks, comments and line endings between the items of an array. -/
def skipLines : Nat → Rest → Rest
  | 0, s => s
  | fuel + 1, s =>
    let r := skipComment (skipBlanks s)
    match newline? r with
    | some r => skipLines fuel r
    | none => r

def hexDigit? (c : Char) : Option Nat := if c.toNat < 128 then hexValue? c.toNat.toUInt8 else none

/-- The character with the code that `n` hexadecimal digits spell. -/
def codePoint? (n : Nat) (s : Rest) : Option (Char × Rest) := do
  if s.length < n then none
  let ds ← (s.take n).mapM hexDigit?
  let code := ds.foldl (· * 16 + ·) 0
  if code < 0xd800 ∨ (0xdfff < code ∧ code ≤ 0x10ffff) then some (Char.ofNat code, s.drop n)
  else none

/-- What follows a backslash. -/
def escape? : Rest → Option (Char × Rest)
  | 'b' :: r => some ('\x08', r)
  | 't' :: r => some ('\t', r)
  | 'n' :: r => some ('\n', r)
  | 'f' :: r => some ('\x0c', r)
  | 'r' :: r => some ('\r', r)
  | '"' :: r => some ('"', r)
  | '\\' :: r => some ('\\', r)
  | 'u' :: r => codePoint? 4 r
  | 'U' :: r => codePoint? 8 r
  | _ => none

/-- A string in double quotes, whose opening quote is behind. Texts under way are held
last character first. -/
def basicString? (text : List Char) : Nat → Rest → Option (List Char × Rest)
  | 0, _ => none
  | fuel + 1, s =>
    match s with
    | '"' :: r => some (text.reverse, r)
    | '\\' :: r => (escape? r).bind fun (c, r) => basicString? (c :: text) fuel r
    | c :: r => if isPlainChar c then basicString? (c :: text) fuel r else none
    | [] => none

/-- A string in single quotes. -/
def literalString? (s : Rest) : Option (List Char × Rest) :=
  let text := s.takeWhile fun c => isPlainChar c && c != '\''
  match s.drop text.length with
  | '\'' :: r => some (text, r)
  | _ => none

/-- The blanks and line endings that a backslash at the end of a line takes away. -/
def lineJoin? (s : Rest) : Option Rest :=
  (newline? (skipBlanks s)).map fun r =>
    r.dropWhile fun c => isInlineBlank c || c == '\n' || c == '\r'

/-- Up to two quotes in front of the closing three belong to the text. -/
def closing? (q : Char) (s : Rest) : Option (List Char × Rest) :=
  let n := (s.takeWhile (· == q)).length
  if n < 3 then none else some (List.replicate (min (n - 3) 2) q, s.drop (min n 5))

/-- A string of several lines in triple quotes `q`; backslashes count if `escapes` says so. -/
def longString? (q : Char) (escapes : Bool) (text : List Char) :
    Nat → Rest → Option (List Char × Rest)
  | 0, _ => none
  | fuel + 1, s =>
    match closing? q s with
    | some (quotes, r) => some (text.reverse ++ quotes, r)
    | none =>
      match newline? s with
      | some r => longString? q escapes ('\n' :: text) fuel r
      | none =>
        match s with
        | [] => none
        | c :: r =>
          if escapes ∧ c = '\\' then
            match lineJoin? r with
            | some r => longString? q escapes text fuel r
            | none => (escape? r).bind fun (c, r) => longString? q escapes (c :: text) fuel r
          else if isPlainChar c then longString? q escapes (c :: text) fuel r
          else none

/-- A line ending right behind the opening quotes does not count. -/
def dropFirstNewline (s : Rest) : Rest := (newline? s).getD s

def string? (s : Rest) : Option (List Char × Rest) :=
  match s with
  | '"' :: '"' :: '"' :: r => longString? '"' true [] (r.length + 1) (dropFirstNewline r)
  | '\'' :: '\'' :: '\'' :: r => longString? '\'' false [] (r.length + 1) (dropFirstNewline r)
  | '"' :: r => basicString? [] (r.length + 1) r
  | '\'' :: r => literalString? r
  | _ => none

def isBareKeyChar (c : Char) : Bool := c.isAlphanum || c == '_' || c == '-'

def simpleKey? (s : Rest) : Option (String × Rest) :=
  match s with
  | '"' :: r => (basicString? [] (r.length + 1) r).map fun (k, r) => (String.ofList k, r)
  | '\'' :: r => (literalString? r).map fun (k, r) => (String.ofList k, r)
  | s =>
    let k := s.takeWhile isBareKeyChar
    if k.isEmpty then none else some (String.ofList k, s.drop k.length)

/-- Keys with points between them, blanks around each, and what follows. -/
def key? : Nat → Rest → Option (List String × Rest)
  | 0, _ => none
  | fuel + 1, s =>
    (simpleKey? (skipBlanks s)).bind fun (k, r) =>
      match skipBlanks r with
      | '.' :: r => (key? fuel r).map fun (ks, r) => (k :: ks, r)
      | r => some ([k], r)

/-- Digits with single underscores between them. -/
def digitRun? (isDigit : Char → Bool) (s : Rest) : Option (List Char × Rest) :=
  let run := s.takeWhile fun c => isDigit c || c == '_'
  let parts := splitAll '_' run
  if parts.any (·.isEmpty) then none else some (parts.flatten, s.drop run.length)

/-- A sign, if there is one. -/
def sign : Rest → Bool × Rest
  | '-' :: r => (true, r)
  | '+' :: r => (false, r)
  | s => (false, s)

def numberOf (base : Nat) (ds : List Char) : Nat :=
  (ds.filterMap hexDigit?).foldl (· * base + ·) 0

/-- A whole number of 64 bits with a sign. -/
def bounded (n : Int) : Option Toml :=
  if -0x8000000000000000 ≤ n ∧ n < 0x8000000000000000 then some (.integer n) else none

def based? (base : Nat) (isDigit : Char → Bool) (s : Rest) : Option (Toml × Rest) :=
  (digitRun? isDigit s).bind fun (ds, r) => (bounded (numberOf base ds)).map (·, r)

/-- The digits of a number before its point; a zero leads only when it stands alone. -/
def decimalRun? (s : Rest) : Option (List Char × Rest) :=
  (digitRun? Char.isDigit s).filter fun (ds, _) => ds.head? != some '0' || ds.length == 1

/-- `digits * 10 ^ e`. Numbers far out of range are not computed. -/
def decimalFloat (digits : Nat) (e : Int) : Float :=
  let place : Int := (Nat.toDigits 10 digits).length + e
  if digits = 0 ∨ place < -400 then 0
  else if place > 400 then 1 / 0
  else if e < 0 then Float.ofScientific digits true e.natAbs
  else Float.ofScientific digits false e.natAbs

/-- An exponent behind its mark. -/
def exponent? (s : Rest) : Option (Int × Rest) :=
  let (negative, r) := sign s
  (digitRun? Char.isDigit r).map fun (ds, r) =>
    let n : Int := numberOf 10 ds
    (if negative then -n else n, r)

/-- What may follow the digits before the point: a fraction, an exponent, or both. -/
def floatTail? (s : Rest) : Option ((List Char × Int) × Rest) :=
  let exponentOf (fraction : List Char) (r : Rest) : Option ((List Char × Int) × Rest) :=
    match r with
    | 'e' :: r => (exponent? r).map fun (e, r) => ((fraction, e), r)
    | 'E' :: r => (exponent? r).map fun (e, r) => ((fraction, e), r)
    | r => some ((fraction, 0), r)
  match s with
  | '.' :: r => (digitRun? Char.isDigit r).bind fun (ds, r) => exponentOf ds r
  | r => exponentOf [] r

/-- A number in decimal notation. -/
def decimal? (s : Rest) : Option (Toml × Rest) := do
  let (negative, s) := sign s
  match after? "inf".toList s, after? "nan".toList s with
  | some r, _ => return (.float (if negative then -(1 / 0) else 1 / 0), r)
  | _, some r => return (.float (if negative then -(0 / 0) else 0 / 0), r)
  | none, none =>
    let (ds, r) ← decimalRun? s
    match r.head? with
    | some '.' | some 'e' | some 'E' =>
      let ((fraction, e), r) ← floatTail? r
      let x := decimalFloat (numberOf 10 (ds ++ fraction)) (e - fraction.length)
      if x.isInf ∧ !negative then none
      return (.float (if negative then -x else x), r)
    | _ =>
      let n : Int := numberOf 10 ds
      return (← bounded (if negative then -n else n), r)

/-- Two digits below a bound. -/
def pair? (low high : Nat) (s : Rest) : Option Rest :=
  let n := numberOf 10 (s.take 2)
  if 2 ≤ s.length ∧ (s.take 2).all Char.isDigit ∧ low ≤ n ∧ n ≤ high then some (s.drop 2) else none

def dayBound (year month : Nat) : Nat :=
  match month with
  | 2 => if year % 4 == 0 && (year % 100 != 0 || year % 400 == 0) then 29 else 28
  | 4 | 6 | 9 | 11 => 30
  | _ => 31

def date? (s : Rest) : Option Rest := do
  let year := s.take 4
  if year.length < 4 ∨ !year.all Char.isDigit then none
  let s ← after? ['-'] (s.drop 4)
  let month := numberOf 10 (s.take 2)
  let s ← after? ['-'] (← pair? 1 12 s)
  pair? 1 (dayBound (numberOf 10 year) month) s

def clock? (s : Rest) : Option Rest := do
  let s ← after? [':'] (← pair? 0 23 s)
  let s ← after? [':'] (← pair? 0 59 s)
  let s ← pair? 0 60 s
  match s with
  | '.' :: c :: r => if c.isDigit then some (r.dropWhile Char.isDigit) else some s
  | _ => some s

/-- A distance from universal time, if there is one. -/
def zone (s : Rest) : Rest :=
  match s with
  | 'Z' :: r => r
  | 'z' :: r => r
  | c :: r =>
    if c = '+' ∨ c = '-' then
      ((pair? 0 23 r).bind fun r => (after? [':'] r).bind (pair? 0 59)).getD s
    else s
  | [] => s

/-- A date, a time, or both. -/
def moment? (s : Rest) : Option Rest :=
  match date? s with
  | some r =>
    match r with
    | c :: t => if c = 'T' ∨ c = 't' ∨ c = ' ' then ((clock? t).map zone).getD r else r
    | [] => some r
  | none => clock? s

def number? (s : Rest) : Option (Toml × Rest) :=
  match moment? s with
  | some r => some (.moment, r)
  | none =>
    match s with
    | '0' :: 'x' :: r => based? 16 (hexDigit? · |>.isSome) r
    | '0' :: 'o' :: r => based? 8 (fun c => '0' ≤ c && c ≤ '7') r
    | '0' :: 'b' :: r => based? 2 (fun c => c == '0' || c == '1') r
    | s => decimal? s

/-- Replace or add the value of a key. -/
def setEntry (entries : List (String × Toml)) (k : String) (v : Toml) : List (String × Toml) :=
  if entries.any (·.1 == k) then entries.map fun (n, t) => if n == k then (n, v) else (n, t)
  else entries ++ [(k, v)]

/-- Apply `f` to the table that the keys of `path` lead to, with its kind; tables on the way are
made as needed. A dotted key does not enter tables that a header has made. -/
def descend (dotted : Bool) (kind : TableKind) (entries : List (String × Toml))
    (f : TableKind → List (String × Toml) → Option (List (String × Toml))) :
    List String → Option (List (String × Toml))
  | [] => f kind entries
  | k :: path =>
    match entries.lookup k with
    | none =>
      let made := if dotted then .dotted else .implicit
      (descend dotted made [] f path).map fun inner => setEntry entries k (.table made inner)
    | some (.table inner old) =>
      if inner = .inline ∨ (dotted ∧ inner = .header) then none
      else (descend dotted inner old f path).map fun new => setEntry entries k (.table inner new)
    | some (.tables (latest :: earlier)) =>
      (descend dotted .header latest f path).map fun new =>
        setEntry entries k (.tables (new :: earlier))
    | some _ => none

/-- Set a new key of a table; dotted keys set keys of dotted tables only, and plain keys do not. -/
def addKey (kind : TableKind) (entries : List (String × Toml)) (path : List String) (v : Toml) :
    Option (List (String × Toml)) :=
  match path.getLast? with
  | none => none
  | some k =>
    let way := path.dropLast
    descend (!way.isEmpty) kind entries (fun kind table =>
      if (kind = .dotted) = way.isEmpty ∨ table.any (·.1 == k) then none
      else some (table ++ [(k, v)])) way

/-- How deep arrays and inline tables may be nested. -/
def maxNesting : Nat := 79

mutual

/-- A value at the front of a text. `fuel` bounds the steps and `room` the nesting. -/
def value? (room : Nat) : Nat → Reader Toml
  | 0, _ => none
  | fuel + 1, s =>
    match s with
    | '"' :: _ => (string? s).map fun (t, r) => (.string (String.ofList t), r)
    | '\'' :: _ => (string? s).map fun (t, r) => (.string (String.ofList t), r)
    | '[' :: r => if room = 0 then none else arrayItems? (room - 1) [] fuel r
    | '\x7b' :: r =>
      if room = 0 then none
      else
        match skipBlanks r with
        | '\x7d' :: r => some (.table .inline [], r)
        | r => inlineEntries? (room - 1) [] fuel r
    | 't' :: 'r' :: 'u' :: 'e' :: r => some (.boolean true, r)
    | 'f' :: 'a' :: 'l' :: 's' :: 'e' :: r => some (.boolean false, r)
    | _ => number? s

/-- The rest of an array; `items` holds the items so far, last first. -/
def arrayItems? (room : Nat) (items : List Toml) : Nat → Reader Toml
  | 0, _ => none
  | fuel + 1, s =>
    match skipLines s.length s with
    | ']' :: r => some (.array items.reverse, r)
    | r =>
      match value? room fuel r with
      | none => none
      | some (v, r) =>
        match skipLines r.length r with
        | ',' :: r => arrayItems? room (v :: items) fuel r
        | ']' :: r => some (.array (v :: items).reverse, r)
        | _ => none

/-- The rest of an inline table, which has at least one more entry. -/
def inlineEntries? (room : Nat) (entries : List (String × Toml)) : Nat → Reader Toml
  | 0, _ => none
  | fuel + 1, s =>
    match key? (s.length + 1) s with
    | some (path, '=' :: r) =>
      match value? room fuel (skipBlanks r) with
      | none => none
      | some (v, r) =>
        match addKey .inline entries path v with
        | none => none
        | some entries =>
          match skipBlanks r with
          | ',' :: r => inlineEntries? room entries fuel r
          | '\x7d' :: r => some (.table .inline entries, r)
          | _ => none
    | _ => none

end

/-- A line that says something. -/
inductive Statement
  | entry (path : List String) (v : Toml)
  | header (path : List String)
  | arrayHeader (path : List String)

def statement? (s : Rest) : Option (Statement × Rest) :=
  let fuel := s.length + 1
  match s with
  | '[' :: '[' :: r =>
    match key? fuel r with
    | some (path, ']' :: ']' :: r) => some (.arrayHeader path, r)
    | _ => none
  | '[' :: r =>
    match key? fuel r with
    | some (path, ']' :: r) => some (.header path, r)
    | _ => none
  | s =>
    match key? fuel s with
    | some (path, '=' :: r) =>
      (value? maxNesting (2 * fuel) (skipBlanks r)).map fun (v, r) => (.entry path v, r)
    | _ => none

/-- The statements of a document, one a line. -/
def statements? : Nat → Rest → Option (List Statement)
  | 0, _ => none
  | fuel + 1, s =>
    match skipBlanks s with
    | [] => some []
    | r =>
      match endOfLine? r with
      | some r => statements? fuel r
      | none =>
        match statement? r with
        | none => none
        | some (st, r) =>
          match endOfLine? r with
          | some r => (statements? fuel r).map (st :: ·)
          | none => none

/-- A document under construction: its root table and the path of the table that keys go to. -/
structure Document where
  root : List (String × Toml)
  current : List String

/-- Set a key of the table last named by a header. -/
def Document.addEntry (d : Document) (path : List String) (v : Toml) : Option Document :=
  (descend false .header d.root (fun _ table => addKey .header table path v) d.current).map
    fun root => { d with root := root }

/-- Start a table. It may exist only as a way to other tables. -/
def Document.addHeader (d : Document) (path : List String) : Option Document :=
  match path.getLast? with
  | none => none
  | some k =>
    (descend false .header d.root (fun _ table =>
      match table.lookup k with
      | none => some (table ++ [(k, .table .header [])])
      | some (.table .implicit inner) => some (setEntry table k (.table .header inner))
      | some _ => none) path.dropLast).map fun root => ⟨root, path⟩

/-- Start one more table of an array of tables. -/
def Document.addArrayHeader (d : Document) (path : List String) : Option Document :=
  match path.getLast? with
  | none => none
  | some k =>
    (descend false .header d.root (fun _ table =>
      match table.lookup k with
      | none => some (table ++ [(k, .tables [[]])])
      | some (.tables items) => some (setEntry table k (.tables ([] :: items)))
      | some _ => none) path.dropLast).map fun root => ⟨root, path⟩

def Document.add (d : Document) : Statement → Option Document
  | .entry path v => d.addEntry path v
  | .header path => d.addHeader path
  | .arrayHeader path => d.addArrayHeader path

/-- The root table of a document. -/
def read? (s : List Char) : Option (List (String × Toml)) :=
  let s := (after? ['\ufeff'] s).getD s
  (statements? (s.length + 1) s).bind fun sts =>
    (sts.foldlM Document.add ⟨[], []⟩).map Document.root

end Toml

end HttpCapture
