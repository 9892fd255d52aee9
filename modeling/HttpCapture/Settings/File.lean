import HttpCapture.Analysis
import HttpCapture.Decimal.Layout
import HttpCapture.Settings.Toml

/-! Settings read from a file. Every table and key may be missing, and unknown ones do not
matter. -/

namespace HttpCapture

/-- Settings that make no sense. -/
inductive InvalidSettings
  | threshold (x : Float)
  | maxHead
  | lifetime (n : Int)
  | noMethods

def InvalidSettings.message : InvalidSettings → String
  | .threshold x =>
    "reassembly.completeness_threshold must be in (0, 1], got " ++
      String.ofList (NumberFormat.plain.text x.toBits)
  | .maxHead => "reassembly.max_header_bytes must be greater than zero"
  | .lifetime n => "cache.heuristic_freshness_secs must not be negative, got " ++ toString n
  | .noMethods => "cache.cacheable_methods cannot be empty"

inductive SettingsError
  | unreadable
  | malformed
  | invalid (cause : InvalidSettings)

namespace Toml

/-- The values of a record's keys, given as a table or as an array in the order of the keys. -/
def fields? (names : List String) : Toml → Option (List (Option Toml))
  | .table _ entries => some (names.map fun name => entries.lookup name)
  | .array items =>
    some ((items.take names.length).map some ++ List.replicate (names.length - items.length) none)
  | _ => none

def text? : Toml → Option String
  | .string s => some s
  | _ => none

def real? : Toml → Option Float
  | .float x => some x
  | .integer n => some (Int64.ofInt n).toFloat
  | _ => none

def whole? : Toml → Option Int
  | .integer n => some n
  | _ => none

def size? : Toml → Option Nat
  | .integer (.ofNat n) => some n
  | _ => none

def texts? : Toml → Option (List String)
  | .array items => items.mapM text?
  | _ => none

/-- The value of a key, or its default when it is missing. -/
def orDefault? {α : Type} (d : α) (f : Toml → Option α) : Option Toml → Option α
  | none => some d
  | some v => f v

end Toml

namespace Settings

/-- The keys of a part of the settings, all missing when the part is. -/
def part? (names : List String) : Option Toml → Option (List (Option Toml))
  | none => some (names.map fun _ => none)
  | some v => v.fields? names

def ofToml? (root : List (String × Toml)) : Option Settings := do
  let d := standard
  let [report] ← part? ["report"] (root.lookup "general") | none
  let [threshold, maxHead] ←
    part? ["completeness_threshold", "max_header_bytes"] (root.lookup "reassembly") | none
  let [lifetime, methods] ←
    part? ["heuristic_freshness_secs", "cacheable_methods"] (root.lookup "cache") | none
  return {
    report := ← Toml.orDefault? none (fun v => v.text?.map some) report
    limits := {
      completeness := ⟨← Toml.orDefault? d.limits.completeness.threshold Toml.real? threshold⟩
      maxHead := ← Toml.orDefault? d.limits.maxHead Toml.size? maxHead }
    policy := {
      assumedLifetime := ← Toml.orDefault? d.policy.assumedLifetime Toml.whole? lifetime
      methods := ← Toml.orDefault? d.policy.methods Toml.texts? methods } }

/-- The first reason why the settings make no sense, if there is one. -/
def problem? (s : Settings) : Option InvalidSettings :=
  let t := s.limits.completeness.threshold
  if !(t > 0 && t ≤ 1) then some (.threshold t)
  else if s.limits.maxHead = 0 then some .maxHead
  else if s.policy.assumedLifetime < 0 then some (.lifetime s.policy.assumedLifetime)
  else if s.policy.methods.isEmpty then some .noMethods
  else none

/-- The settings in a file that may be missing. -/
def load (file : Option Bytes) : Except SettingsError Settings :=
  match file.bind utf8Text? with
  | none => .error .unreadable
  | some text =>
    match (Toml.read? text.toList).bind ofToml? with
    | none => .error .malformed
    | some s =>
      match s.problem? with
      | some cause => .error (.invalid cause)
      | none => .ok s

end Settings

end HttpCapture
