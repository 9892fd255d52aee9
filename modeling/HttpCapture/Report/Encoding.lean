import HttpCapture.Analysis
import HttpCapture.Capture.Record

/-! The written form of exchanges, sessions and reports as JSON values. Members stand in a fixed
order. -/

namespace HttpCapture

def SessionKey.toJson (k : SessionKey) : Json :=
  .obj [("local_addr", k.localAddr.toJson), ("local_port", .nat k.localPort.toNat),
    ("remote_port", .nat k.remotePort.toNat), ("remote_addr", k.remoteAddr.toJson)]

def Termination.toJson (t : Termination) : Json :=
  .obj [("packet", .nat t.packet), ("kind", .str t.kind.name),
    ("since_previous", .ofFloat t.sincePrevious)]

def SessionDiagnostic.toJson : SessionDiagnostic → Json
  | .withoutPackets => .obj [("kind", .str "session_without_packets")]
  | .indeterminateDirection packet assumed =>
    .obj [("kind", .str "indeterminate_direction"), ("packet", .nat packet),
      ("assumed", assumed.toJson)]

def StartLine.toJson : StartLine → Json
  | .request method uri version =>
    .obj [("kind", .str "request"), ("method", .str method), ("uri", .str uri),
      ("version", .str version)]
  | .response version status reason =>
    .obj [("kind", .str "response"), ("version", .str version), ("status", .nat status),
      ("reason", .str reason)]
  | .encrypted => .obj [("kind", .str "opaque")]

def ByteRange.toJson (r : ByteRange) : Json :=
  .obj [("first", .nat r.first.toNat), ("last", .nat r.last.toNat)]

def ExchangeDiagnostic.toJson : ExchangeDiagnostic → Json
  | .payloadTruncated declared available =>
    .obj [("kind", .str "payload_truncated"), ("declared", .option .nat declared),
      ("available", .nat available)]
  | .chunkFramingCorrupt offset =>
    .obj [("kind", .str "chunk_framing_corrupt"), ("offset", .option .nat offset)]
  | .decompressionFailure reason =>
    .obj [("kind", .str "decompression_failure"), ("reason", .str reason)]
  | .requestResponseUnlinked => .obj [("kind", .str "request_response_unlinked")]

/-- Put a value under a name; a name that is there already gets the values joined by commas. -/
def joinValue (name value : String) : List (String × String) → List (String × String)
  | [] => [(name, value)]
  | (n, v) :: rest =>
    if name < n then (name, value) :: (n, v) :: rest
    else if name = n then (n, v ++ ", " ++ value) :: rest
    else (n, v) :: joinValue name value rest

/-- The readable values by name, names ascending. -/
def Fields.joined (fields : Fields) : List (String × String) :=
  fields.foldl (fun acc f =>
    match valueText? f.value with
    | some v => joinValue f.name v acc
    | none => acc) []

def Exchange.toJson (e : Exchange) : Json :=
  .obj [("session", .nat e.session), ("index", .nat e.index), ("direction", e.direction.toJson),
    ("start_line", e.startLine.toJson),
    ("headers", .obj (e.fields.joined.map fun (n, v) => (n, .str v))),
    ("head_offset", .nat e.headOffset), ("head_len", .nat e.headLength),
    ("body", .obj (e.body.map fun (offset, length) => (toString offset, .nat length))),
    ("content_length", .option .nat e.contentLength), ("chunked", .bool e.chunked),
    ("chunks_complete", .bool e.chunksComplete), ("extractable", .bool e.extractable),
    ("range", .option ByteRange.toJson e.range),
    ("instance_length", .option .nat e.instanceLength),
    ("first_packet", .option .nat e.firstPacket), ("last_packet", .option .nat e.lastPacket),
    ("timestamp", e.timestamp.toJson), ("last_timestamp", e.lastTimestamp.toJson),
    ("wire_bytes", .nat e.wireBytes), ("paired", .option .nat e.paired),
    ("diagnostics", .list ExchangeDiagnostic.toJson e.diagnostics)]

def StreamSegment.toJson (s : StreamSegment) : Json :=
  .obj [("offset", .nat s.offset), ("len", .nat s.length), ("packet", .nat s.packet)]

def ExchangeRef.toJson (r : ExchangeRef) : Json :=
  .obj [("session", .nat r.session), ("exchange", .nat r.exchange)]

def ObjectIdentity.toJson (i : ObjectIdentity) : Json :=
  .obj [("host", .str i.host), ("path", .str i.path), ("validator", .option .str i.validator),
    ("length", .option .nat i.length)]

def CacheDecision.toJson (d : CacheDecision) : Json :=
  .obj [("response", d.response.toJson), ("request", .option ExchangeRef.toJson d.request),
    ("identity", .option ObjectIdentity.toJson d.identity), ("diagnosis", .str d.diagnosis.name),
    ("expiry", .option (fun f => .str f.name) d.freshness),
    ("duplicate_bytes", .nat d.duplicateBytes), ("uncovered_bytes", .nat d.uncoveredBytes)]

def DuplicateEntry.toJson (e : DuplicateEntry) : Json :=
  .obj [("identity", e.identity.toJson), ("original", e.original.toJson),
    ("occurrences", .list ExchangeRef.toJson e.occurrences), ("bytes", .nat e.bytes)]

def CacheReport.toJson (r : CacheReport) : Json :=
  .obj [("decisions", .list CacheDecision.toJson r.decisions),
    ("duplicates", .list DuplicateEntry.toJson r.duplicates),
    ("total_response_bytes", .nat r.totalResponseBytes),
    ("duplicate_bytes", .nat r.duplicateBytes), ("duplicate_ratio", .ofFloat r.duplicateRatio),
    ("expiry", .obj (r.byFreshness.map fun (f, refs) => (f.name, .list ExchangeRef.toJson refs))),
    ("diagnosis_counts", .obj (r.diagnosisCounts.map fun (d, n) => (d.name, .nat n)))]

/-- What the report says of an exchange. -/
def Exchange.summary (e : Exchange) : Json :=
  .obj [("index", .nat e.index), ("direction", e.direction.toJson),
    ("method", .option .str e.method?), ("uri", .option .str e.uri?),
    ("status", .option .nat e.status?), ("timestamp", e.timestamp.toJson),
    ("wire_bytes", .nat e.wireBytes), ("opaque", .bool e.isEncrypted),
    ("extractable", .bool e.extractable), ("paired", .option .nat e.paired),
    ("diagnostics", .list ExchangeDiagnostic.toJson e.diagnostics)]

/-- What the report says of the session at a place. -/
def Session.summary (s : Session) (index : Nat) : Json :=
  .obj [("index", .nat index), ("key", s.key.toJson), ("transport", .str s.transport.name),
    ("remote_host", .option .str s.remoteHost), ("packets", .nat s.packets.length),
    ("start", .option Timestamp.toJson s.startTime), ("end", .option Timestamp.toJson s.endTime),
    ("uplink_bytes", .nat (s.payloadBytes .uplink)),
    ("downlink_bytes", .nat (s.payloadBytes .downlink)),
    ("latency", .option .ofFloat s.latency), ("ssl", .bool s.ssl),
    ("termination", .option Termination.toJson s.termination),
    ("exchanges", .list Exchange.summary s.exchanges),
    ("diagnostics", .list SessionDiagnostic.toJson s.diagnostics)]

/-- The report of an analysis. -/
def Analysis.summary (a : Analysis) : Json :=
  .obj [("sessions", .arr (a.sessions.zipIdx.map fun (s, i) => s.summary i)),
    ("cache", a.cache.toJson)]

def Settings.toJson (s : Settings) : Json :=
  .obj [("general", .obj [("report", .option .str s.report)]),
    ("reassembly", .obj [("completeness_threshold", .ofFloat s.limits.completeness.threshold),
      ("max_header_bytes", .nat s.limits.maxHead)]),
    ("cache", .obj [("heuristic_freshness_secs", .int s.policy.assumedLifetime),
      ("cacheable_methods", .list .str s.policy.methods)])]

end HttpCapture
