import HttpCapture.Cache.Report
import HttpCapture.Session.Grouping
import HttpCapture.Session.Reassembly
import HttpCapture.Session.Tags

/-! From captured packets to sessions, exchanges and the cache report. -/

namespace HttpCapture

structure Settings where
  /-- Where to write the report. -/
  report : Option String
  limits : ReadingLimits
  policy : CachePolicy

namespace Settings

def standard : Settings := ⟨none, ⟨.standard, 65536⟩, .standard⟩

def cacheRules (s : Settings) : CacheRules := ⟨s.policy, s.limits.completeness⟩

end Settings

structure Analysis where
  sessions : List Session
  cache : CacheReport

/-- Tagged and reassembled sessions of a capture. -/
def sessionsOf (settings : Settings) (packets : List Packet) : List Session :=
  (groupPackets packets).zipIdx.map fun (s, i) => s.annotate.reassemble settings.limits i

def analyze (settings : Settings) (packets : List Packet) : Analysis :=
  let sessions := sessionsOf settings packets
  ⟨sessions, settings.cacheRules.report sessions⟩

end HttpCapture
