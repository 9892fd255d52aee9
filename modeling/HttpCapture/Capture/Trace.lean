import HttpCapture.Capture.RecordReader
import HttpCapture.Json.Printer
import HttpCapture.Text.Line

/-! Traces: files with one packet a line. Lines that hold no packet are skipped, but all of the
file has to be UTF-8. -/

namespace HttpCapture

inductive TraceError
  | notText
  deriving DecidableEq, Repr

/-- The packet on a line, if it holds one. -/
def Packet.ofLine? (line : String) : Option Packet :=
  (JsonTree.ofText? line.toList).bind JsonTree.packet?

/-- The packets of a trace file. -/
def readTrace (file : Bytes) : Except TraceError (List Packet) :=
  match (splitAll lineFeed file).mapM utf8Text? with
  | some lines => .ok (lines.filterMap Packet.ofLine?)
  | none => .error .notText

/-- The packets of a file that may be missing. -/
def loadTrace (file : Option Bytes) : Except TraceError (List Packet) :=
  match file with
  | some bytes => readTrace bytes
  | none => .ok []

def Packet.line (p : Packet) : String := p.toJson.compact ++ "\n"

/-- A file with the given packets added at its end. -/
def appendTrace (file : Bytes) (ps : List Packet) : Bytes :=
  file ++ ps.flatMap fun p => utf8Bytes p.line

end HttpCapture
