import HttpCapture.Main
import HttpCapture.Proofs.CacheHistory
import HttpCapture.Proofs.DuplicateBytes
import HttpCapture.Proofs.MessageRoundTrip
import HttpCapture.Proofs.StreamCoverage
import HttpCapture.Proofs.AcknowledgedBytes
import HttpCapture.Proofs.SequenceShift
import HttpCapture.Proofs.HeadAnswers
import HttpCapture.Proofs.ReportAccounts
import HttpCapture.Proofs.ObjectChanges
import HttpCapture.Proofs.SessionGroups
import HttpCapture.Proofs.PayloadConservation
import HttpCapture.Proofs.CutStreams
import HttpCapture.Proofs.CacheContents
import HttpCapture.Proofs.CacheInvariant
import HttpCapture.Proofs.RangeHistory
import HttpCapture.Proofs.CacheIsolation
import HttpCapture.Proofs.BodyDamage
import HttpCapture.Proofs.DuplicateOriginals
import HttpCapture.Proofs.TraceRoundTrip
import HttpCapture.Proofs.PacketIndexes
import HttpCapture.Proofs.PairedExchanges
import HttpCapture.Proofs.RecordRuns
import HttpCapture.Proofs.BodilessMessages
import HttpCapture.Proofs.RenumberedTags
import HttpCapture.Proofs.TakenPackets
import HttpCapture.Proofs.ChunkGrammar
import HttpCapture.Proofs.LongerChunks
import HttpCapture.Proofs.MessageIntervals
import HttpCapture.Proofs.TagRules
import HttpCapture.Proofs.LossEpisodes
import HttpCapture.Proofs.StaleResponses
import HttpCapture.Proofs.ContentAgreement
import HttpCapture.Proofs.DirectiveLists
import HttpCapture.Proofs.RangeSetNormalForm
import HttpCapture.Proofs.AbsoluteTargets
import HttpCapture.Proofs.DecompressionNotes
import HttpCapture.Proofs.RangesInObjects
import HttpCapture.Proofs.UnquotedCommas
import HttpCapture.Proofs.SegmentLookups
import HttpCapture.Proofs.StreamTiling
