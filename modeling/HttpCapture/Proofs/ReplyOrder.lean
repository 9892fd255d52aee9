import HttpCapture.Proofs.CacheRun
import HttpCapture.Proofs.PairingOrder

/-! Replies in their order of arrival. The exchanges of a reassembled session are numbered by their
places, so a reference tells replies apart and leads to the response that the reply is about. -/

namespace HttpCapture

/-- The exchange that a reference means. -/
def exchangeAt? (sessions : List Session) (ref : ExchangeRef) : Option Exchange :=
  (sessions[ref.session]?).bind (·.exchanges[ref.exchange]?)

/-- Order of responses by capture time, then session, then place in the session. -/
def ArrivesBefore (sessions : List Session) (a b : ExchangeRef) : Prop :=
  ∀ x ∈ exchangeAt? sessions a, ∀ y ∈ exchangeAt? sessions b,
    x.timestamp.rank < y.timestamp.rank ∨ x.timestamp.rank = y.timestamp.rank ∧
      (a.session < b.session ∨ a.session = b.session ∧ a.exchange < b.exchange)

namespace Session

def Numbered (s : Session) : Prop :=
  ∀ (n : Nat) (e : Exchange), s.exchanges[n]? = some e → e.index = n

theorem numbered_reassemble (s : Session) (limits : ReadingLimits) (sessionIndex : Nat) :
    (s.reassemble limits sessionIndex).Numbered := by
  intro n e he
  rw [exchanges_reassemble] at he
  split at he
  · exact absurd he (by simp)
  · have he : (listExchanges _)[n]? = some e := he
    rw [getElem?_listExchanges] at he
    obtain ⟨found, -, rfl⟩ := Option.map_eq_some_iff.mp he
    obtain ⟨_, _, heq⟩ := Exchange.pairBy_eq (answers [] 0 _) { found with index := n } n
    rw [heq]

/-- Sessions reassembled from the given ones, each with its own limits and number. -/
def reassembleEach (ts : List (Session × ReadingLimits × Nat)) : List Session :=
  ts.map fun (s, limits, sessionIndex) => s.reassemble limits sessionIndex

theorem numbered_of_mem_reassembleEach {ts : List (Session × ReadingLimits × Nat)} :
    ∀ s ∈ reassembleEach ts, s.Numbered := by
  intro s hs
  obtain ⟨⟨t, limits, sessionIndex⟩, -, rfl⟩ := List.mem_map.mp hs
  exact t.numbered_reassemble limits sessionIndex

end Session

namespace Reply

theorem arrivedBefore_iff {a b : Reply} :
    a.arrivedBefore b = true ↔ a.response.timestamp.rank < b.response.timestamp.rank ∨
      a.response.timestamp.rank = b.response.timestamp.rank ∧
        (a.ref.session < b.ref.session ∨
          a.ref.session = b.ref.session ∧ a.ref.exchange ≤ b.ref.exchange) := by
  simp [arrivedBefore]

theorem arrivedBefore_trans (a b c : Reply) (hab : a.arrivedBefore b = true)
    (hbc : b.arrivedBefore c = true) : a.arrivedBefore c = true := by
  rw [arrivedBefore_iff] at *
  omega

theorem arrivedBefore_total (a b : Reply) : (a.arrivedBefore b || b.arrivedBefore a) = true := by
  rw [Bool.or_eq_true, arrivedBefore_iff, arrivedBefore_iff]
  omega

end Reply

section

variable {sessions : List Session}

theorem mem_unsortedReplies {r : Reply} :
    r ∈ unsortedReplies sessions ↔
      ∃ (s : Session) (i : Nat), sessions[i]? = some s ∧ r ∈ s.replies i := by
  simp [unsortedReplies, List.mem_flatMap, List.mem_zipIdx_iff_getElem?]

theorem exchangeAt?_of_mem (hnumbered : ∀ s ∈ sessions, s.Numbered) {r : Reply}
    (hr : r ∈ unsortedReplies sessions) :
    exchangeAt? sessions r.ref = some r.response ∧ r.response.isResponse = true := by
  obtain ⟨s, i, hs, hr⟩ := mem_unsortedReplies.mp hr
  obtain ⟨e, he, rfl⟩ := List.mem_map.mp hr
  obtain ⟨hmem, hresponse⟩ := List.mem_filter.mp he
  obtain ⟨n, hn⟩ := List.mem_iff_getElem?.mp hmem
  have hindex := hnumbered s (List.mem_of_getElem? hs) n e hn
  refine ⟨?_, hresponse⟩
  rw [exchangeAt?, hs, Option.bind_some, hindex, hn]
  rfl

theorem exists_reply_of_exchangeAt? (hnumbered : ∀ s ∈ sessions, s.Numbered) {ref : ExchangeRef}
    {e : Exchange} (he : exchangeAt? sessions ref = some e) (hresponse : e.isResponse = true) :
    ∃ r ∈ unsortedReplies sessions, r.ref = ref := by
  obtain ⟨s, hs, hn⟩ := Option.bind_eq_some_iff.mp he
  have hindex := hnumbered s (List.mem_of_getElem? hs) _ e hn
  have hmem := List.mem_filter.mpr ⟨List.mem_of_getElem? hn, hresponse⟩
  refine ⟨_, mem_unsortedReplies.mpr ⟨s, ref.session, hs, List.mem_map_of_mem hmem⟩, ?_⟩
  simp [hindex]

theorem nodup_refs_unsortedReplies (hnumbered : ∀ s ∈ sessions, s.Numbered) :
    ((unsortedReplies sessions).map (·.ref)).Nodup := by
  rw [List.Nodup, List.pairwise_map, unsortedReplies, List.pairwise_flatMap]
  constructor
  · rintro ⟨s, i⟩ hs
    have hs : s.Numbered := hnumbered s (List.fst_mem_of_mem_zipIdx hs)
    refine List.pairwise_map.mpr (List.Pairwise.filter _ (List.pairwise_iff_getElem.mpr ?_))
    intro m n hm hn hmn hsame
    have hindex := (ExchangeRef.mk.inj hsame).2
    rw [hs m _ (List.getElem?_eq_getElem hm), hs n _ (List.getElem?_eq_getElem hn)] at hindex
    omega
  · refine List.pairwise_iff_getElem.mpr fun m n hm hn hmn x hx y hy hsame => ?_
    obtain ⟨_, -, rfl⟩ := List.mem_map.mp hx
    obtain ⟨_, -, rfl⟩ := List.mem_map.mp hy
    have hsession := (ExchangeRef.mk.inj hsame).1
    simp only [List.getElem_zipIdx] at hsession
    omega

theorem repliesOf_perm (sessions : List Session) :
    (repliesOf sessions).Perm (unsortedReplies sessions) :=
  List.mergeSort_perm _ _

theorem nodup_refs_repliesOf (hnumbered : ∀ s ∈ sessions, s.Numbered) :
    ((repliesOf sessions).map (·.ref)).Nodup :=
  ((repliesOf_perm sessions).map _).nodup_iff.mpr (nodup_refs_unsortedReplies hnumbered)

theorem repliesOf_ordered (hnumbered : ∀ s ∈ sessions, s.Numbered) :
    ((repliesOf sessions).map (·.ref)).Pairwise (ArrivesBefore sessions) := by
  have hsorted : (repliesOf sessions).Pairwise fun a b => a.arrivedBefore b = true :=
    List.pairwise_mergeSort Reply.arrivedBefore_trans Reply.arrivedBefore_total _
  have hdistinct := List.pairwise_map.mp (nodup_refs_repliesOf hnumbered)
  refine List.pairwise_map.mpr ((hsorted.and hdistinct).imp_of_mem ?_)
  rintro a b ha hb ⟨hab, hne⟩ x hx y hy
  have ha := (exchangeAt?_of_mem hnumbered ((repliesOf_perm sessions).mem_iff.mp ha)).1
  have hb := (exchangeAt?_of_mem hnumbered ((repliesOf_perm sessions).mem_iff.mp hb)).1
  obtain rfl : a.response = x := Option.some.inj (ha.symm.trans hx)
  obtain rfl : b.response = y := Option.some.inj (hb.symm.trans hy)
  -- Two replies of one session and one place would be the same.
  have hplace : ¬(a.ref.session = b.ref.session ∧ a.ref.exchange = b.ref.exchange) := by
    rintro ⟨hs, he⟩
    exact hne (by cases ha : a.ref; cases hb : b.ref; simp_all)
  rw [Reply.arrivedBefore_iff] at hab
  omega

end

/-- A session with its messages listed as they are found, those of the requests' stream first. -/
def Session.listedAsFound (s : Session) (limits : ReadingLimits) (sessionIndex : Nat) : Session :=
  { s.withStreams with
    exchanges := listExchanges (s.withStreams.plainExchanges limits sessionIndex) }

/-- Where the messages of both streams are found in the order of their capture, sorting leaves
them. -/
theorem Session.reassemble_of_sorted {s : Session} {limits : ReadingLimits} {sessionIndex : Nat}
    (hpackets : (s.packets.isEmpty || !s.isTcp) = false) (hplain : (s.ssl && !s.decrypted) = false)
    (hcaptured : (s.withStreams.plainExchanges limits sessionIndex).Pairwise fun a b =>
      a.capturedBefore b = true ∧ b.capturedBefore a = false) :
    s.reassemble limits sessionIndex = s.listedAsFound limits sessionIndex := by
  have hfound : (s.reassemble limits sessionIndex).plainExchanges limits sessionIndex =
      s.withStreams.plainExchanges limits sessionIndex := by
    rw [reassemble_eq limits sessionIndex hpackets]
    rfl
  rw [reassemble_eq limits sessionIndex hpackets,
    exchanges_of_perm _ hpackets hplain (.of_eq hfound) hcaptured]
  rfl

theorem repliesOf_reassembleEach {s : Session} {limits : ReadingLimits} {sessionIndex : Nat}
    (hpackets : (s.packets.isEmpty || !s.isTcp) = false) (hplain : (s.ssl && !s.decrypted) = false)
    (hcaptured : (s.withStreams.plainExchanges limits sessionIndex).Pairwise fun a b =>
      a.capturedBefore b = true ∧ b.capturedBefore a = false)
    (harrived : (unsortedReplies [s.listedAsFound limits sessionIndex]).Pairwise fun a b =>
      a.arrivedBefore b) :
    repliesOf (Session.reassembleEach [(s, limits, sessionIndex)]) =
      unsortedReplies [s.listedAsFound limits sessionIndex] := by
  have hsession : Session.reassembleEach [(s, limits, sessionIndex)] =
      [s.listedAsFound limits sessionIndex] :=
    congrArg ([·]) (Session.reassemble_of_sorted hpackets hplain hcaptured)
  rw [hsession, repliesOf_of_pairwise harrived]

/-- As many requests as replies, all captured before the first reply. -/
def sampleConversation (replies : List String) : Session :=
  .ofPackets .sample .tcp
    ((List.range replies.length).map (fun i =>
        .sampleAt (.ofNat (i + 1)) .uplink (.ofNat (100 * i)) "GET / HTTP/1.1\r\n\r\n") ++
      replies.zipIdx.map fun (text, i) =>
        .sampleAt (.ofNat (replies.length + i + 1)) .downlink (.ofNat (1000 * i)) text)

/-- A reply with a body of one chunk of two bytes. -/
def sampleReply (status fields body : String) : String :=
  "HTTP/1.1 " ++ status ++ "\r\n" ++ fields ++
    "\r\nTransfer-Encoding: chunked\r\n\r\n2\r\n" ++ body ++ "\r\n0\r\n\r\n"

end HttpCapture
