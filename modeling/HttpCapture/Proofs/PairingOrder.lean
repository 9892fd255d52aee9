import HttpCapture.Proofs.ListedExchanges
import HttpCapture.Proofs.MessagePlaces
import HttpCapture.Proofs.SessionIndexes

/-! The order in which the requests and responses of a session are paired. What each direction's
stream gives is put in one list, and pairs follow this list. -/

namespace HttpCapture

namespace Session

theorem plainExchanges_ascending (s : Session) (limits : ReadingLimits) (sessionIndex : Nat) :
    (s.plainExchanges limits sessionIndex).Pairwise fun a b =>
      a.direction = b.direction → a.headOffset < b.headOffset := by
  have hup := (s.reading limits sessionIndex .uplink).cuts_messages []
  have hdown := (s.reading limits sessionIndex .downlink).cuts_messages
    (((s.reading limits sessionIndex .uplink).messages []).filterMap Exchange.method?)
  refine List.pairwise_append.mpr ⟨hup.ascending.imp (by intro _ _ h _; exact h),
    hdown.ascending.imp (by intro _ _ h _; exact h), fun a ha b hb hab => ?_⟩
  rw [(hup.of_mem a ha).2.1, (hdown.of_mem b hb).2.1] at hab
  cases hab

theorem exchanges_reassemble (s : Session) (limits : ReadingLimits) (sessionIndex : Nat) :
    (s.reassemble limits sessionIndex).exchanges =
      if s.packets.isEmpty || !s.isTcp then []
      else (s.reassemble limits sessionIndex).findExchanges limits sessionIndex := by
  unfold reassemble
  cases hpackets : s.packets.isEmpty with
  | true =>
    simp only [hpackets, if_true, Bool.true_or]
    split <;> rfl
  | false =>
    cases htcp : s.isTcp with
    | false =>
      have htcp' : Session.isTcp { s with exchanges := [], streams := .both .empty } = false := htcp
      simp [hpackets, htcp']
    | true =>
      have htcp' : Session.isTcp { s with exchanges := [], streams := .both .empty } = true := htcp
      simp only [hpackets, htcp', Bool.not_true, Bool.false_or, Bool.false_eq_true, if_false]
      rfl

theorem reassemble_eq {s : Session} (limits : ReadingLimits) (sessionIndex : Nat)
    (hpackets : (s.packets.isEmpty || !s.isTcp) = false) :
    s.reassemble limits sessionIndex =
      { s.withStreams with exchanges := (s.reassemble limits sessionIndex).exchanges } := by
  obtain ⟨hnonempty, htcp⟩ := Bool.or_eq_false_iff.mp hpackets
  have htcp : (!Session.isTcp { s with exchanges := [], streams := .both .empty }) = false := htcp
  unfold reassemble
  simp only [hnonempty, htcp, Bool.false_eq_true, if_false]
  rfl

theorem encryption_reassemble (s : Session) (limits : ReadingLimits) (sessionIndex : Nat) :
    (s.reassemble limits sessionIndex).ssl = s.ssl ∧
      (s.reassemble limits sessionIndex).decrypted = s.decrypted := by
  unfold reassemble
  dsimp only
  split
  · split <;> exact ⟨rfl, rfl⟩
  · split <;> exact ⟨rfl, rfl⟩

theorem isEncrypted_of_mem {s : Session} {sessionIndex : Nat} {es : List Exchange}
    (h : es.Perm (s.encryptedExchanges sessionIndex)) :
    ∀ e ∈ listExchanges es, e.isEncrypted = true := by
  intro e he
  obtain ⟨i, hi⟩ := List.mem_iff_getElem?.mp he
  rw [getElem?_listExchanges] at hi
  obtain ⟨m, hm, rfl⟩ := Option.map_eq_some_iff.mp hi
  obtain ⟨run, _, hrun⟩ := List.mem_map.mp (h.mem_iff.mp (List.mem_of_getElem? hm))
  obtain ⟨_, _, heq⟩ := Exchange.pairBy_eq (answers [] 0 es) { m with index := i } i
  rw [heq, ← hrun]
  rfl

theorem exchanges_of_perm {s : Session} {limits : ReadingLimits} {sessionIndex : Nat}
    (es : List Exchange) (hpackets : (s.packets.isEmpty || !s.isTcp) = false)
    (hplain : (s.ssl && !s.decrypted) = false)
    (hperm : ((s.reassemble limits sessionIndex).plainExchanges limits sessionIndex).Perm es)
    (hcaptured : es.Pairwise fun a b => a.capturedBefore b = true ∧ b.capturedBefore a = false) :
    (s.reassemble limits sessionIndex).exchanges = listExchanges es := by
  obtain ⟨hssl, hdecrypted⟩ := s.encryption_reassemble limits sessionIndex
  rw [exchanges_reassemble, hpackets, if_neg Bool.false_ne_true, findExchanges, hssl, hdecrypted,
    hplain, if_neg Bool.false_ne_true, mergeSort_eq_of_perm Exchange.capturedBefore_trans
      Exchange.capturedBefore_total hperm hcaptured]
  rfl

theorem exchanges_eq_of_plain {s : Session} {limits : ReadingLimits} {sessionIndex : Nat}
    {e : Exchange} (he : e ∈ (s.reassemble limits sessionIndex).exchanges)
    (hplain : e.isEncrypted = false) :
    (s.reassemble limits sessionIndex).exchanges = listExchanges
      (((s.reassemble limits sessionIndex).plainExchanges limits sessionIndex).mergeSort
        Exchange.capturedBefore) := by
  rw [exchanges_reassemble] at he ⊢
  split at he
  · exact absurd he List.not_mem_nil
  · next hfound =>
    rw [if_neg hfound]
    unfold findExchanges at he ⊢
    dsimp only at he ⊢
    split at he
    · rw [isEncrypted_of_mem (List.mergeSort_perm _ _) e he] at hplain
      cases hplain
    · next h => rw [if_neg h]; rfl

end Session

/-- A packet of the sample session at the given moment. -/
def SessionPacket.sampleAt (time : UInt64) (d : Direction) (seq : UInt32) (text : String) :
    SessionPacket :=
  let p := SessionPacket.sample d seq 0 (utf8Bytes text)
  { p with packet := { p.packet with timestamp := ⟨time⟩ } }

/-- Pairing follows the order of capture, and so the order of both streams
where they agree with it. -/
theorem pairs_in_capture_order (s : Session) (limits : ReadingLimits) (sessionIndex : Nat)
    {q₁ q₂ r₁ r₂ : Exchange} {j₁ j₂ : Nat}
    (hq₁ : q₁ ∈ (s.reassemble limits sessionIndex).exchanges)
    (hq₂ : q₂ ∈ (s.reassemble limits sessionIndex).exchanges)
    (hrequest₁ : q₁.isRequest = true) (hrequest₂ : q₂.isRequest = true)
    (hplain : q₁.isEncrypted = false)
    (hpaired₁ : q₁.paired = some j₁) (hpaired₂ : q₂.paired = some j₂)
    (hr₁ : (s.reassemble limits sessionIndex).exchanges[j₁]? = some r₁)
    (hr₂ : (s.reassemble limits sessionIndex).exchanges[j₂]? = some r₂)
    (hup : q₁.direction = q₂.direction) (hdown : r₁.direction = r₂.direction) :
    (q₁.Precedes q₂ ↔ r₁.Precedes r₂) ∧
      (q₁.InStep q₂ → r₁.InStep r₂ →
        (q₁.headOffset < q₂.headOffset ↔ r₁.headOffset < r₂.headOffset)) := by
  have hlist := Session.exchanges_eq_of_plain hq₁ hplain
  rw [hlist] at hq₁ hq₂ hr₁ hr₂
  have hlisted := listedInOrder_mergeSort
    ((s.reassemble limits sessionIndex).plainExchanges_ascending limits sessionIndex)
  have hiff := hlisted.paired_precedes_iff hq₁ hq₂ hrequest₁ hrequest₂ hpaired₁ hpaired₂ hr₁ hr₂ hup
    hdown
  refine ⟨hiff, fun hq hr => ?_⟩
  rw [← hq.precedes_iff, ← hr.precedes_iff, hiff]

/-- Two requests of which the body of the first was captured last of all, and their responses. -/
theorem pairs_in_capture_order_of_late_body :
    let ps : List SessionPacket :=
      [.sampleAt 1 .uplink 100 "POST /a HTTP/1.1\r\nContent-Length: 4\r\n\r\nab",
        .sampleAt 2 .uplink 143 "GET /b HTTP/1.1\r\n\r\n",
        .sampleAt 3 .downlink 500 "HTTP/1.1 201 Created\r\nContent-Length: 0\r\n\r\n",
        .sampleAt 4 .downlink 543 "HTTP/1.1 202 Accepted\r\nContent-Length: 0\r\n\r\n",
        .sampleAt 5 .uplink 141 "cd"]
    let t := (Session.ofPackets .sample .tcp ps).reassemble ⟨.standard, 80⟩ 0
    ∃ q₁ q₂ r₁ r₂, t.exchanges = [q₁, q₂, r₁, r₂] ∧
      q₁.startLine = .request "POST" "/a" "HTTP/1.1" ∧
      q₂.startLine = .request "GET" "/b" "HTTP/1.1" ∧
      q₁.paired = some 2 ∧ q₂.paired = some 3 ∧ q₁.direction = q₂.direction ∧
      r₁.direction = r₂.direction ∧ q₁.InStep q₂ ∧ r₁.InStep r₂ ∧ q₁.headOffset < q₂.headOffset ∧
      r₁.headOffset < r₂.headOffset := by
  intro ps t
  have hlist : t.exchanges = listExchanges (t.plainExchanges ⟨.standard, 80⟩ 0) :=
    Session.exchanges_of_perm _ (by decide) (by decide) (by decide +kernel) (by decide +kernel)
  have hmap : t.exchanges.map (fun e => (e.startLine, e.paired)) =
        [(.request "POST" "/a" "HTTP/1.1", some 2), (.request "GET" "/b" "HTTP/1.1", some 3),
          (.response "HTTP/1.1" 201 "Created", some 0),
          (.response "HTTP/1.1" 202 "Accepted", some 1)] ∧
      t.exchanges.map (fun e => (e.direction, e.headOffset, e.timestamp.rank)) =
        [(.uplink, 0, 1), (.uplink, 43, 2), (.downlink, 0, 3), (.downlink, 43, 4)] := by
    rw [hlist]
    decide +kernel
  obtain ⟨q₁, q₂, r₁, r₂, hes⟩ : ∃ q₁ q₂ r₁ r₂, t.exchanges = [q₁, q₂, r₁, r₂] :=
    List.length_eq_four.mp (by simpa using congrArg List.length hmap.1)
  rw [hes] at hmap
  simp only [List.map_cons, List.map_nil, List.cons.injEq, Prod.mk.injEq, and_true] at hmap
  obtain ⟨⟨⟨hline₁, hpaired₁⟩, ⟨hline₂, hpaired₂⟩, -⟩, ⟨hq₁, hoffq₁, htq₁⟩, ⟨hq₂, hoffq₂, htq₂⟩,
    ⟨hr₁, hoffr₁, htr₁⟩, hr₂, hoffr₂, htr₂⟩ := hmap
  have hstep₁ : q₁.InStep q₂ := by simp [Exchange.InStep, hoffq₁, hoffq₂, htq₁, htq₂]
  have hstep₂ : r₁.InStep r₂ := by simp [Exchange.InStep, hoffr₁, hoffr₂, htr₁, htr₂]
  have hlt : q₁.headOffset < q₂.headOffset := by simp [hoffq₁, hoffq₂]
  have horder := pairs_in_capture_order (Session.ofPackets .sample .tcp ps) ⟨.standard, 80⟩ 0
    (show q₁ ∈ t.exchanges by simp [hes]) (show q₂ ∈ t.exchanges by simp [hes])
    (by simp [Exchange.isRequest, hline₁]) (by simp [Exchange.isRequest, hline₂])
    (by simp [Exchange.isEncrypted, hline₁]) hpaired₁ hpaired₂
    (show t.exchanges[2]? = some r₁ by simp [hes]) (show t.exchanges[3]? = some r₂ by simp [hes])
    (hq₁.trans hq₂.symm) (hr₁.trans hr₂.symm)
  exact ⟨q₁, q₂, r₁, r₂, hes, hline₁, hline₂, hpaired₁, hpaired₂, hq₁.trans hq₂.symm,
    hr₁.trans hr₂.symm, hstep₁, hstep₂, hlt, (horder.2 hstep₁ hstep₂).mp hlt⟩

/-- Requests captured in another order than they have in the stream, and their responses. -/
theorem pairs_against_stream_order :
    let ps : List SessionPacket :=
      [.sampleAt 1 .uplink 118 "GET /b HTTP/1.1\r\n\r\n",
        .sampleAt 2 .uplink 99 "GET /a HTTP/1.1\r\n\r\n",
        .sampleAt 3 .downlink 500 "HTTP/1.1 201 Created\r\nContent-Length: 0\r\n\r\n",
        .sampleAt 4 .downlink 543 "HTTP/1.1 202 Accepted\r\nContent-Length: 0\r\n\r\n"]
    let t := (Session.ofPackets .sample .tcp ps).reassemble ⟨.standard, 80⟩ 0
    ps.Pairwise (fun a b => a.packet.timestamp.rank < b.packet.timestamp.rank) ∧
      t.exchanges.map (fun e => (e.startLine, e.direction, e.headOffset, e.paired)) =
        [(.request "GET" "/b" "HTTP/1.1", .uplink, 19, some 2),
          (.request "GET" "/a" "HTTP/1.1", .uplink, 0, some 3),
          (.response "HTTP/1.1" 201 "Created", .downlink, 0, some 0),
          (.response "HTTP/1.1" 202 "Accepted", .downlink, 43, some 1)] := by
  intro ps t
  let found := t.plainExchanges ⟨.standard, 80⟩ 0
  have hlist : t.exchanges = listExchanges ([1, 0, 2, 3].filterMap (found[·]?)) :=
    Session.exchanges_of_perm _ (by decide) (by decide) (by decide +kernel) (by decide +kernel)
  refine ⟨by decide, ?_⟩
  rw [hlist]
  decide +kernel

end HttpCapture
