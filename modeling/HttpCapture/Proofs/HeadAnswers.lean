import HttpCapture.Proofs.PairingOrder

/-! Answers to HEAD requests. Messages are read with the methods of the requests in stream order,
before anything is paired. A response is read with the method of the request it is then paired with
as long as capture and stream order agree and no response before it was left without a request. -/

namespace HttpCapture

theorem exists_getElem?_of_filter {α : Type} {p : α → Bool} {l : List α} {n : Nat} {a : α}
    (h : (l.filter p)[n]? = some a) : ∃ k, l[k]? = some a ∧ (l.take k).countP p = n := by
  induction l generalizing n with
  | nil => simp at h
  | cons x l ih =>
    by_cases hx : p x = true
    · rw [List.filter_cons_of_pos hx] at h
      cases n with
      | zero => exact ⟨0, by simpa using h, rfl⟩
      | succ n =>
        obtain ⟨k, hk, hcount⟩ := ih (by simpa using h)
        exact ⟨k + 1, by simpa using hk, by simp [hx, hcount]⟩
    · rw [List.filter_cons_of_neg hx] at h
      obtain ⟨k, hk, hcount⟩ := ih h
      exact ⟨k + 1, by simpa using hk, by simp [hx, hcount]⟩

theorem getElem?_filterMap_of_isSome {α β : Type} {f : α → Option β} {l : List α}
    (h : ∀ a ∈ l, (f a).isSome = true) (n : Nat) : (l.filterMap f)[n]? = l[n]?.bind f := by
  induction l generalizing n with
  | nil => rfl
  | cons a l ih =>
    obtain ⟨b, hb⟩ := Option.isSome_iff_exists.mp (h a List.mem_cons_self)
    rw [List.filterMap_cons_some hb]
    cases n with
    | zero => exact hb.symm
    | succ n => simpa using ih (fun a ha => h a (List.mem_cons_of_mem _ ha)) n

/-- The places of the exchanges of a kind, the first exchange being at `i`. -/
def placesOf (kind : Exchange → Bool) (i : Nat) (es : List Exchange) : List Nat :=
  ((es.zipIdx i).filter fun x => kind x.1).map (·.2)

theorem placesOf_cons (kind : Exchange → Bool) (i : Nat) (e : Exchange) (es : List Exchange) :
    placesOf kind i (e :: es) =
      if kind e then i :: placesOf kind (i + 1) es else placesOf kind (i + 1) es := by
  unfold placesOf
  rw [List.zipIdx_cons, List.filter_cons]
  split <;> simp

theorem getElem?_of_placesOf {kind : Exchange → Bool} {es : List Exchange} {n k : Nat}
    (h : (placesOf kind 0 es)[n]? = some k) : es[k]? = (es.filter kind)[n]? := by
  unfold placesOf at h
  rw [List.getElem?_map] at h
  obtain ⟨⟨e, _⟩, he, rfl⟩ := Option.map_eq_some_iff.mp h
  have hmem := (List.mem_filter.mp (List.mem_of_getElem? he)).1
  have hfilter : es.filter kind = (es.zipIdx.filter fun x => kind x.1).map Prod.fst := by
    conv_lhs => rw [← List.zipIdx_map_fst 0 es, List.filter_map]
    rfl
  rw [hfilter, List.getElem?_map, he]
  exact List.mk_mem_zipIdx_iff_getElem?.mp hmem

/-- As long as none is left without a request, the final responses are given
the requests in turn. -/
theorem places_of_answers {waiting : List Nat} {i : Nat} {es : List Exchange} {n j x : Nat}
    (h : (answers waiting i es)[n]? = some (j, some x))
    (hlinked : ∀ k < n, ∀ p ∈ (answers waiting i es)[k]?, p.2.isSome = true) :
    (placesOf Exchange.isFinal i es)[n]? = some j ∧
      (waiting ++ placesOf Exchange.isRequest i es)[n]? = some x := by
  induction es generalizing waiting i n with
  | nil => simp [answers] at h
  | cons e es ih =>
    rw [answers] at h hlinked
    rw [placesOf_cons, placesOf_cons]
    cases hrequest : e.isRequest with
    | true =>
      simp only [hrequest, if_true] at h hlinked
      simpa [Exchange.isFinal_of_isRequest hrequest] using ih h hlinked
    | false =>
      simp only [hrequest, Bool.false_eq_true, if_false] at h hlinked ⊢
      cases hfinal : e.isFinal with
      | false =>
        simp only [hfinal, Bool.false_eq_true, if_false] at h hlinked ⊢
        exact ih h hlinked
      | true =>
        simp only [hfinal, if_true] at h hlinked ⊢
        cases n with
        | zero =>
          obtain ⟨rfl, hhead⟩ := Prod.mk.inj (Option.some.inj h)
          obtain ⟨waiting, rfl⟩ := List.head?_eq_some_iff.mp hhead
          exact ⟨rfl, rfl⟩
        | succ n =>
          -- A request was waiting, or this response would be without one.
          obtain ⟨first, hfirst⟩ := Option.isSome_iff_exists.mp (hlinked 0 (Nat.succ_pos n) _ rfl)
          obtain ⟨waiting, rfl⟩ := List.head?_eq_some_iff.mp hfirst
          exact ih h fun k hk p hp => hlinked (k + 1) (Nat.succ_lt_succ hk) p hp

theorem exists_listed {es : List Exchange} {i : Nat} {e : Exchange} (h : es[i]? = some e) :
    ∃ paired diagnostics, (listExchanges es)[i]? =
      some { e with index := i, paired := paired, diagnostics := diagnostics } := by
  obtain ⟨paired, diagnostics, heq⟩ := Exchange.pairBy_eq (answers [] 0 es) { e with index := i } i
  exact ⟨paired, diagnostics, by rw [getElem?_listExchanges, h, Option.map_some, heq]⟩

theorem lookup_eq_some_of_mem {pairs : List (Nat × Option Nat)} {j : Nat} {partner : Option Nat}
    (h : pairs.Pairwise fun a b => a.1 < b.1) (hmem : (j, partner) ∈ pairs) :
    pairs.lookup j = some partner := by
  induction h with
  | nil => cases hmem
  | @cons p pairs hlt _ ih =>
    rcases List.mem_cons.mp hmem with rfl | hmem
    · simp
    · have hne : (j == p.1) = false := by
        have := hlt _ hmem
        simp only [beq_eq_false_iff_ne, ne_eq]
        omega
      rw [List.lookup_cons, hne]
      exact ih hmem

/-- Enter the request of a final response, or report that it has none. -/
def Exchange.answering (e : Exchange) : Option Nat → Exchange
  | some i => { e with paired := some i }
  | none => e.note .requestResponseUnlinked

theorem getElem?_listExchanges_of_answer {es : List Exchange} {j : Nat} {partner : Option Nat}
    {e : Exchange} (h : (j, partner) ∈ answers [] 0 es) (he : es[j]? = some e) :
    (listExchanges es)[j]? = some ({ e with index := j }.answering partner) := by
  obtain ⟨e', he', hfinal⟩ := exists_final_of_mem_answers h
  obtain rfl : e = e' := Option.some.inj (he.symm.trans he')
  have hrequest : ({ e with index := j } : Exchange).isRequest = false :=
    Exchange.isRequest_of_isFinal hfinal
  have hascending := answers_nil_ascending es
  rw [getElem?_listExchanges, he, Option.map_some, Exchange.pairBy, if_neg (by simp [hrequest]),
    lookup_eq_some_of_mem (hascending.imp And.left) h]
  cases partner <;> rfl

theorem filter_sorted {found : List Exchange} {p : Exchange → Bool} {d : Direction} {request : Bool}
    (hascending : found.Pairwise fun a b => a.direction = b.direction → a.headOffset < b.headOffset)
    (hstep : ∀ a ∈ found, ∀ b ∈ found, a.direction = b.direction → a.InStep b)
    (hp : ∀ e ∈ found, p e = true → e.direction = d ∧ e.isRequest = request) :
    (found.mergeSort Exchange.capturedBefore).filter p = found.filter p := by
  refine filter_mergeSort Exchange.capturedBefore_trans Exchange.capturedBefore_total ?_
  refine (hascending.sublist List.filter_sublist).imp_of_mem fun {a b} ha hb hab => ?_
  obtain ⟨ha, hpa⟩ := List.mem_filter.mp ha
  obtain ⟨hb, hpb⟩ := List.mem_filter.mp hb
  obtain ⟨hda, hka⟩ := hp a ha hpa
  obtain ⟨hdb, hkb⟩ := hp b hb hpb
  have hdirection := hda.trans hdb.symm
  have hle := (hstep a ha b hb hdirection).1 (Nat.le_of_lt (hab hdirection))
  rw [Exchange.capturedBefore_iff, hka, hkb]
  rcases Int.lt_or_eq_of_le hle with hlt | heq
  · exact .inl hlt
  · exact .inr ⟨heq, id⟩

theorem requests_finals_sorted {up down : List Exchange} (hup : ∀ e ∈ up, e.direction = .uplink)
    (hdown : ∀ e ∈ down, e.direction = .downlink)
    (hascending : (up ++ down).Pairwise fun a b =>
      a.direction = b.direction → a.headOffset < b.headOffset)
    (hkinds : ∀ e ∈ up ++ down, e.isRequest = true ↔ e.direction = .uplink)
    (hstep : ∀ a ∈ up ++ down, ∀ b ∈ up ++ down, a.direction = b.direction → a.InStep b) :
    ((up ++ down).mergeSort Exchange.capturedBefore).filter Exchange.isRequest = up ∧
      ((up ++ down).mergeSort Exchange.capturedBefore).filter Exchange.isFinal =
        down.filter Exchange.isFinal := by
  have hnone : ∀ e ∈ down, e.isRequest = false := by
    intro e he
    have hkind := hkinds e (List.mem_append_right _ he)
    rw [hdown e he] at hkind
    simpa using hkind
  have hall : ∀ e ∈ up, e.isRequest = true := fun e he =>
    (hkinds e (List.mem_append_left _ he)).mpr (hup e he)
  have hfinal : ∀ e ∈ up, e.isFinal = false := fun e he => Exchange.isFinal_of_isRequest (hall e he)
  constructor
  · rw [filter_sorted hascending hstep fun e he hr => ⟨(hkinds e he).mp hr, hr⟩, List.filter_append,
      List.filter_eq_self.mpr hall, List.filter_eq_nil_iff.mpr (by simpa using hnone),
      List.append_nil]
  · have hp : ∀ e ∈ up ++ down, e.isFinal = true →
        e.direction = .downlink ∧ e.isRequest = false := by
      intro e he hf
      rcases List.mem_append.mp he with he | he
      · exact absurd hf (Bool.eq_false_iff.mp (hfinal e he))
      · exact ⟨hdown e he, hnone e he⟩
    rw [filter_sorted hascending hstep hp, List.filter_append,
      List.filter_eq_nil_iff.mpr (by simpa using hfinal), List.nil_append]

def Exchange.asksHead (e : Exchange) : Bool := e.method?.any (sameLetters · "HEAD")

namespace Session

/-- Requests travel up and responses down, both in the order of their streams, and no response
listed before `r` is without a request. -/
structure AnswersInTurn (t : Session) (r : Exchange) : Prop where
  kinds : ∀ e ∈ t.exchanges, e.isRequest = true ↔ e.direction = .uplink
  inStep : ∀ a ∈ t.exchanges, ∀ b ∈ t.exchanges, a.direction = b.direction → a.InStep b
  linked : ∀ e ∈ t.exchanges, e.index < r.index → .requestResponseUnlinked ∉ e.diagnostics

variable {t : Session} {limits : ReadingLimits} {sessionIndex : Nat} {found : List Exchange}

theorem AnswersInTurn.of_mem {r : Exchange} (h : t.AnswersInTurn r)
    (hlist : t.exchanges = listExchanges (found.mergeSort Exchange.capturedBefore)) :
    (∀ e ∈ found, e.isRequest = true ↔ e.direction = .uplink) ∧
      ∀ a ∈ found, ∀ b ∈ found, a.direction = b.direction → a.InStep b := by
  have hlisted : ∀ e ∈ found, ∃ i paired diagnostics,
      { e with index := i, paired := paired, diagnostics := diagnostics } ∈ t.exchanges := by
    intro e he
    obtain ⟨i, hi⟩ := List.mem_iff_getElem?.mp ((List.mergeSort_perm found _).mem_iff.mpr he)
    obtain ⟨paired, diagnostics, hlisted⟩ := exists_listed hi
    exact ⟨i, paired, diagnostics, hlist ▸ List.mem_of_getElem? hlisted⟩
  refine ⟨fun e he => ?_, fun a ha b hb => ?_⟩
  · obtain ⟨_, _, _, hmem⟩ := hlisted e he
    have hkind := h.kinds _ hmem
    exact hkind
  · obtain ⟨_, _, _, hmem⟩ := hlisted a ha
    obtain ⟨_, _, _, hmem'⟩ := hlisted b hb
    have hstep := h.inStep _ hmem _ hmem'
    exact hstep

theorem AnswersInTurn.places {r : Exchange} (h : t.AnswersInTurn r) {es : List Exchange}
    (hlist : t.exchanges = listExchanges es) {i j : Nat} (hpair : (j, some i) ∈ answers [] 0 es)
    (hindex : r.index = j) : ∃ n : Nat, es[j]? = (es.filter Exchange.isFinal)[n]? ∧
      es[i]? = (es.filter Exchange.isRequest)[n]? := by
  obtain ⟨n, hn⟩ := List.mem_iff_getElem?.mp hpair
  have hascending := answers_nil_ascending es
  have hlinked : ∀ k < n, ∀ p ∈ (answers [] 0 es)[k]?, p.2.isSome = true := by
    intro k hk (j', partner) hp
    have hmem := List.mem_of_getElem? hp
    have hlt : j' < j := (rel_of_lt_getElem? hascending hp hn hk).1
    obtain ⟨e, he, _⟩ := exists_final_of_mem_answers hmem
    cases partner with
    | some => rfl
    | none =>
      -- It would be listed before `r` with the report that it has no request.
      have hlisted := getElem?_listExchanges_of_answer hmem he
      rw [← hlist] at hlisted
      have hnone : _ ∉ _ := h.linked _ (List.mem_of_getElem? hlisted) (hindex ▸ hlt)
      exact absurd (List.mem_append_right _ List.mem_cons_self) hnone
  obtain ⟨hfinal, hrequest⟩ := places_of_answers hn hlinked
  exact ⟨n, getElem?_of_placesOf hfinal, getElem?_of_placesOf hrequest⟩

theorem readWith_of_turn {up down : List Exchange} {rd : Reading} {n : Nat} {q r : Exchange}
    (hcuts : rd.Cuts 0 rd.stream.bytes (up.filterMap Exchange.method?) down)
    (hup : ∀ e ∈ up, e.isRequest = true ∧ e.startLine ≠ .encrypted)
    (hq : up[n]? = some q) (hr : (down.filter Exchange.isFinal)[n]? = some r)
    (hwhole : rd.HasWholeHead r.headOffset) : rd.ReadWith r q.asksHead := by
  have hmethods : (up.filterMap Exchange.method?)[n]? = q.method? := by
    rw [getElem?_filterMap_of_isSome (fun e he => ?_), hq]
    · rfl
    · obtain ⟨hrequest, hne⟩ := hup e he
      unfold Exchange.isRequest at hrequest
      unfold Exchange.method?
      cases hline : e.startLine <;> simp_all
  obtain ⟨k, hk, hcount⟩ := exists_getElem?_of_filter hr
  have hread := hcuts.readWith rfl hk hwhole
  rw [hcount] at hread
  have hne := (hcuts.of_mem r (List.mem_of_getElem? hk)).2.2
  have hfinal := (List.mem_filter.mp (List.mem_of_getElem? hr)).2
  have hanswers : Reading.answersHead r.startLine ((up.filterMap Exchange.method?).drop n) =
      q.asksHead := by
    unfold Reading.answersHead Exchange.asksHead
    cases hline : r.startLine with
    | response => dsimp only; rw [List.head?_drop, hmethods]
    | request => simp [Exchange.isFinal, Exchange.isResponse, hline] at hfinal
    | encrypted => exact absurd hline hne
  rwa [hanswers] at hread

theorem AnswersInTurn.readWith {r : Exchange} (h : t.AnswersInTurn r) {es : List Exchange}
    (hlist : t.exchanges = listExchanges es)
    (hes : (t.plainExchanges limits sessionIndex).mergeSort Exchange.capturedBefore = es)
    {i j : Nat} (hpair : (j, some i) ∈ answers [] 0 es) (hindex : r.index = j) {q m : Exchange}
    (hq : es[i]? = some q) (hm : es[j]? = some m)
    (hwhole : (t.reading limits sessionIndex .downlink).HasWholeHead m.headOffset) :
    (t.reading limits sessionIndex .downlink).ReadWith m q.asksHead := by
  let up := (t.reading limits sessionIndex .uplink).messages []
  let rd := t.reading limits sessionIndex .downlink
  let down := rd.messages (up.filterMap Exchange.method?)
  have hup : ∀ e ∈ up, e.direction = .uplink ∧ e.startLine ≠ .encrypted := fun e he =>
    (((t.reading limits sessionIndex .uplink).cuts_messages []).of_mem e he).2
  have hcuts : rd.Cuts 0 rd.stream.bytes (up.filterMap Exchange.method?) down := rd.cuts_messages _
  have hdown : ∀ e ∈ down, e.direction = .downlink := fun e he => (hcuts.of_mem e he).2.1
  obtain ⟨hkinds, hstep⟩ := h.of_mem (hes ▸ hlist)
  obtain ⟨hrequests, hfinals⟩ := requests_finals_sorted (fun e he => (hup e he).1) hdown
    (t.plainExchanges_ascending limits sessionIndex) hkinds hstep
  obtain ⟨n, hj, hi⟩ := h.places hlist hpair hindex
  have hes' : (up ++ down).mergeSort Exchange.capturedBefore = es := hes
  rw [hes'] at hrequests hfinals
  rw [hq, hrequests] at hi
  rw [hm, hfinals] at hj
  refine readWith_of_turn hcuts (fun e he => ⟨?_, (hup e he).2⟩) hi.symm hj.symm hwhole
  exact (hkinds e (List.mem_append_left _ he)).mpr (hup e he).1

end Session

/-- A response is read as the answer to a HEAD request exactly if the request it is paired with is
one; then it has no body and misses none. -/
theorem readWith_asksHead_of_paired (s : Session) (limits : ReadingLimits) (sessionIndex : Nat)
    {q r : Exchange} {j : Nat} (hq : q ∈ (s.reassemble limits sessionIndex).exchanges)
    (hrequest : q.isRequest = true) (hplain : q.isEncrypted = false) (hpaired : q.paired = some j)
    (hr : (s.reassemble limits sessionIndex).exchanges[j]? = some r)
    (hwhole :
      ((s.reassemble limits sessionIndex).reading limits sessionIndex .downlink).HasWholeHead
      r.headOffset)
    (hturn : (s.reassemble limits sessionIndex).AnswersInTurn r) :
    ((s.reassemble limits sessionIndex).reading limits sessionIndex .downlink).ReadWith r
        q.asksHead ∧
      (q.asksHead = true → r.body = [] ∧
        (∀ declared available, .payloadTruncated declared available ∉ r.diagnostics) ∧
        ∀ offset, .chunkFramingCorrupt offset ∉ r.diagnostics) := by
  have hlist := Session.exchanges_eq_of_plain hq hplain
  generalize hes : ((s.reassemble limits sessionIndex).plainExchanges limits sessionIndex).mergeSort
    Exchange.capturedBefore = es at hlist
  rw [hlist] at hq hr
  obtain ⟨i, hi⟩ := List.mem_iff_getElem?.mp hq
  have hpair := mem_answers_of_paired hi hrequest hpaired
  obtain ⟨m, hm, hfinal⟩ := exists_final_of_mem_answers hpair
  obtain rfl := Option.some.inj ((getElem?_listExchanges_of_answer hpair hm).symm.trans hr)
  rw [getElem?_listExchanges] at hi
  obtain ⟨asked, hasked, heq⟩ := Option.map_eq_some_iff.mp hi
  have hhead : q.asksHead = asked.asksHead := by
    obtain ⟨_, _, hlisted⟩ := Exchange.pairBy_eq (answers [] 0 es) { asked with index := i } i
    rw [← heq, hlisted]
    rfl
  have hread := (hturn.readWith hlist hes hpair rfl hasked hm hwhole).relist j (some i)
  rw [hhead]
  refine ⟨hread, fun htrue => ?_⟩
  rw [htrue] at hread
  obtain ⟨hbody, hdiagnostics⟩ := hread.body (Exchange.isResponse_of_isFinal hfinal)
  refine ⟨hbody, fun declared available hmem => ?_, fun offset hmem => ?_⟩
  · obtain ⟨_, h⟩ := hdiagnostics _ hmem
    cases h
  · obtain ⟨_, h⟩ := hdiagnostics _ hmem
    cases h

/-- A GET and a HEAD request and the answers to both; the second one tells the length of the body it
would have. -/
theorem readWith_asksHead_of_pipelined :
    let ps : List SessionPacket :=
      [.sampleAt 1 .uplink 100 "GET /a HTTP/1.1\r\n\r\n",
        .sampleAt 2 .uplink 119 "HEAD /b HTTP/1.1\r\n\r\n",
        .sampleAt 3 .downlink 500 "HTTP/1.1 200 OK\r\nContent-Length: 2\r\n\r\nhi",
        .sampleAt 4 .downlink 540 "HTTP/1.1 200 OK\r\nContent-Length: 5000\r\n\r\n"]
    let t := (Session.ofPackets .sample .tcp ps).reassemble ⟨.standard, 80⟩ 0
    let rd := t.reading ⟨.standard, 80⟩ 0 .downlink
    ∃ q r, t.exchanges[1]? = some q ∧ q.startLine = .request "HEAD" "/b" "HTTP/1.1" ∧
      q.paired = some 3 ∧ t.exchanges[3]? = some r ∧ t.AnswersInTurn r ∧
      rd.HasWholeHead r.headOffset ∧ rd.ReadWith r q.asksHead ∧ q.asksHead = true ∧ r.body = [] ∧
      (∀ declared available, .payloadTruncated declared available ∉ r.diagnostics) ∧
      ∀ offset, .chunkFramingCorrupt offset ∉ r.diagnostics := by
  intro ps t rd
  have hlist : t.exchanges = listExchanges (t.plainExchanges ⟨.standard, 80⟩ 0) :=
    Session.exchanges_of_perm _ (by decide) (by decide) (by decide +kernel) (by decide +kernel)
  have hasked : ∃ q, t.exchanges[1]? = some q := by
    rw [hlist]
    exact Option.isSome_iff_exists.mp (by decide +kernel)
  have hanswer : ∃ r, t.exchanges[3]? = some r := by
    rw [hlist]
    exact Option.isSome_iff_exists.mp (by decide +kernel)
  have hfacts : (∀ q ∈ t.exchanges[1]?, q.startLine = .request "HEAD" "/b" "HTTP/1.1" ∧
        q.paired = some 3) ∧
      (∀ r ∈ t.exchanges[3]?, r.headOffset = 40) ∧
      (∀ e ∈ t.exchanges, e.isRequest = true ↔ e.direction = .uplink) ∧
      (∀ a ∈ t.exchanges, ∀ b ∈ t.exchanges, a.direction = b.direction → a.InStep b) ∧
      ∀ e ∈ t.exchanges, .requestResponseUnlinked ∉ e.diagnostics := by
    rw [hlist]
    decide +kernel
  obtain ⟨q, hq⟩ := hasked
  obtain ⟨r, hr⟩ := hanswer
  obtain ⟨hqs, hrs, hkinds, hstep, hlinked⟩ := hfacts
  obtain ⟨hline, hpaired⟩ := hqs q hq
  have hturn : t.AnswersInTurn r := ⟨hkinds, hstep, fun e he _ => hlinked e he⟩
  have hwhole : rd.HasWholeHead r.headOffset := by
    rw [hrs r hr]
    exact ⟨.response "HTTP/1.1" 200 "OK", 17, [⟨"content-length", utf8Bytes "5000"⟩], 24, [],
      by decide +kernel⟩
  have hhead : q.asksHead = true := by
    simp only [Exchange.asksHead, Exchange.method?, hline]
    decide
  have hread := readWith_asksHead_of_paired (Session.ofPackets .sample .tcp ps) ⟨.standard, 80⟩ 0
    (show q ∈ t.exchanges from List.mem_of_getElem? hq) (by simp [Exchange.isRequest, hline])
    (by simp [Exchange.isEncrypted, hline]) hpaired hr hwhole hturn
  exact ⟨q, r, hq, hline, hpaired, hr, hturn, hwhole, hread.1, hhead, hread.2 hhead⟩

/-- After a response whose request was not captured, the methods are off by one: that response is
read as the answer to the HEAD request, and the one paired with it is missing its body. -/
theorem head_answer_misread :
    let ps : List SessionPacket :=
      [.sampleAt 1 .downlink 500 "HTTP/1.1 200 OK\r\nContent-Length: 2\r\n\r\nhi",
        .sampleAt 2 .uplink 100 "HEAD /a HTTP/1.1\r\n\r\n",
        .sampleAt 3 .downlink 540 "HTTP/1.1 200 OK\r\nTransfer-Encoding: chunked\r\n\r\n"]
    let t := (Session.ofPackets .sample .tcp ps).reassemble ⟨.standard, 80⟩ 0
    t.exchanges.map (fun e => (e.startLine, e.paired, e.headLength, e.wireBytes, e.diagnostics)) =
      [(.response "HTTP/1.1" 200 "OK", none, 38, 38, [.requestResponseUnlinked]),
        (.request "HEAD" "/a" "HTTP/1.1", some 2, 20, 20, []),
        (.response "HTTP/1.1" 200 "OK", some 1, 47, 47, [.chunkFramingCorrupt none])] := by
  intro ps t
  let found := t.plainExchanges ⟨.standard, 80⟩ 0
  have hlist : t.exchanges = listExchanges ([1, 0, 2].filterMap (found[·]?)) :=
    Session.exchanges_of_perm _ (by decide) (by decide) (by decide +kernel) (by decide +kernel)
  rw [hlist]
  decide +kernel

end HttpCapture
