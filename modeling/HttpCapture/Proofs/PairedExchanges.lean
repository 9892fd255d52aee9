import HttpCapture.Proofs.HeadAnswers
import HttpCapture.Proofs.ReplyOrder

/-! How the exchanges of a session are listed and paired. Requests wait in a queue, and each final
response takes the one that waits longest, so that pairs keep the order of the list and a response
goes without a request only when none is left. -/

namespace HttpCapture

namespace Exchange

/-- A response that answers a request, which an interim one does not. -/
def IsFinalResponse (e : Exchange) : Prop :=
  e.isResponse = true ∧ (e.isEncrypted = true ∨ ∃ status ∈ e.status?, 200 ≤ status)

theorem isFinal_iff {e : Exchange} : e.isFinal = true ↔ e.IsFinalResponse := by
  unfold isFinal IsFinalResponse isResponse isEncrypted status?
  cases e.startLine <;> simp

theorem kind_of_interim {e : Exchange} {status : Nat} (hstatus : status ∈ e.status?)
    (hlt : status < 200) : e.isRequest = false ∧ e.isFinal = false := by
  unfold status? at hstatus
  unfold isRequest isFinal isResponse status?
  cases hline : e.startLine <;> simp_all

/-- An exchange as it is found in a stream, before it is paired. -/
structure Unpaired (e : Exchange) : Prop where
  paired : e.paired = none
  linked : .requestResponseUnlinked ∉ e.diagnostics

theorem Unpaired.note {e : Exchange} (h : e.Unpaired) {d : ExchangeDiagnostic}
    (hd : d ≠ .requestResponseUnlinked) : (e.note d).Unpaired where
  paired := h.paired
  linked hmem := by
    rcases List.mem_append.mp hmem with hmem | hmem
    · exact h.linked hmem
    · exact hd (List.mem_singleton.mp hmem).symm

theorem Unpaired.number {e : Exchange} (h : e.Unpaired) (i : Nat) :
    { e with index := i }.Unpaired :=
  ⟨h.paired, h.linked⟩

theorem Unpaired.readFields {e : Exchange} (h : e.Unpaired) : e.readFields.Unpaired := by
  obtain ⟨_, _, heq⟩ := e.readFields_eq
  rw [heq]
  exact ⟨h.paired, h.linked⟩

end Exchange

namespace Reading

variable {r : Reading}

theorem unpaired_readBody (r : Reading) {e : Exchange} (h : e.Unpaired) (start : Nat) (bs : Bytes)
    (answersHead : Bool) : (r.readBody e start bs answersHead).1.Unpaired := by
  constructor
  · obtain ⟨_, _, _, heq⟩ := r.exists_readBody_eq e start bs answersHead
    rw [heq]
    exact h.readFields.paired
  · intro hmem
    rcases mem_diagnostics_readBody hmem with hmem | ⟨_, _, hd⟩ | ⟨_, hd⟩
    · exact h.linked hmem
    · cases hd
    · cases hd

theorem unpaired_checkContent (r : Reading) {e : Exchange} (h : e.Unpaired) :
    (r.checkContent e).Unpaired := by
  rcases r.checkContent_eq e with heq | ⟨reason, heq⟩ <;> rw [heq]
  · exact h
  · exact h.note nofun

theorem unpaired_locate (r : Reading) {e : Exchange} (h : e.Unpaired) (start size : Nat) :
    (r.locate e start size).Unpaired :=
  ⟨h.paired, h.linked⟩

theorem unpaired_wholeMessage (r : Reading) (pos headSize : Nat) (startLine : StartLine)
    (fields : Fields) (bs : Bytes) (answersHead : Bool) :
    (r.wholeMessage pos headSize startLine fields bs answersHead).1.Unpaired := by
  refine r.unpaired_checkContent (r.unpaired_locate (r.unpaired_readBody ?_ _ _ _) _ _)
  exact ⟨rfl, List.not_mem_nil⟩

theorem unpaired_cutMessage (r : Reading) (pos available : Nat) (startLine : StartLine)
    (fields : Fields) : (r.cutMessage pos available startLine fields).Unpaired := by
  have hcut : Exchange.Unpaired { r.begin pos startLine with
      fields := fields, headLength := available, extractable := false } := ⟨rfl, List.not_mem_nil⟩
  have hnoted := hcut.note (d := .payloadTruncated none available) nofun
  exact r.unpaired_checkContent (r.unpaired_locate hnoted pos available)

theorem unpaired_messages (r : Reading) (methods : List String) :
    ∀ e ∈ r.messages methods, e.Unpaired :=
  (r.cuts_messages methods).forall_mem r.unpaired_cutMessage r.unpaired_wholeMessage

end Reading

/-- Whether a request stands at a place, the first exchange being at `i`. -/
def RequestAt (i : Nat) (es : List Exchange) (x : Nat) : Prop :=
  i ≤ x ∧ ∃ e, es[x - i]? = some e ∧ e.isRequest = true

theorem requestAt_cons {i : Nat} {e : Exchange} {es : List Exchange} {x : Nat} :
    RequestAt i (e :: es) x ↔ x = i ∧ e.isRequest = true ∨ RequestAt (i + 1) es x := by
  unfold RequestAt
  rcases Nat.lt_trichotomy x i with hlt | rfl | hlt
  · exact iff_of_false (fun h => by omega) fun h => by omega
  · rw [or_iff_left fun h => Nat.not_succ_le_self x h.1]
    simp
  · rw [show x - i = x - (i + 1) + 1 by omega, List.getElem?_cons_succ]
    simp [Nat.le_of_lt hlt, Nat.succ_le_of_lt hlt, Nat.ne_of_gt hlt]

section

variable {waiting : List Nat} {i : Nat} {es : List Exchange}

/-- Each final response is given an answer, if only that no request is left. -/
theorem exists_mem_answers {k : Nat} {e : Exchange} (he : es[k]? = some e)
    (hfinal : e.isFinal = true) (waiting : List Nat) (i : Nat) :
    ∃ partner, (i + k, partner) ∈ answers waiting i es := by
  induction es generalizing waiting i k with
  | nil => simp at he
  | cons e' es ih =>
    rw [answers]
    cases k with
    | zero =>
      obtain rfl : e' = e := by simpa using he
      rw [if_neg (by simp [Exchange.isRequest_of_isFinal hfinal]), if_pos hfinal]
      exact ⟨_, List.mem_cons_self⟩
    | succ k =>
      have hlater := fun waiting => ih (by simpa using he) waiting (i + 1)
      rw [show i + (k + 1) = i + 1 + k by omega]
      split
      · exact hlater _
      · split
        · obtain ⟨partner, hmem⟩ := hlater waiting.tail
          exact ⟨partner, List.mem_cons_of_mem _ hmem⟩
        · exact hlater _

/-- A final response is given a request that was waiting, or one that stands between. -/
theorem request_of_mem_answers {j x : Nat} (h : (j, some x) ∈ answers waiting i es) :
    x ∈ waiting ∨ x < j ∧ RequestAt i es x := by
  induction es generalizing waiting i with
  | nil => simp [answers] at h
  | cons e es ih =>
    rw [answers] at h
    rw [requestAt_cons]
    split at h
    · next hrequest =>
      rcases ih h with hwaiting | hbetween
      · rcases List.mem_append.mp hwaiting with hwaiting | hself
        · exact .inl hwaiting
        · obtain rfl := List.mem_singleton.mp hself
          exact .inr ⟨(of_mem_answers h).1, .inl ⟨rfl, hrequest⟩⟩
      · exact .inr (hbetween.imp_right .inr)
    · split at h
      · rcases List.mem_cons.mp h with hself | h
        · obtain ⟨-, hhead⟩ := Prod.mk.inj hself
          exact .inl (List.mem_of_mem_head? hhead.symm)
        · exact (ih h).imp List.mem_of_mem_tail (.imp_right .inr)
      · exact (ih h).imp_right (.imp_right .inr)

/-- Once a final response is given no request, each that was waiting or stands before has
been given to another. -/
theorem answered_of_mem_answers {j x : Nat} (h : (j, none) ∈ answers waiting i es)
    (hx : x ∈ waiting ∨ x < j ∧ RequestAt i es x) :
    ∃ k < j, (k, some x) ∈ answers waiting i es := by
  induction es generalizing waiting i with
  | nil => simp [answers] at h
  | cons e es ih =>
    rw [requestAt_cons] at hx
    rw [answers] at h ⊢
    split at h
    · next hrequest =>
      rw [if_pos hrequest]
      refine ih h ?_
      rcases hx with hwaiting | ⟨hlt, ⟨rfl, -⟩ | hbetween⟩
      · exact .inl (List.mem_append_left _ hwaiting)
      · exact .inl (List.mem_append_right _ List.mem_cons_self)
      · exact .inr ⟨hlt, hbetween⟩
    · next hrequest =>
      have hbetween : x ∈ waiting ∨ x < j ∧ RequestAt (i + 1) es x :=
        hx.imp_right fun hplace => ⟨hplace.1, hplace.2.resolve_left fun h => hrequest h.2⟩
      rw [if_neg hrequest]
      split at h
      · next hfinal =>
        rw [if_pos hfinal]
        rcases List.mem_cons.mp h with hself | h
        · -- The queue is empty when this response comes, and nothing stands before it.
          obtain ⟨rfl, hhead⟩ := Prod.mk.inj hself
          rw [List.head?_eq_none_iff.mp hhead.symm] at hbetween
          rcases hbetween with hwaiting | ⟨hlt, hplace⟩
          · exact absurd hwaiting List.not_mem_nil
          · have := hplace.1
            omega
        · have hlater : x ∈ waiting.tail ∨ x < j ∧ RequestAt (i + 1) es x →
              ∃ k < j, (k, some x) ∈ (i, waiting.head?) :: answers waiting.tail (i + 1) es := by
            intro hx
            obtain ⟨k, hk, hmem⟩ := ih h hx
            exact ⟨k, hk, List.mem_cons_of_mem _ hmem⟩
          rcases hbetween with hwaiting | hbetween
          · obtain ⟨oldest, rest, rfl⟩ := List.exists_cons_of_ne_nil (List.ne_nil_of_mem hwaiting)
            rcases List.mem_cons.mp hwaiting with rfl | hrest
            · exact ⟨i, (of_mem_answers h).1, List.mem_cons_self⟩
            · exact hlater (.inl hrest)
          · exact hlater (.inr hbetween)
      · next hfinal =>
        rw [if_neg hfinal]
        exact ih h hbetween

theorem requestAt_zero {x : Nat} :
    RequestAt 0 es x ↔ ∃ e, es[x]? = some e ∧ e.isRequest = true := by
  simp [RequestAt]

theorem lookup_answers {j : Nat} {partner : Option Nat} :
    (answers [] 0 es).lookup j = some partner ↔ (j, partner) ∈ answers [] 0 es := by
  constructor
  · intro h
    obtain ⟨_, _, heq, -⟩ := List.lookup_eq_some_iff.mp h
    rw [heq]
    exact List.mem_append_right _ List.mem_cons_self
  · exact lookup_eq_some_of_mem ((answers_nil_ascending es).imp And.left)

theorem eq_of_mem_answers {j k i : Nat} (hj : (j, some i) ∈ answers [] 0 es)
    (hk : (k, some i) ∈ answers [] 0 es) : j = k := by
  have hjk := answers_lt_iff hj hk
  have hkj := answers_lt_iff hk hj
  omega

end

namespace Exchange

variable {e : Exchange} (h : e.Unpaired) {pairs : List (Nat × Option Nat)} {i : Nat}

include h

theorem Unpaired.paired_pairBy (hrequest : e.isRequest = false) {x : Nat} :
    (e.pairBy pairs i).paired = some x ↔ pairs.lookup i = some (some x) := by
  rw [pairBy, if_neg (by simp [hrequest])]
  rcases pairs.lookup i with _ | _ | request <;> simp [Exchange.note, h.paired]

theorem Unpaired.unlinked_pairBy :
    .requestResponseUnlinked ∈ (e.pairBy pairs i).diagnostics ↔
      e.isRequest = false ∧ pairs.lookup i = some none := by
  rw [pairBy]
  cases e.isRequest with
  | true => simp [h.linked]
  | false => rcases pairs.lookup i with _ | _ | request <;> simp [Exchange.note, h.linked]

end Exchange

theorem exists_found_of_listed {es : List Exchange} {k : Nat} {e : Exchange}
    (he : (listExchanges es)[k]? = some e) :
    ∃ found, es[k]? = some found ∧ found.isRequest = e.isRequest ∧ found.isFinal = e.isFinal ∧
      e = { found with index := k }.pairBy (answers [] 0 es) k := by
  rw [getElem?_listExchanges] at he
  obtain ⟨found, hes, rfl⟩ := Option.map_eq_some_iff.mp he
  obtain ⟨_, _, heq⟩ := Exchange.pairBy_eq (answers [] 0 es) { found with index := k } k
  refine ⟨found, hes, ?_, ?_, rfl⟩ <;> rw [heq] <;> rfl

theorem asked_of_mem_answers {es : List Exchange} {i j : Nat} (h : (j, some i) ∈ answers [] 0 es) :
    i < j ∧ ∃ q, (listExchanges es)[i]? = some q ∧ q.isRequest = true := by
  obtain ⟨hlt, hplace⟩ := (request_of_mem_answers h).resolve_left List.not_mem_nil
  obtain ⟨q, hq, hrequest⟩ := requestAt_zero.mp hplace
  obtain ⟨_, _, hlisted⟩ := exists_listed hq
  exact ⟨hlt, _, hlisted, hrequest⟩

section

variable {es : List Exchange} (hfound : ∀ e ∈ es, e.Unpaired) {k : Nat} {e : Exchange}
  (he : (listExchanges es)[k]? = some e)

include he

theorem not_asked_of_isRequest (hrequest : e.isRequest = false) (m : Nat) :
    (m, some k) ∉ answers [] 0 es := by
  intro hmem
  obtain ⟨-, q, hq, hasked⟩ := asked_of_mem_answers hmem
  obtain rfl := Option.some.inj (he.symm.trans hq)
  simp [hrequest] at hasked

theorem not_answer_of_isRequest (hrequest : e.isRequest = true) (partner : Option Nat) :
    (k, partner) ∉ answers [] 0 es := by
  intro hmem
  simp [Exchange.isRequest_of_isFinal (isFinal_of_mem_answers hmem he)] at hrequest

include hfound

/-- An exchange is paired with another if one of the two is the answer to the other. -/
theorem paired_listExchanges_iff {m : Nat} :
    e.paired = some m ↔ (k, some m) ∈ answers [] 0 es ∨ (m, some k) ∈ answers [] 0 es := by
  obtain ⟨found, hes, hkind, -, heq⟩ := exists_found_of_listed he
  cases hrequest : e.isRequest with
  | true =>
    rw [or_iff_right (not_answer_of_isRequest he hrequest _)]
    refine ⟨mem_answers_of_paired he hrequest, fun hmem => ?_⟩
    obtain ⟨⟨j, partner⟩, hfind⟩ : ∃ p, (answers [] 0 es).find? (·.2 = some k) = some p :=
      Option.isSome_iff_exists.mp (List.find?_isSome.mpr ⟨_, hmem, by simp⟩)
    obtain rfl : partner = some k := by simpa using List.find?_some hfind
    have hnumbered : ({ found with index := k } : Exchange).isRequest = true := hkind.trans hrequest
    rw [heq, Exchange.pairBy, if_pos hnumbered, hfind,
      eq_of_mem_answers hmem (List.mem_of_find?_eq_some hfind)]
    rfl
  | false =>
    have hnumbered := (hfound found (List.mem_of_getElem? hes)).number k
    rw [or_iff_left (not_asked_of_isRequest he hrequest m), heq,
      hnumbered.paired_pairBy (hkind.trans hrequest), lookup_answers]

theorem unlinked_listExchanges_iff :
    .requestResponseUnlinked ∈ e.diagnostics ↔ (k, none) ∈ answers [] 0 es := by
  obtain ⟨found, hes, hkind, -, heq⟩ := exists_found_of_listed he
  have hnumbered := (hfound found (List.mem_of_getElem? hes)).number k
  conv_lhs => rw [heq]
  rw [hnumbered.unlinked_pairBy, lookup_answers, and_iff_right_iff_imp]
  exact fun hmem => hkind.trans (Exchange.isRequest_of_isFinal (isFinal_of_mem_answers hmem he))

theorem isFinal_and_paired_eq_none_iff :
    e.isFinal = true ∧ e.paired = none ↔ (k, none) ∈ answers [] 0 es := by
  constructor
  · rintro ⟨hfinal, hpaired⟩
    obtain ⟨found, hes, -, hkind, -⟩ := exists_found_of_listed he
    obtain ⟨partner, hmem⟩ := exists_mem_answers hes (hkind.trans hfinal) [] 0
    rw [Nat.zero_add] at hmem
    cases partner with
    | none => exact hmem
    | some m => simp [(paired_listExchanges_iff hfound he).mpr (.inl hmem)] at hpaired
  · intro hmem
    have hfinal := isFinal_of_mem_answers hmem he
    refine ⟨hfinal, Option.eq_none_iff_forall_ne_some.mpr fun m hpaired => ?_⟩
    rcases (paired_listExchanges_iff hfound he).mp hpaired with hmem' | hmem'
    · cases (lookup_answers.mpr hmem).symm.trans (lookup_answers.mpr hmem')
    · exact not_asked_of_isRequest he (Exchange.isRequest_of_isFinal hfinal) m hmem'

end

/-- Exchanges in the order of their capture, of which requests and final responses are paired
first come, first served. -/
structure PairedInTurn (es : List Exchange) : Prop where
  numbered : ∀ (i : Nat) (e : Exchange), es[i]? = some e → e.index = i
  chronological : es.Pairwise fun a b => a.timestamp.rank < b.timestamp.rank ∨
    a.timestamp.rank = b.timestamp.rank ∧ (b.isRequest = true → a.isRequest = true)
  /-- Partners name each other, and the later one answers the earlier. -/
  partners : ∀ (i j : Nat) (a : Exchange), es[i]? = some a → a.paired = some j →
    ∃ b, es[j]? = some b ∧ b.paired = some i ∧
      (i < j ∧ a.isRequest = true ∧ b.IsFinalResponse ∨
        j < i ∧ b.isRequest = true ∧ a.IsFinalResponse)
  inOrder : ∀ (i₁ i₂ j₁ j₂ : Nat) (a₁ a₂ : Exchange), es[i₁]? = some a₁ → es[i₂]? = some a₂ →
    a₁.isRequest = true → a₂.isRequest = true → a₁.paired = some j₁ → a₂.paired = some j₂ →
    (i₁ < i₂ ↔ j₁ < j₂)
  /-- A final response goes without a request when each before it has its answer before it. -/
  unpaired_iff : ∀ (j : Nat) (r : Exchange), es[j]? = some r → r.IsFinalResponse →
    (r.paired = none ↔ ∀ (i : Nat) (q : Exchange), i < j → es[i]? = some q → q.isRequest = true →
      ∃ k < j, q.paired = some k)
  unlinked_iff : ∀ e ∈ es,
    .requestResponseUnlinked ∈ e.diagnostics ↔ e.IsFinalResponse ∧ e.paired = none
  interim : ∀ e ∈ es, ∀ status ∈ e.status?, status < 200 → e.paired = none

theorem pairedInTurn_listExchanges {es : List Exchange} (hfound : ∀ e ∈ es, e.Unpaired)
    (hsorted : es.Pairwise fun a b => a.capturedBefore b = true) :
    PairedInTurn (listExchanges es) where
  numbered i e he := by
    obtain ⟨found, -, -, -, rfl⟩ := exists_found_of_listed he
    obtain ⟨_, _, heq⟩ := Exchange.pairBy_eq (answers [] 0 es) { found with index := i } i
    rw [heq]
  chronological := by
    have hlisted := pairwise_listExchanges hsorted fun _ _ _ _ _ _ _ _ hab => hab
    exact hlisted.imp Exchange.capturedBefore_iff.mp
  partners i j a ha hpaired := by
    rcases (paired_listExchanges_iff hfound ha).mp hpaired with hmem | hmem
    · obtain ⟨hlt, b, hb, hrequest⟩ := asked_of_mem_answers hmem
      have hfinal := Exchange.isFinal_iff.mp (isFinal_of_mem_answers hmem ha)
      have hback := (paired_listExchanges_iff hfound hb).mpr (.inr hmem)
      exact ⟨b, hb, hback, .inr ⟨hlt, hrequest, hfinal⟩⟩
    · obtain ⟨hlt, q, hq, hrequest⟩ := asked_of_mem_answers hmem
      obtain rfl := Option.some.inj (hq.symm.trans ha)
      obtain ⟨r, hr, -⟩ := exists_final_of_mem_answers hmem
      obtain ⟨_, _, hb⟩ := exists_listed hr
      have hfinal := Exchange.isFinal_iff.mp (isFinal_of_mem_answers hmem hb)
      have hback := (paired_listExchanges_iff hfound hb).mpr (.inl hmem)
      exact ⟨_, hb, hback, .inl ⟨hlt, hrequest, hfinal⟩⟩
  inOrder i₁ i₂ j₁ j₂ a₁ a₂ ha₁ ha₂ hrequest₁ hrequest₂ hpaired₁ hpaired₂ :=
    answers_lt_iff (mem_answers_of_paired ha₁ hrequest₁ hpaired₁)
      (mem_answers_of_paired ha₂ hrequest₂ hpaired₂)
  unpaired_iff j r hr hfinal := by
    have hfinal := Exchange.isFinal_iff.mpr hfinal
    constructor
    · intro hpaired i q hlt hq hrequest
      have hmem := (isFinal_and_paired_eq_none_iff hfound hr).mp ⟨hfinal, hpaired⟩
      obtain ⟨found, hes, hkind, -, -⟩ := exists_found_of_listed hq
      have hplace : RequestAt 0 es i := requestAt_zero.mpr ⟨found, hes, hkind.trans hrequest⟩
      obtain ⟨k, hk, hanswer⟩ := answered_of_mem_answers hmem (.inr ⟨hlt, hplace⟩)
      exact ⟨k, hk, (paired_listExchanges_iff hfound hq).mpr (.inr hanswer)⟩
    · intro hanswered
      refine Option.eq_none_iff_forall_ne_some.mpr fun i hpaired => ?_
      have hunasked := not_asked_of_isRequest hr (Exchange.isRequest_of_isFinal hfinal) i
      have hmem := ((paired_listExchanges_iff hfound hr).mp hpaired).resolve_right hunasked
      obtain ⟨hlt, q, hq, hrequest⟩ := asked_of_mem_answers hmem
      obtain ⟨k, hk, hpaired'⟩ := hanswered i q hlt hq hrequest
      have hk' := eq_of_mem_answers hmem (mem_answers_of_paired hq hrequest hpaired')
      omega
  unlinked_iff e he := by
    obtain ⟨k, hk⟩ := List.mem_iff_getElem?.mp he
    rw [unlinked_listExchanges_iff hfound hk, ← isFinal_and_paired_eq_none_iff hfound hk,
      Exchange.isFinal_iff]
  interim e he status hstatus hlt := by
    obtain ⟨k, hk⟩ := List.mem_iff_getElem?.mp he
    obtain ⟨hrequest, hfinal⟩ := Exchange.kind_of_interim hstatus hlt
    refine Option.eq_none_iff_forall_ne_some.mpr fun m hpaired => ?_
    rcases (paired_listExchanges_iff hfound hk).mp hpaired with hmem | hmem
    · exact Bool.eq_false_iff.mp hfinal (isFinal_of_mem_answers hmem hk)
    · exact not_asked_of_isRequest hk hrequest m hmem

namespace Session

theorem unpaired_encryptedExchanges (s : Session) (sessionIndex : Nat) :
    ∀ e ∈ s.encryptedExchanges sessionIndex, e.Unpaired := by
  intro e he
  obtain ⟨run, -, rfl⟩ := List.mem_map.mp he
  exact ⟨rfl, List.not_mem_nil⟩

theorem unpaired_plainExchanges (s : Session) (limits : ReadingLimits) (sessionIndex : Nat) :
    ∀ e ∈ s.plainExchanges limits sessionIndex, e.Unpaired := by
  intro e he
  rcases List.mem_append.mp he with he | he
  · exact (s.reading limits sessionIndex .uplink).unpaired_messages _ e he
  · exact (s.reading limits sessionIndex .downlink).unpaired_messages _ e he

theorem exists_found_of_reassemble (s : Session) (limits : ReadingLimits) (sessionIndex : Nat) :
    ∃ found : List Exchange, (∀ e ∈ found, e.Unpaired) ∧
      (s.reassemble limits sessionIndex).exchanges =
        listExchanges (found.mergeSort Exchange.capturedBefore) := by
  rw [exchanges_reassemble]
  split
  · exact ⟨[], fun e he => absurd he List.not_mem_nil, by rw [List.mergeSort_nil]; rfl⟩
  · refine ⟨_, ?_, rfl⟩
    split
    · exact unpaired_encryptedExchanges _ sessionIndex
    · exact unpaired_plainExchanges _ limits sessionIndex

end Session

theorem pairedInTurn_reassemble (s : Session) (limits : ReadingLimits) (sessionIndex : Nat) :
    PairedInTurn (s.reassemble limits sessionIndex).exchanges := by
  obtain ⟨found, hfound, hlist⟩ := s.exists_found_of_reassemble limits sessionIndex
  rw [hlist]
  refine pairedInTurn_listExchanges (fun e he => hfound e ?_)
    (List.pairwise_mergeSort Exchange.capturedBefore_trans Exchange.capturedBefore_total found)
  exact (List.mergeSort_perm found _).mem_iff.mp he

end HttpCapture
