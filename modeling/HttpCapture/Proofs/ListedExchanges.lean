import HttpCapture.Session.Reassembly

/-! The list of exchanges. Messages are listed by the capture of their first packets,
and those captured at one moment as they stand in the stream; requests are answered in
the order of this list. -/

namespace HttpCapture

theorem pairwise_map_zipIdx {α β : Type} {R : α → α → Prop} {S : β → β → Prop} {f : α × Nat → β}
    {l : List α} (h : l.Pairwise R) (hf : ∀ x y, R x.1 y.1 → S (f x) (f y)) :
    (l.zipIdx.map f).Pairwise S := by
  rw [← List.zipIdx_map_fst 0 l, List.pairwise_map] at h
  exact List.pairwise_map.mpr (h.imp (hf _ _))

theorem rel_of_lt_getElem? {α : Type} {R : α → α → Prop} {l : List α} (h : l.Pairwise R) {i j : Nat}
    {a b : α} (ha : l[i]? = some a) (hb : l[j]? = some b) (hij : i < j) : R a b := by
  obtain ⟨hi, rfl⟩ := List.getElem?_eq_some_iff.mp ha
  obtain ⟨hj, rfl⟩ := List.getElem?_eq_some_iff.mp hb
  exact List.pairwise_iff_getElem.mp h i j hi hj hij

theorem filter_mergeSort {α : Type} {le : α → α → Bool}
    (htrans : ∀ a b c, le a b → le b c → le a c) (htotal : ∀ a b, le a b || le b a)
    {p : α → Bool} {l : List α} (h : (l.filter p).Pairwise (le · ·)) :
    (l.mergeSort le).filter p = l.filter p := by
  have hsub := (List.sublist_mergeSort htrans htotal h List.filter_sublist).filter p
  rw [List.filter_filter] at hsub
  simp only [Bool.and_self] at hsub
  exact (hsub.eq_of_length ((List.mergeSort_perm l le).filter p).length_eq.symm).symm

/-- A list of different elements in order is what any rearrangement of it is sorted to. -/
theorem mergeSort_eq_of_perm {α : Type} {le : α → α → Bool}
    (htrans : ∀ a b c, le a b → le b c → le a c) (htotal : ∀ a b, le a b || le b a) {l l' : List α}
    (hperm : l.Perm l') (h : l'.Pairwise fun a b => le a b = true ∧ le b a = false) :
    l.mergeSort le = l' := by
  have hmem := (List.mergeSort_perm l le).trans hperm
  refine List.Perm.eq_of_pairwise (fun a b ha hb hab hba => ?_)
    (List.pairwise_mergeSort htrans htotal l) (h.imp And.left) hmem
  obtain ⟨i, hi⟩ := List.mem_iff_getElem?.mp (hmem.mem_iff.mp ha)
  obtain ⟨j, hj⟩ := List.mem_iff_getElem?.mp hb
  rcases Nat.lt_trichotomy i j with hij | rfl | hij
  · exact absurd hba (Bool.eq_false_iff.mp (rel_of_lt_getElem? h hi hj hij).2)
  · exact Option.some.inj (hi.symm.trans hj)
  · exact absurd hab (Bool.eq_false_iff.mp (rel_of_lt_getElem? h hj hi hij).2)

namespace Exchange

theorem capturedBefore_iff {a b : Exchange} :
    a.capturedBefore b = true ↔ a.timestamp.rank < b.timestamp.rank ∨
      a.timestamp.rank = b.timestamp.rank ∧ (b.isRequest = true → a.isRequest = true) := by
  unfold capturedBefore
  cases a.isRequest <;> cases b.isRequest <;> simp

theorem capturedBefore_trans (a b c : Exchange) (hab : a.capturedBefore b = true)
    (hbc : b.capturedBefore c = true) : a.capturedBefore c = true := by
  rw [capturedBefore_iff] at *
  rcases hab with hab | ⟨hab, hr⟩ <;> rcases hbc with hbc | ⟨hbc, hr'⟩
  · exact .inl (by omega)
  · exact .inl (by omega)
  · exact .inl (by omega)
  · exact .inr ⟨by omega, hr ∘ hr'⟩

theorem capturedBefore_total (a b : Exchange) :
    (a.capturedBefore b || b.capturedBefore a) = true := by
  rw [Bool.or_eq_true, capturedBefore_iff, capturedBefore_iff]
  rcases Int.lt_trichotomy a.timestamp.rank b.timestamp.rank with h | h | h
  · exact .inl (.inl h)
  · cases ha : a.isRequest with
    | true => exact .inl (.inr ⟨h, fun _ => rfl⟩)
    | false => exact .inr (.inr ⟨h.symm, fun h => by simp at h⟩)
  · exact .inr (.inl h)

/-- Captured before, or at the same moment from further ahead in the stream. -/
def Precedes (a b : Exchange) : Prop :=
  a.timestamp.rank < b.timestamp.rank ∨
    a.timestamp.rank = b.timestamp.rank ∧ a.headOffset < b.headOffset

theorem Precedes.asymm {a b : Exchange} (h : a.Precedes b) : ¬ b.Precedes a := by
  unfold Precedes at *
  omega

/-- Neither of two messages was captured before the other and stands behind it in the stream. -/
def InStep (a b : Exchange) : Prop :=
  (a.headOffset ≤ b.headOffset → a.timestamp.rank ≤ b.timestamp.rank) ∧
    (b.headOffset ≤ a.headOffset → b.timestamp.rank ≤ a.timestamp.rank)

instance (a b : Exchange) : Decidable (a.InStep b) := inferInstanceAs (Decidable (_ ∧ _))

theorem InStep.precedes_iff {a b : Exchange} (h : a.InStep b) :
    a.Precedes b ↔ a.headOffset < b.headOffset := by
  unfold InStep at h
  unfold Precedes
  omega

end Exchange

/-- Messages of one kind and direction are listed in their order. -/
def ListedInOrder (es : List Exchange) : Prop :=
  es.Pairwise fun a b => a.direction = b.direction → a.isRequest = b.isRequest → a.Precedes b

theorem ListedInOrder.lt_iff {es : List Exchange} (h : ListedInOrder es) {i j : Nat}
    {a b : Exchange} (ha : es[i]? = some a) (hb : es[j]? = some b)
    (hdirection : a.direction = b.direction) (hkind : a.isRequest = b.isRequest) : i < j ↔ a.Precedes b := by
  rcases Nat.lt_trichotomy i j with hij | rfl | hij
  · exact iff_of_true hij (rel_of_lt_getElem? h ha hb hij hdirection hkind)
  · obtain rfl : a = b := Option.some.inj (ha.symm.trans hb)
    exact iff_of_false (Nat.lt_irrefl i) fun h => h.asymm h
  · exact iff_of_false (Nat.lt_asymm hij)
      (rel_of_lt_getElem? h hb ha hij hdirection.symm hkind.symm).asymm

theorem listedInOrder_mergeSort {es : List Exchange}
    (h : es.Pairwise fun a b => a.direction = b.direction → a.headOffset < b.headOffset) :
    ListedInOrder (es.mergeSort Exchange.capturedBefore) := by
  refine List.pairwise_iff_forall_sublist.mpr fun {a b} hsub hdirection hkind => ?_
  have hsorted := List.pairwise_mergeSort Exchange.capturedBefore_trans
    Exchange.capturedBefore_total es
  have hab := List.pairwise_iff_forall_sublist.mp hsorted hsub
  rcases Exchange.capturedBefore_iff.mp hab with hlt | ⟨hrank, _⟩
  · exact .inl hlt
  · -- Among the messages that tie with `a`, sorting changes nothing.
    let tied (e : Exchange) : Bool :=
      e.timestamp.rank = a.timestamp.rank ∧ e.isRequest = a.isRequest
    have hfilter : (es.mergeSort Exchange.capturedBefore).filter tied = es.filter tied :=
      filter_mergeSort Exchange.capturedBefore_trans Exchange.capturedBefore_total
        (List.pairwise_of_forall_mem_list ?_)
    · have htied := hsub.filter tied
      rw [hfilter] at htied
      have hpair : [a, b].filter tied = [a, b] := by simp [tied, hrank, hkind]
      rw [hpair] at htied
      exact .inr ⟨hrank, List.pairwise_iff_forall_sublist.mp h
        (htied.trans List.filter_sublist) hdirection⟩
    · intro x hx y hy
      simp only [List.mem_filter, tied, decide_eq_true_eq] at hx hy
      exact Exchange.capturedBefore_iff.mpr (.inr ⟨hx.2.1.trans hy.2.1.symm, by
        rw [hx.2.2, hy.2.2]; exact id⟩)

theorem Exchange.isResponse_of_isFinal {e : Exchange} (h : e.isFinal = true) :
    e.isResponse = true :=
  (Bool.and_eq_true_iff.mp h).1

theorem Exchange.isRequest_of_isFinal {e : Exchange} (h : e.isFinal = true) :
    e.isRequest = false := by
  have hresponse := isResponse_of_isFinal h
  unfold isResponse at hresponse
  unfold isRequest
  cases hline : e.startLine with
  | request => simp [hline] at hresponse
  | response => rfl
  | encrypted => cases hd : e.direction <;> simp_all

theorem Exchange.isFinal_of_isRequest {e : Exchange} (h : e.isRequest = true) :
    e.isFinal = false := by
  cases hfinal : e.isFinal with
  | false => rfl
  | true => exact absurd h (Bool.eq_false_iff.mp (isRequest_of_isFinal hfinal))

section

variable {waiting : List Nat} {i : Nat} {es : List Exchange}

theorem of_mem_answers {p : Nat × Option Nat} (h : p ∈ answers waiting i es) :
    i ≤ p.1 ∧ (∃ e ∈ es[p.1 - i]?, e.isFinal = true) ∧ ∀ x ∈ p.2, x ∈ waiting ∨ i ≤ x := by
  induction es generalizing waiting i with
  | nil => simp [answers] at h
  | cons e es ih =>
    have hlater {waiting' : List Nat} (hp : p ∈ answers waiting' (i + 1) es)
        (hwaiting : ∀ x ∈ waiting', x ∈ waiting ∨ i ≤ x) :
        i ≤ p.1 ∧ (∃ e' ∈ (e :: es)[p.1 - i]?, e'.isFinal = true) ∧
          ∀ x ∈ p.2, x ∈ waiting ∨ i ≤ x := by
      obtain ⟨hle, hfinal, hpartner⟩ := ih hp
      refine ⟨by omega, ?_, fun x hx => (hpartner x hx).elim (hwaiting x) fun h => .inr (by omega)⟩
      rwa [show p.1 - i = p.1 - (i + 1) + 1 by omega, List.getElem?_cons_succ]
    rw [answers] at h
    split at h
    · refine hlater h fun x hx => ?_
      rcases List.mem_append.mp hx with hx | hx
      · exact .inl hx
      · exact .inr (Nat.le_of_eq (List.mem_singleton.mp hx).symm)
    · split at h
      · next hfinal =>
        rcases List.mem_cons.mp h with rfl | h
        · exact ⟨Nat.le_refl i, ⟨e, by simp, hfinal⟩, fun x hx => .inl (List.mem_of_mem_head? hx)⟩
        · exact hlater h fun x hx => .inl (List.mem_of_mem_tail hx)
      · exact hlater h fun x hx => .inl hx

/-- First come, first served: responses and their requests ascend together. -/
theorem answers_ascending (hwaiting : waiting.Pairwise (· < ·)) (hlt : ∀ x ∈ waiting, x < i) :
    (answers waiting i es).Pairwise fun a b => a.1 < b.1 ∧ ∀ x ∈ a.2, ∀ y ∈ b.2, x < y := by
  induction es generalizing waiting i with
  | nil => exact .nil
  | cons e es ih =>
    rw [answers]
    split
    · refine ih (List.pairwise_append.mpr ⟨hwaiting, List.pairwise_singleton _ _, ?_⟩) ?_
      · intro x hx y hy
        rw [List.mem_singleton.mp hy]
        exact hlt x hx
      · intro x hx
        rcases List.mem_append.mp hx with hx | hx
        · exact Nat.lt_succ_of_lt (hlt x hx)
        · exact Nat.lt_succ_of_le (Nat.le_of_eq (List.mem_singleton.mp hx))
    · split
      · -- The oldest request precedes those that go on waiting and those to come.
        refine .cons (fun p hp => ?_) (ih (hwaiting.sublist (List.tail_sublist _)) fun x hx =>
          Nat.lt_succ_of_lt (hlt x (List.mem_of_mem_tail hx)))
        obtain ⟨hle, _, hpartner⟩ := of_mem_answers hp
        refine ⟨hle, fun x hx y hy => ?_⟩
        rcases hpartner y hy with hy | hy
        · obtain ⟨waiting, rfl⟩ := List.head?_eq_some_iff.mp hx
          exact List.rel_of_pairwise_cons hwaiting hy
        · have := hlt x (List.mem_of_mem_head? hx)
          omega
      · exact ih hwaiting fun x hx => Nat.lt_succ_of_lt (hlt x hx)

theorem answers_nil_ascending (es : List Exchange) :
    (answers [] 0 es).Pairwise fun a b => a.1 < b.1 ∧ ∀ x ∈ a.2, ∀ y ∈ b.2, x < y :=
  answers_ascending .nil fun _ h => absurd h List.not_mem_nil

theorem answers_lt_iff {j₁ j₂ i₁ i₂ : Nat} (h₁ : (j₁, some i₁) ∈ answers [] 0 es)
    (h₂ : (j₂, some i₂) ∈ answers [] 0 es) : i₁ < i₂ ↔ j₁ < j₂ := by
  have hascending := answers_nil_ascending es
  obtain ⟨m, hm⟩ := List.mem_iff_getElem?.mp h₁
  obtain ⟨n, hn⟩ := List.mem_iff_getElem?.mp h₂
  rcases Nat.lt_trichotomy m n with hmn | rfl | hmn
  · have h := rel_of_lt_getElem? hascending hm hn hmn
    exact iff_of_true (h.2 i₁ rfl i₂ rfl) h.1
  · obtain ⟨rfl, hi⟩ := Prod.mk.inj (Option.some.inj (hm.symm.trans hn))
    obtain rfl := Option.some.inj hi
    exact iff_of_false (Nat.lt_irrefl _) (Nat.lt_irrefl _)
  · have h := rel_of_lt_getElem? hascending hn hm hmn
    have := h.2 i₂ rfl i₁ rfl
    exact iff_of_false (by omega) (by omega)

end

theorem Exchange.pairBy_eq (pairs : List (Nat × Option Nat)) (e : Exchange) (i : Nat) :
    ∃ paired diagnostics,
      e.pairBy pairs i = { e with paired := paired, diagnostics := diagnostics } := by
  unfold pairBy
  split
  · exact ⟨_, _, rfl⟩
  · split
    · exact ⟨_, _, rfl⟩
    · exact ⟨_, _, rfl⟩
    · exact ⟨e.paired, e.diagnostics, rfl⟩

def listExchanges (es : List Exchange) : List Exchange := pairExchanges (numberExchanges es)

theorem answers_numberExchanges (waiting : List Nat) (i : Nat) (es : List Exchange) :
    answers waiting i (numberExchanges es) = answers waiting i es := by
  unfold numberExchanges
  generalize 0 = k
  induction es generalizing waiting i k with
  | nil => rfl
  | cons e es ih =>
    rw [List.zipIdx_cons, List.map_cons, answers, answers, ih, ih, ih]
    rfl

theorem getElem?_listExchanges (es : List Exchange) (i : Nat) :
    (listExchanges es)[i]? =
      es[i]?.map fun e => { e with index := i }.pairBy (answers [] 0 es) i := by
  rw [listExchanges, pairExchanges, answers_numberExchanges]
  simp [numberExchanges, Function.comp_def]

/-- Listing keeps what does not depend on places, partners and reports. -/
theorem pairwise_listExchanges {R : Exchange → Exchange → Prop} {es : List Exchange}
    (h : es.Pairwise R)
    (hR : ∀ a b i j paired paired' diagnostics diagnostics', R a b →
      R { a with index := i, paired := paired, diagnostics := diagnostics }
        { b with index := j, paired := paired', diagnostics := diagnostics' }) :
    (listExchanges es).Pairwise R := by
  have hnumbered : (numberExchanges es).Pairwise R :=
    pairwise_map_zipIdx h fun (a, i) (b, j) hab =>
      hR a b i j a.paired b.paired a.diagnostics b.diagnostics hab
  refine pairwise_map_zipIdx hnumbered fun (a, i) (b, j) hab => ?_
  obtain ⟨_, _, ha⟩ := a.pairBy_eq (answers [] 0 (numberExchanges es)) i
  obtain ⟨_, _, hb⟩ := b.pairBy_eq (answers [] 0 (numberExchanges es)) j
  dsimp only
  rw [ha, hb]
  exact hR a b a.index b.index _ _ _ _ hab

theorem ListedInOrder.listed {es : List Exchange} (h : ListedInOrder es) :
    ListedInOrder (listExchanges es) :=
  pairwise_listExchanges h fun _ _ _ _ _ _ _ _ hab => hab

theorem mem_answers_of_paired {es : List Exchange} {i j : Nat} {q : Exchange}
    (hq : (listExchanges es)[i]? = some q) (hrequest : q.isRequest = true)
    (hpaired : q.paired = some j) :
    (j, some i) ∈ answers [] 0 es := by
  rw [getElem?_listExchanges] at hq
  obtain ⟨e, _, rfl⟩ := Option.map_eq_some_iff.mp hq
  obtain ⟨_, _, heq⟩ := Exchange.pairBy_eq (answers [] 0 es) { e with index := i } i
  rw [heq] at hrequest
  have hrequest' : ({ e with index := i } : Exchange).isRequest = true := hrequest
  unfold Exchange.pairBy at hpaired
  rw [if_pos hrequest'] at hpaired
  obtain ⟨⟨j', partner⟩, hfind, rfl⟩ := Option.map_eq_some_iff.mp hpaired
  obtain rfl : partner = some i := by simpa using List.find?_some hfind
  exact List.mem_of_find?_eq_some hfind

theorem exists_final_of_mem_answers {es : List Exchange} {p : Nat × Option Nat}
    (hp : p ∈ answers [] 0 es) : ∃ e, es[p.1]? = some e ∧ e.isFinal = true := by
  obtain ⟨_, ⟨e, he, hfinal⟩, _⟩ := of_mem_answers hp
  exact ⟨e, he, hfinal⟩

theorem isFinal_of_mem_answers {es : List Exchange} {p : Nat × Option Nat}
    (hp : p ∈ answers [] 0 es) {r : Exchange} (hr : (listExchanges es)[p.1]? = some r) :
    r.isFinal = true := by
  obtain ⟨e, he, hfinal⟩ := exists_final_of_mem_answers hp
  rw [getElem?_listExchanges, he] at hr
  obtain ⟨_, _, heq⟩ := Exchange.pairBy_eq (answers [] 0 es) { e with index := p.1 } p.1
  rw [Option.map_some, heq] at hr
  rw [← Option.some.inj hr]
  exact hfinal

theorem ListedInOrder.paired_precedes_iff {es : List Exchange} (h : ListedInOrder es)
    {q₁ q₂ r₁ r₂ : Exchange} {j₁ j₂ : Nat}
    (hq₁ : q₁ ∈ listExchanges es) (hq₂ : q₂ ∈ listExchanges es)
    (hrequest₁ : q₁.isRequest = true) (hrequest₂ : q₂.isRequest = true)
    (hpaired₁ : q₁.paired = some j₁) (hpaired₂ : q₂.paired = some j₂)
    (hr₁ : (listExchanges es)[j₁]? = some r₁)
    (hr₂ : (listExchanges es)[j₂]? = some r₂)
    (hup : q₁.direction = q₂.direction) (hdown : r₁.direction = r₂.direction) :
    q₁.Precedes q₂ ↔ r₁.Precedes r₂ := by
  obtain ⟨i₁, hi₁⟩ := List.mem_iff_getElem?.mp hq₁
  obtain ⟨i₂, hi₂⟩ := List.mem_iff_getElem?.mp hq₂
  have hpair₁ := mem_answers_of_paired hi₁ hrequest₁ hpaired₁
  have hpair₂ := mem_answers_of_paired hi₂ hrequest₂ hpaired₂
  have hkind := (Exchange.isRequest_of_isFinal (isFinal_of_mem_answers hpair₁ hr₁)).trans
    (Exchange.isRequest_of_isFinal (isFinal_of_mem_answers hpair₂ hr₂)).symm
  calc q₁.Precedes q₂ ↔ i₁ < i₂ :=
        (h.listed.lt_iff hi₁ hi₂ hup (hrequest₁.trans hrequest₂.symm)).symm
    _ ↔ j₁ < j₂ := answers_lt_iff hpair₁ hpair₂
    _ ↔ r₁.Precedes r₂ := h.listed.lt_iff hr₁ hr₂ hdown hkind

end HttpCapture
