import HttpCapture.Proofs.LatestSessions
import Mathlib.Data.List.Chain

/-! Grouping loses no packet and mixes no flows. A flow is cut into runs where a connection other
than the open one is asked for, and nowhere else. -/

namespace HttpCapture

/-- Sessions, each with the places of its packets in the capture, divide the packets among them. -/
structure Divides (ps : List Packet) (runs : List (Session × List Nat)) : Prop where
  isRun : ∀ r ∈ runs, r.1.IsRun
  placed : ∀ r ∈ runs, r.1.packets.map (some ·.packet) = r.2.map (ps[·]?)
  inhabited : ∀ r ∈ runs, r.2 ≠ []
  ordered : runs.Pairwise fun a b => ∀ i ∈ a.2.head?, ∀ j ∈ b.2.head?, i < j
  complete : ∀ key kind, (runs.filter (·.1.isOf key kind)).flatMap (·.2) =
    placesWhere (·.isOf key kind) ps
  cut : ∀ key kind, (runs.filter (·.1.isOf key kind)).IsChain fun a b =>
    ∀ p ∈ b.1.packets.head?, p.opensAfter a.1.packets = true

namespace Divides

variable {ps : List Packet} {runs : List (Session × List Nat)}

theorem empty : Divides [] [] :=
  ⟨by simp, by simp, by simp, .nil, fun _ _ => rfl, fun _ _ => .nil⟩

theorem lt_length (h : Divides ps runs) {r : Session × List Nat} (hr : r ∈ runs) {i : Nat}
    (hi : i ∈ r.2) : i < ps.length := by
  have hmem : ps[i]? ∈ r.1.packets.map (some ·.packet) :=
    h.placed r hr ▸ List.mem_map_of_mem hi
  obtain ⟨p, -, hp⟩ := List.mem_map.mp hmem
  exact (List.getElem?_eq_some_iff.mp hp.symm).1

theorem placed_append (h : Divides ps runs) (p : Packet) {r : Session × List Nat} (hr : r ∈ runs) :
    r.1.packets.map (some ·.packet) = r.2.map ((ps ++ [p])[·]?) := by
  rw [h.placed r hr]
  refine List.map_congr_left fun i hi => ?_
  rw [List.getElem?_append_left (h.lt_length hr hi)]

theorem ne_nil_of_mem (h : Divides ps runs) {r : Session × List Nat} (hr : r ∈ runs) :
    r.1.packets ≠ [] := by
  intro hnone
  have hplaced := h.placed r hr
  rw [hnone] at hplaced
  exact h.inhabited r hr (List.map_eq_nil_iff.mp hplaced.symm)

theorem extend {before after : List (Session × List Nat)} {s : Session} {l : List Nat}
    (h : Divides ps (before ++ (s, l) :: after)) {p : Packet} (guessed : Bool)
    (hs : s.isOf p.key p.kind = true) (hafter : ∀ r ∈ after, r.1.isOf p.key p.kind = false)
    (hcontinues : Grouping.continuesSession s p (settleDirection p).1 = true) :
    Divides (ps ++ [p])
      (before ++
        (Grouping.enter p (settleDirection p).1 guessed s, l ++ [ps.length]) :: after) := by
  have hmem : (s, l) ∈ before ++ (s, l) :: after := by simp
  have hl := h.inhabited _ hmem
  have hpackets := h.ne_nil_of_mem hmem
  have hold : ∀ r ∈ before ++ after, r ∈ before ++ (s, l) :: after := by
    intro r hr
    rcases List.mem_append.mp hr with hr | hr
    · exact List.mem_append_left _ hr
    · exact List.mem_append_right _ (List.mem_cons_of_mem _ hr)
  have hcases : ∀ r ∈ before ++ (Grouping.enter p (settleDirection p).1 guessed s,
      l ++ [ps.length]) :: after, r ∈ before ++ after ∨
        r = (Grouping.enter p (settleDirection p).1 guessed s, l ++ [ps.length]) := by
    intro r hr
    simp only [List.mem_append, List.mem_cons] at hr ⊢
    tauto
  have hsame := Session.isOf_congr hs
  -- Behind the session that the packet goes to there is none of its flow.
  have hnone : ∀ key kind, p.isOf key kind = true → after.filter (·.1.isOf key kind) = [] := by
    intro key kind hp
    obtain ⟨rfl, rfl⟩ : p.key = key ∧ p.kind = kind := by simpa [Packet.isOf] using hp
    exact List.filter_eq_nil_iff.mpr fun r hr => by simp [hafter r hr]
  constructor
  case isRun =>
    intro r hr
    rcases hcases r hr with hr | rfl
    · exact h.isRun r (hold r hr)
    · exact (h.isRun _ hmem).enter guessed hs (.inr hcontinues)
  case placed =>
    intro r hr
    rcases hcases r hr with hr | rfl
    · exact h.placed_append p (hold r hr)
    · have hplaced := h.placed_append p hmem
      simp only [Grouping.packets_enter, List.map_append, List.map_cons, List.map_nil,
        List.getElem?_concat_length] at hplaced ⊢
      rw [hplaced]
      rfl
  case inhabited =>
    intro r hr
    rcases hcases r hr with hr | rfl
    · exact h.inhabited r (hold r hr)
    · simp
  case ordered =>
    have hhead : (l ++ [ps.length]).head? = l.head? := by
      rw [List.head?_append, Option.or_of_isSome (by simpa using hl)]
    have hordered := h.ordered
    simp only [List.pairwise_append, List.pairwise_cons, List.mem_cons,
      forall_eq_or_imp] at hordered ⊢
    simpa only [hhead] using hordered
  case complete =>
    intro key kind
    have hcomplete := h.complete key kind
    rw [placesWhere_append_singleton, ← hcomplete, List.filter_append, List.filter_append]
    cases hp : p.isOf key kind with
    | true => simp [hsame, hp, hnone key kind hp]
    | false => simp [hsame, hp]
  case cut =>
    intro key kind
    have hcut := h.cut key kind
    rw [List.filter_append] at hcut ⊢
    cases hp : p.isOf key kind with
    | true =>
      have hhead : (s.packets ++ [Grouping.entered s p (settleDirection p).1]).head? =
          s.packets.head? := by
        rw [List.head?_append, Option.or_of_isSome (by simpa using hpackets)]
      rw [List.filter_cons_of_pos (by simp [hsame, hp]), hnone key kind hp, List.isChain_append]
        at hcut ⊢
      refine ⟨hcut.1, .singleton _, fun a ha b hb => ?_⟩
      obtain rfl := Option.some.inj hb
      rw [Grouping.packets_enter, hhead]
      exact hcut.2.2 a ha _ rfl
    | false =>
      rw [List.filter_cons_of_neg (by simp [hsame, hp])] at hcut ⊢
      exact hcut

theorem opened (h : Divides ps runs) {p : Packet} (guessed : Bool)
    (hlast : ∀ r ∈ (runs.filter (·.1.isOf p.key p.kind)).getLast?,
      Grouping.continuesSession r.1 p (settleDirection p).1 = false) :
    Divides (ps ++ [p]) (runs ++
      [(Grouping.enter p (settleDirection p).1 guessed (.new p.key p.kind), [ps.length])]) := by
  have hkey : ∀ key kind, (Grouping.enter p (settleDirection p).1 guessed
      (.new p.key p.kind)).isOf key kind = p.isOf key kind := by
    intro key kind
    rw [Grouping.isOf_enter]
    rfl
  constructor
  case isRun =>
    intro r hr
    rcases List.mem_append.mp hr with hr | hr
    · exact h.isRun r hr
    · rw [List.mem_singleton.mp hr]
      exact (Session.isRun_new _ _).enter guessed (by simp [Session.isOf, Session.new]) (.inl rfl)
  case placed =>
    intro r hr
    rcases List.mem_append.mp hr with hr | hr
    · exact h.placed_append p hr
    · rw [List.mem_singleton.mp hr]
      simp [Session.new, Grouping.entered, SessionPacket.of]
  case inhabited =>
    intro r hr
    rcases List.mem_append.mp hr with hr | hr
    · exact h.inhabited r hr
    · rw [List.mem_singleton.mp hr]
      simp
  case ordered =>
    refine List.pairwise_append.mpr ⟨h.ordered, List.pairwise_singleton _ _, ?_⟩
    intro r hr q hq i hi j hj
    rw [List.mem_singleton.mp hq] at hj
    rw [← Option.some.inj hj]
    exact h.lt_length hr (List.mem_of_mem_head? hi)
  case complete =>
    intro key kind
    rw [placesWhere_append_singleton, ← h.complete key kind, List.filter_append]
    by_cases hp : p.isOf key kind = true <;> simp [hkey, hp]
  case cut =>
    intro key kind
    rw [List.filter_append]
    cases hp : p.isOf key kind with
    | true =>
      rw [List.filter_cons_of_pos (by rw [hkey, hp]), List.filter_nil, List.isChain_append]
      refine ⟨h.cut key kind, .singleton _, fun a ha b hb => ?_⟩
      obtain rfl := Option.some.inj hb
      obtain ⟨rfl, rfl⟩ : p.key = key ∧ p.kind = kind := by simpa [Packet.isOf] using hp
      have hrun := h.isRun a (List.mem_filter.mp (List.mem_of_getLast? ha)).1
      have hclosed := hlast a ha
      rw [Grouping.continuesSession_eq hrun.base] at hclosed
      intro q hq
      rw [Grouping.packets_enter] at hq
      obtain rfl := Option.some.inj hq
      change (Grouping.entered a.1 p (settleDirection p).1).opensAfter a.1.packets = true
      simpa using hclosed
    | false =>
      rw [List.filter_cons_of_neg (by simp [hkey, hp]), List.filter_nil, List.append_nil]
      exact h.cut key kind

theorem exists_of_foldl_add (ps : List Packet) :
    ∃ runs, runs.map (·.1) = (ps.foldl Grouping.add .empty).sessions ∧ Divides ps runs := by
  induction ps using List.reverseRecOn with
  | nil => exact ⟨[], rfl, .empty⟩
  | append_singleton ps p ih =>
    obtain ⟨runs, hruns, h⟩ := ih
    rw [List.foldl_append, List.foldl_cons, List.foldl_nil]
    rcases (Grouping.indexesLatest_foldl_add ps).sessions_add p with
      ⟨before, s, after, hsplit, hs, hafter, hcontinues, hadd⟩ | ⟨hlast, hadd⟩
    · rw [hsplit, List.map_eq_append_iff] at hruns
      obtain ⟨rbefore, rest, rfl, hbefore, hrest⟩ := hruns
      obtain ⟨⟨t, l⟩, rafter, rfl, rfl, rfl⟩ := List.map_eq_cons_iff.mp hrest
      refine ⟨_, ?_, h.extend (settleDirection p).2 hs ?_ hcontinues⟩
      · rw [hadd, List.map_append, List.map_cons, hbefore]
      · exact fun r hr => hafter r.1 (List.mem_map_of_mem hr)
    · refine ⟨_, ?_, h.opened (settleDirection p).2 fun r hr => hlast r.1 ?_⟩
      · rw [hadd, List.map_append, hruns]
        rfl
      · have hfilter : (runs.filter (·.1.isOf p.key p.kind)).map (·.1) =
            (ps.foldl Grouping.add .empty).sessions.filter (·.isOf p.key p.kind) := by
          rw [← hruns, List.filter_map]
          rfl
        rw [← hfilter, List.getLast?_map, Option.mem_def.mp hr]
        rfl

theorem rename (h : Divides ps runs) (host : Session → Option String) :
    Divides ps (runs.map fun r => ({ r.1 with remoteHost := host r.1 }, r.2)) := by
  have hmem : ∀ r ∈ runs.map fun r => (({ r.1 with remoteHost := host r.1 } : Session), r.2),
      ∃ q ∈ runs, ({ q.1 with remoteHost := host q.1 }, q.2) = r :=
    fun r hr => List.mem_map.mp hr
  constructor
  case isRun =>
    intro r hr
    obtain ⟨q, hq, rfl⟩ := hmem r hr
    have hrun := h.isRun q hq
    exact ⟨hrun.keyed, hrun.settled, hrun.base, hrun.uncut, hrun.opening, hrun.flagged⟩
  case placed =>
    intro r hr
    obtain ⟨q, hq, rfl⟩ := hmem r hr
    exact h.placed q hq
  case inhabited =>
    intro r hr
    obtain ⟨q, hq, rfl⟩ := hmem r hr
    exact h.inhabited q hq
  case ordered =>
    exact List.pairwise_map.mpr h.ordered
  case complete =>
    intro key kind
    rw [List.filter_map, List.flatMap_map]
    exact h.complete key kind
  case cut =>
    intro key kind
    rw [List.filter_map, List.isChain_map]
    exact h.cut key kind

/-- The sessions of a flow hold its packets, in the order of their capture. -/
theorem flatMap_packets (h : Divides ps runs) (key : SessionKey) (kind : TransportKind) :
    ((runs.map (·.1)).filter (·.isOf key kind)).flatMap (·.packets.map (·.packet)) =
      ps.filter (·.isOf key kind) := by
  apply List.map_injective_iff.mpr (fun _ _ => Option.some.inj)
  rw [← map_placesWhere, ← h.complete key kind, List.map_flatMap, List.map_flatMap, List.filter_map,
    List.flatMap_map]
  refine List.flatMap_congr fun r hr => ?_
  rw [← h.placed r (List.mem_filter.mp hr).1, List.map_map]
  rfl

theorem datagrams (h : Divides ps runs) {key : SessionKey} (hp : ∃ p ∈ ps, p.isOf key .udp = true) :
    ∃ r, runs.filter (·.1.isOf key .udp) = [r] := by
  have hcut := h.cut key .udp
  have hcomplete := h.complete key .udp
  cases hruns : runs.filter (·.1.isOf key .udp) with
  | nil =>
    obtain ⟨p, hp, hkey⟩ := hp
    rw [hruns, List.flatMap_nil] at hcomplete
    have hmap := map_placesWhere (·.isOf key .udp) ps
    rw [← hcomplete, List.map_nil] at hmap
    have hmem := List.mem_map_of_mem (f := some) (List.mem_filter.mpr ⟨hp, hkey⟩)
    rw [← hmap] at hmem
    exact absurd hmem List.not_mem_nil
  | cons r rest =>
    cases rest with
    | nil => exact ⟨r, rfl⟩
    | cons q rest =>
      rw [hruns, List.isChain_cons_cons] at hcut
      have hq : q ∈ runs.filter (·.1.isOf key .udp) := by simp [hruns]
      obtain ⟨hq, hudp⟩ := List.mem_filter.mp hq
      obtain ⟨p, packets, hpackets⟩ := List.exists_cons_of_ne_nil (h.ne_nil_of_mem hq)
      have hopens := hcut.1 p (by rw [hpackets]; rfl)
      have hkeyed := (h.isRun q hq).keyed p (by simp [hpackets])
      have hkind : p.packet.kind = .udp := by
        simp only [Session.isOf, Packet.isOf, decide_eq_true_eq] at hudp hkeyed
        rw [hkeyed.2, hudp.2]
      rw [SessionPacket.opensAfter_of_udp hkind] at hopens
      exact absurd hopens (by simp)

theorem exists_divides (ps : List Packet) :
    ∃ runs, runs.map (·.1) = groupPackets ps ∧ Divides ps runs := by
  obtain ⟨runs, hruns, h⟩ := exists_of_foldl_add ps
  let host := fun s : Session =>
    s.remoteHost <|> (ps.foldl Grouping.add .empty).names.get? s.key.remoteAddr
  refine ⟨_, ?_, h.rename host⟩
  rw [groupPackets, ← hruns, List.map_map, List.map_map]
  rfl

end Divides

/-- The sessions of a capture are the runs of its flows. -/
theorem groupPackets_divides (ps : List Packet) :
    (∃ runs, runs.map (·.1) = groupPackets ps ∧ Divides ps runs) ∧
      (∀ key kind, ((groupPackets ps).filter (·.isOf key kind)).flatMap (·.packets.map (·.packet)) =
        ps.filter (·.isOf key kind)) ∧
      ∀ key, (∃ p ∈ ps, p.isOf key .udp = true) →
        ∃ s, (groupPackets ps).filter (·.isOf key .udp) = [s] := by
  obtain ⟨runs, hruns, h⟩ := Divides.exists_divides ps
  refine ⟨⟨runs, hruns, h⟩, fun key kind => ?_, fun key hp => ?_⟩
  · rw [← hruns]
    exact h.flatMap_packets key kind
  · obtain ⟨r, hr⟩ := h.datagrams hp
    refine ⟨r.1, ?_⟩
    rw [← hruns, List.filter_map]
    exact congrArg (List.map (·.1)) hr

/-- A repeated request for a connection, and then one for another connection. -/
example :
    let ask := fun seq : UInt32 =>
      { (SessionPacket.sample .uplink seq 0 []).packet with
        transport := .tcp ⟨seq, 0, .ofBits 2, 0⟩ }
    (groupPackets [ask 100, ask 100, ask 200]).map (·.packets.map (·.handshakeRetransmit)) =
      [[false, true], [false]] := by
  decide +kernel

end HttpCapture
