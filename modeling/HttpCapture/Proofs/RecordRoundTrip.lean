import HttpCapture.Capture.Trace
import HttpCapture.Proofs.JsonRoundTrip

/-! The written form of a packet reads back as the packet. Each field has a reader that undoes its
writer; a field that is left out reads as the value that it was left out for. -/

namespace HttpCapture

namespace Base64

theorem value?_digit : ∀ n < 64, value? (digit n) = some n := by decide

theorem digit_ne_pad : ∀ n < 64, digit n ≠ '=' := by decide

section Group

variable {x y z w : Nat} (hx : x < 64) (hy : y < 64) (hz : z < 64) (hw : w < 64)

include hx hy

theorem decodeLast_one (h : y % 16 = 0) :
    decodeLast (digit x) (digit y) '=' '=' = some [UInt8.ofNat (x * 4 + y / 16)] := by
  simp [decodeLast, value?_digit x hx, value?_digit y hy, h]

include hz

theorem decodeLast_two (h : z % 4 = 0) : decodeLast (digit x) (digit y) (digit z) '=' =
    some [UInt8.ofNat (x * 4 + y / 16), UInt8.ofNat (y % 16 * 16 + z / 4)] := by
  simp [decodeLast, value?_digit x hx, value?_digit y hy, value?_digit z hz, digit_ne_pad z hz, h]

include hw

theorem decodeLast_three : decodeLast (digit x) (digit y) (digit z) (digit w) =
    some [UInt8.ofNat (x * 4 + y / 16), UInt8.ofNat (y % 16 * 16 + z / 4),
      UInt8.ofNat (z % 4 * 64 + w)] := by
  simp [decodeLast, value?_digit x hx, value?_digit y hy, value?_digit z hz, value?_digit w hw,
    digit_ne_pad z hz, digit_ne_pad w hw]

end Group

theorem ofNat_of_eq {n : Nat} {a : UInt8} (h : n = a.toNat) : UInt8.ofNat n = a := by
  rw [h, UInt8.ofNat_toNat]

theorem decodeOnto_encode (done bs : Bytes) :
    decodeOnto done (encode bs) = some (done.reverse ++ bs) := by
  induction bs using encode.induct generalizing done with
  | case1 => simp [encode, decodeOnto]
  | case2 a =>
    have ha : a.toNat < 256 := a.toNat_lt_size
    have hfirst : UInt8.ofNat (a.toNat / 4 * 4 + a.toNat % 4 * 16 / 16) = a :=
      ofNat_of_eq (by omega)
    rw [encode, decodeOnto, decodeLast_one (by omega) (by omega) (by omega), hfirst]
    simp [decodeOnto]
  | case3 a b =>
    have ha : a.toNat < 256 := a.toNat_lt_size
    have hb : b.toNat < 256 := b.toNat_lt_size
    have hfirst : UInt8.ofNat (a.toNat / 4 * 4 + (a.toNat % 4 * 16 + b.toNat / 16) / 16) = a :=
      ofNat_of_eq (by omega)
    have hsecond :
        UInt8.ofNat ((a.toNat % 4 * 16 + b.toNat / 16) % 16 * 16 + b.toNat % 16 * 4 / 4) = b :=
      ofNat_of_eq (by omega)
    rw [encode, decodeOnto, decodeLast_two (by omega) (by omega) (by omega) (by omega),
      hfirst, hsecond]
    simp [decodeOnto]
  | case4 a b c rest ih =>
    have ha : a.toNat < 256 := a.toNat_lt_size
    have hb : b.toNat < 256 := b.toNat_lt_size
    have hc : c.toNat < 256 := c.toNat_lt_size
    have hfirst : UInt8.ofNat (a.toNat / 4 * 4 + (a.toNat % 4 * 16 + b.toNat / 16) / 16) = a :=
      ofNat_of_eq (by omega)
    have hsecond : UInt8.ofNat ((a.toNat % 4 * 16 + b.toNat / 16) % 16 * 16 +
        (b.toNat % 16 * 4 + c.toNat / 64) / 4) = b := ofNat_of_eq (by omega)
    have hthird : UInt8.ofNat ((b.toNat % 16 * 4 + c.toNat / 64) % 4 * 64 + c.toNat % 64) = c :=
      ofNat_of_eq (by omega)
    rw [encode, decodeOnto, decodeLast_three (by omega) (by omega) (by omega) (by omega), hfirst,
      hsecond, hthird]
    simp [ih]

theorem decode?_encode (bs : Bytes) : decode? (encode bs) = some bs :=
  decodeOnto_encode [] bs

end Base64

namespace NumberText

theorem le_foldl_digits (ds : List Char) (acc : Nat) :
    acc ≤ ds.foldl (fun n c => n * 10 + (c.toNat - 48)) acc := by
  induction ds generalizing acc with
  | nil => exact Nat.le_refl acc
  | cons c ds ih =>
    have := ih (acc * 10 + (c.toNat - 48))
    rw [List.foldl_cons]
    omega

theorem absorb_of_lt {ds : List Char} {acc : Nat}
    (h : ds.foldl (fun n c => n * 10 + (c.toNat - 48)) acc < wordBound) :
    absorb acc ds = (ds.foldl (fun n c => n * 10 + (c.toNat - 48)) acc, 0) := by
  induction ds generalizing acc with
  | nil => rfl
  | cons c ds ih =>
    rw [List.foldl_cons] at h ⊢
    have hnext : acc * 10 + (c.toNat - 48) < wordBound :=
      Nat.lt_of_le_of_lt (le_foldl_digits ds _) h
    rw [absorb, if_pos hnext, ih h]

theorem value?_ofInt {n : Nat} (h : n < wordBound) : (ofInt n).value? = some (.whole n) := by
  have habsorb : absorb 0 (Nat.toDigits 10 n) = (n, 0) := by
    have hfold := foldl_toDigits n
    rw [absorb_of_lt (by rwa [hfold]), hfold]
  have hsign : ¬(n : Int) < 0 := by omega
  simp [value?, ofInt, habsorb, hsign]

end NumberText

namespace JsonTree

theorem tree_nat (n : Nat) : (Json.nat n).tree = .number (NumberText.ofInt n) := by
  simp [Json.nat, Json.tree, NumberText.ofInt]

theorem below?_nat {n bound : Nat} (h : n < bound) (hbound : bound ≤ wordBound) :
    (Json.nat n).tree.below? bound = some n := by
  have hvalue := NumberText.value?_ofInt (Nat.lt_of_lt_of_le h hbound)
  simp [tree_nat, below?, hvalue, h]

theorem address?_toJson (a : IpAddress) : a.toJson.tree.address? = some a := by
  simp [IpAddress.toJson, Json.tree, address?, string?, IpAddress.read?_text]

theorem filter_of_nodup {members : List (String × Json)} (h : (members.map (·.1)).Nodup)
    (name : String) :
    (members.map fun m => (some m.1, m.2.tree)).filter (fun m => decide (m.1 = some name)) =
      ((members.lookup name).map fun j => (some name, j.tree)).toList := by
  induction members with
  | nil => rfl
  | cons m members ih =>
    obtain ⟨other, j⟩ := m
    obtain ⟨hnot, hnodup⟩ := List.nodup_cons.mp h
    have ih := ih hnodup
    by_cases hname : other = name
    · subst hname
      have hnone : members.lookup other = none := by
        refine List.lookup_eq_none_iff.mpr fun m hm => bne_iff_ne.mpr fun heq => ?_
        exact hnot (List.mem_map.mpr ⟨m, hm, heq.symm⟩)
      rw [hnone] at ih
      simpa using ih
    · have hbeq : (name == other) = false := beq_eq_false_iff_ne.mpr fun heq => hname heq.symm
      simpa [hname, List.lookup_cons, hbeq] using ih

/-- The fields of a record that names each of them once. -/
theorem fields?_tree {members : List (String × Json)} (h : (members.map (·.1)).Nodup)
    (names : List String) : (Json.obj members).tree.fields? names =
      some (names.map fun name => (members.lookup name).map Json.tree) := by
  have hnamed : (members.map fun m => (some m.1, m.2.tree)).any (·.1.isNone) = false := by simp
  rw [Json.tree, Json.treeMembers_eq_map, fields?, if_neg (by simp [hnamed])]
  refine mapM_eq_some_map fun name _ => ?_
  rw [filter_of_nodup h]
  cases members.lookup name <;> rfl

theorem bool?_tree (b : Bool) : (Json.bool b).tree.bool? = some b := by
  simp [Json.tree, bool?]

theorem choice?_direction (d : Direction) : choice? directions d.toJson.tree = some d := by
  cases d <;> decide +kernel

theorem choice?_tlsRecord (r : TlsRecord) : choice? tlsRecords (Json.str r.name).tree = some r := by
  cases r <;> decide +kernel

theorem flags?_toJson (f : TcpFlags) : f.toJson.tree.flags? = some f := by
  rw [TcpFlags.toJson, flags?, fields?_tree (by simp)]
  simp [flagNames, List.lookup_cons, orDefault?, bool?_tree]

theorem tcpInfo?_members (i : TcpInfo) : (Json.obj i.members).tree.tcpInfo? = some i := by
  have hseq := below?_nat i.seq.toNat_lt_size (by decide)
  have hack := below?_nat i.ack.toNat_lt_size (by decide)
  have hwindow := below?_nat i.window.toNat_lt_size (by decide)
  rw [tcpInfo?, fields?_tree (by simp [TcpInfo.members])]
  simp [TcpInfo.members, List.lookup_cons, flags?_toJson, hseq, hack, hwindow]

theorem isMeaningful_nat {n : Nat} (h : n < wordBound) : (Json.nat n).tree.isMeaningful = true := by
  simp [tree_nat, isMeaningful, NumberText.value?_ofInt h]

theorem isMeaningful_tcp (i : TcpInfo) : (Transport.tcp i).toJson.tree.isMeaningful = true := by
  have hseq : i.seq.toNat < wordBound := Nat.lt_trans i.seq.toNat_lt_size (by decide)
  have hack : i.ack.toNat < wordBound := Nat.lt_trans i.ack.toNat_lt_size (by decide)
  have hwindow : i.window.toNat < wordBound := Nat.lt_trans i.window.toNat_lt_size (by decide)
  have hbool : ∀ b, (Json.bool b).tree.isMeaningful = true := by simp [Json.tree, isMeaningful]
  have hstr : ∀ s, (Json.str s).tree.isMeaningful = true := by simp [Json.tree, isMeaningful]
  simp only [Transport.toJson, TcpInfo.members, TcpFlags.toJson]
  simp [Json.tree_obj, isMeaningful, haveMeaning, isMeaningful_nat, hbool, hstr, hseq,
    hack, hwindow]

theorem depth_tcp (i : TcpInfo) : (Transport.tcp i).toJson.tree.depth = 2 := by
  simp [Transport.toJson, TcpInfo.members, TcpFlags.toJson, Json.tree, Json.treeMembers, depth,
    depthMembers, Json.nat]

theorem transport?_toJson (t : Transport) : t.toJson.tree.transport? = some t := by
  cases t with
  | udp => decide +kernel
  | tcp i =>
    have htree : (Transport.tcp i).toJson.tree = .obj ((some "kind", .str (some "tcp")) ::
        i.members.map fun m => (some m.1, m.2.tree)) := by
      simp [Transport.toJson, Json.tree_obj, Json.tree]
    have hrest : ∀ m ∈ i.members.map fun m => (some m.1, m.2.tree), m.1 ≠ some "kind" := by
      simp [TcpInfo.members]
    have hinfo := tcpInfo?_members i
    have hmeaning := isMeaningful_tcp i
    have hdepth := depth_tcp i
    rw [Json.tree_obj] at hinfo
    rw [htree] at hmeaning hdepth ⊢
    -- From here on it only matters that the tag is not among the other members.
    generalize i.members.map (fun m => (some m.1, m.2.tree)) = rest at *
    have hkind : rest.filter (fun m => decide (m.1 = some "kind")) = [] :=
      List.filter_eq_nil_iff.mpr fun m hm => by simpa using hrest m hm
    have hothers : rest.filter (fun m => !decide (m.1 = some "kind")) = rest :=
      List.filter_eq_self.mpr fun m hm => by simpa using hrest m hm
    simp [transport?, hmeaning, hdepth, maxDepth, List.partition_eq_filter_filter, hkind,
      Function.comp_def, hothers, transportOf?, hinfo]

theorem dnsAnswer?_toJson (a : DnsAnswer) : a.toJson.tree.dnsAnswer? = some a := by
  have haddresses : (a.addresses.map fun x => x.toJson.tree).mapM address? = some a.addresses := by
    have hread : ∀ x ∈ a.addresses, (address? ∘ fun x => x.toJson.tree) x = some (id x) :=
      fun x _ => address?_toJson x
    rw [List.mapM_map, mapM_eq_some_map hread, List.map_id]
  rw [DnsAnswer.toJson, dnsAnswer?, fields?_tree (by simp)]
  simp [List.lookup_cons, Json.list, Json.tree_arr, Json.tree_str, string?, items?,
    Function.comp_def, haddresses]

theorem orDefault?_nullable {α : Type} {f : JsonTree → Option α} {g : α → JsonTree}
    (hne : ∀ a, g a ≠ .null) (h : ∀ a, f (g a) = some a) (o : Option α) :
    orDefault? none (nullable? f) (o.map g) = some o := by
  cases o with
  | none => rfl
  | some a =>
    have hnull : nullable? f (g a) = (f (g a)).map some := by
      unfold nullable?
      split
      · next heq => exact absurd heq (hne a)
      · rfl
    rw [Option.map_some, orDefault?, hnull, h a]
    rfl

theorem payload?_encode (bs : Bytes) :
    (Json.str (String.ofList (Base64.encode bs))).tree.payload? = some bs := by
  simp [Json.tree, payload?, string?, Base64.decode?_encode]

end JsonTree

namespace Timestamp

def IsFinite (t : Timestamp) : Prop := t.bits &&& 0x7ff0000000000000 ≠ 0x7ff0000000000000

instance (t : Timestamp) : Decidable t.IsFinite := inferInstanceAs (Decidable (_ ≠ _))

/-- The printed text of a capture time is a number that reads back as the same time. -/
def ReadsBack (t : Timestamp) : Prop :=
  ∃ n, NumberText.read? (NumberFormat.json.text t.bits) = some (n, []) ∧
    (JsonTree.number n).timestamp? = some t

end Timestamp

namespace Packet

variable {p : Packet}

theorem readsBack_transport (t : Transport) : t.toJson.ReadsBack := by
  cases t with
  | udp =>
    refine .obj fun m hm => ?_
    rw [List.mem_singleton.mp hm]
    exact .str _
  | tcp i =>
    have hflags : i.flags.toJson.ReadsBack := by
      refine .obj ?_
      simp [Json.ReadsBack.bool]
    refine .obj ?_
    simp [TcpInfo.members, Json.ReadsBack.str, Json.nat, Json.ReadsBack.int, hflags]

theorem readsBack_dns (a : DnsAnswer) : a.toJson.ReadsBack := by
  have haddresses : (Json.list IpAddress.toJson a.addresses).ReadsBack := by
    refine .arr ?_
    simp [IpAddress.toJson, Json.ReadsBack.str]
  refine .obj ?_
  simp [Json.ReadsBack.str, haddresses]

theorem readsBack_toJson (h : p.timestamp.ReadsBack) : p.toJson.ReadsBack := by
  obtain ⟨n, hread, -⟩ := h
  have htime : p.timestamp.toJson.ReadsBack := .float hread
  refine .obj fun m hm => ?_
  simp only [List.mem_append, List.mem_cons, List.not_mem_nil, or_false] at hm
  rcases hm with (((rfl | rfl | rfl | rfl | rfl | rfl | rfl | rfl) | hm) | hm) | rfl
  · exact htime
  · exact .str _
  · exact .str _
  · exact .int _
  · exact .str _
  · exact .int _
  · exact readsBack_transport _
  · exact .str _
  -- A field with no value is left out.
  · obtain ⟨r, -, rfl⟩ := Option.map_eq_some_iff.mp (Option.mem_toList.mp hm)
    exact .str _
  · obtain ⟨a, -, rfl⟩ := Option.map_eq_some_iff.mp (Option.mem_toList.mp hm)
    exact readsBack_dns a
  · exact .bool _

theorem packet?_tree (h : p.timestamp.ReadsBack) : p.toJson.tree.packet? = some p := by
  obtain ⟨n, hread, htime⟩ := h
  have hstamp : p.timestamp.toJson.tree.timestamp? = some p.timestamp := by
    simp [Timestamp.toJson, Json.tree, hread, htime]
  have hlocal := JsonTree.below?_nat p.localPort.toNat_lt_size (by decide)
  have hremote := JsonTree.below?_nat p.remotePort.toNat_lt_size (by decide)
  have hfields : p.toJson.tree.fields? JsonTree.packetFields = some
      [some p.timestamp.toJson.tree, some p.direction.toJson.tree, some p.localAddr.toJson.tree,
        some (Json.nat p.localPort.toNat).tree, some p.remoteAddr.toJson.tree,
        some (Json.nat p.remotePort.toNat).tree, some p.transport.toJson.tree,
        some (Json.str (String.ofList (Base64.encode p.payload))).tree,
        p.tlsRecord.map fun r => (Json.str r.name).tree, p.dns.map fun a => a.toJson.tree,
        some (Json.bool p.decrypted).tree] := by
    rw [toJson, JsonTree.fields?_tree]
    · cases p.tlsRecord <;> cases p.dns <;> simp [JsonTree.packetFields, List.lookup_cons]
    · cases p.tlsRecord <;> cases p.dns <;> simp
  have htls : JsonTree.orDefault? none (JsonTree.nullable? (JsonTree.choice? JsonTree.tlsRecords))
      (p.tlsRecord.map fun r => (Json.str r.name).tree) = some p.tlsRecord :=
    JsonTree.orDefault?_nullable (fun r => by simp [Json.tree_str]) JsonTree.choice?_tlsRecord _
  have hdns : JsonTree.orDefault? none (JsonTree.nullable? JsonTree.dnsAnswer?)
      (p.dns.map fun a => a.toJson.tree) = some p.dns :=
    JsonTree.orDefault?_nullable (fun a => by simp [DnsAnswer.toJson, Json.tree_obj])
      JsonTree.dnsAnswer?_toJson _
  rw [JsonTree.packet?, hfields]
  simp [hstamp, JsonTree.address?_toJson, hlocal, hremote, JsonTree.transport?_toJson, htls, hdns]
  simp [JsonTree.orDefault?, JsonTree.choice?_direction, JsonTree.payload?_encode,
    JsonTree.bool?_tree]

/-- A packet is read back from the line that holds it. -/
theorem ofLine?_compact (h : p.timestamp.ReadsBack) : ofLine? p.toJson.compact = some p := by
  rw [ofLine?, (readsBack_toJson h).ofText?, Option.bind_some, packet?_tree h]

end Packet

end HttpCapture
