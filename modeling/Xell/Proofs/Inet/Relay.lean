/-
A datagram of UDP that is too long for the link.

`udp_send` puts its header in front of the data, and `ip_output_if` gives the packet to `ip_frag`.
What `ip_reass` puts together at the other side has the payload as it was and a header with the same
ends, so that `udp_input` finds its checksum right and hands on the data.
-/
import Xell.Proofs.Inet.Frag

namespace Xell.Udp

open Ones Word Ip IpFrag

variable {mem mem' : Mem UInt8} {h : Nat} {q : Pbuf} {qs : List Pbuf} {data : List UInt8} {e : Ends}

/-- The datagram of IP, for the headers at `h` and the data behind them. -/
def datagramOf (h : Nat) (mem : Mem UInt8) (data : List UInt8) (e : Ends)
    (hsmall : 8 + data.length ≤ ipReassBufsize) : Datagram where
  vhl := 0x45
  proto := ipProtoUdp
  src := e.srcIp
  dest := e.destIp
  ident := iphId h mem
  payload := mem.slice (h + 20) 8 ++ data
  small := by rwa [List.length_append, Mem.slice_length]

/-- The first byte of a header. -/
theorem Wire.vhl (hw : Wire mem h data e) : mem h = 0x45 := by
  have hlt := (mem (h + 1)).toNat_lt
  have hword : (vHlTos h mem).toNat = 256 * (mem h).toNat + (mem (h + 1)).toNat := load16_toNat mem h
  have hversion : (vHlTos h mem).toNat / 4096 = 4 := by
    rw [← toNat_shiftRight_12]
    exact congrArg UInt16.toNat hw.version
  have hhl : (vHlTos h mem).toNat / 256 % 16 = 5 := by
    have hmask := congrArg UInt16.toNat hw.hl
    unfold iphHl at hmask
    rw [UInt16.toNat_and, toNat_shiftRight_8] at hmask
    exact (Nat.and_two_pow_sub_one_eq_mod _ 4).symm.trans hmask
  apply UInt8.toNat.inj
  show (mem h).toNat = 69
  omega

theorem Wire.sendable (hw : Wire mem q.payload data e) (hfirst : 28 ≤ q.len.toNat)
    (htotal : q.totLen.toNat = 28 + data.length)
    (hchain : Pbuf.chain mem (q :: qs) = mem.slice q.payload 28 ++ data)
    (hsmall : 8 + data.length ≤ ipReassBufsize) :
    Sendable (datagramOf q.payload mem data e hsmall) mem q qs := by
  have hsplit : mem.slice q.payload 28 = mem.slice q.payload ipHlen ++ mem.slice (q.payload + 20) 8 :=
    Mem.slice_add mem q.payload 20 8
  refine ⟨hw.vhl, hw.proto, hw.src, hw.dest, rfl, hw.offset, ?_, ?_, ?_⟩
  · unfold ipHlen
    omega
  · rw [hchain, hsplit, List.append_assoc, List.drop_left' (Mem.slice_length _ _ _)]
    rfl
  · rw [hchain, htotal, List.length_append, Mem.slice_length]

/-- What is put together has the headers that were sent. -/
theorem Wire.joined {m : Mem UInt8} {s : List (Nat × Nat)} (hw : Wire mem h data e)
    (hsmall : 8 + data.length ≤ ipReassBufsize) (hj : Joined (datagramOf h mem data e hsmall) s m)
    (hpayload : m.slice 20 (8 + data.length) = mem.slice (h + 20) 8 ++ data) : Wire m 0 data e := by
  obtain ⟨hversion, hhl⟩ := version_hl (h := 0) hj.vhl
  rw [Mem.slice_add] at hpayload
  have hudp : m.slice 20 8 = mem.slice (h + 20) 8 :=
    (List.append_inj hpayload (by rw [Mem.slice_length, Mem.slice_length])).1
  have hbyte : ∀ k < 8, m (20 + k) = mem (h + 20 + k) := by
    intro k hk
    have hget := congrArg (fun bs => bs[k]?) hudp
    unfold Mem.slice at hget
    simpa [hk] using hget
  have hword : ∀ k < 7, load16 m (20 + k) = load16 mem (h + 20 + k) := by
    intro k hk
    refine load16_congr fun i hi => ?_
    rw [Nat.add_assoc, Nat.add_assoc]
    exact hbyte (k + i) (by omega)
  have hlen : (datagramOf h mem data e hsmall).payload.length = 8 + data.length := by
    show (mem.slice (h + 20) 8 ++ data).length = _
    rw [List.length_append, Mem.slice_length]
  refine ⟨hversion, hhl, ?_, ?_, hj.proto, hj.src, hj.dest, hj.valid, ?_, ?_, ?_⟩
  · rw [hj.len, hlen]
    unfold ipHlen
    omega
  · rw [hj.offset, UInt16.zero_and]
  · exact (hword 0 (by omega)).trans hw.srcPort
  · exact (hword 2 (by omega)).trans hw.destPort
  · have hchk : chksum (0 + 20) m = chksum (h + 20) mem := hword 6 (by omega)
    unfold Checked
    rw [hchk, Nat.zero_add, hudp]
    exact hw.checked

variable {q₀ : Pbuf} {qs₀ : List Pbuf} {inp : Netif}

/-- A packet that was put together is handed on with its data. -/
theorem joined_delivers {m mem₃ : Mem UInt8} {q₃ : Pbuf} {qs₃ : List Pbuf} {st : Pcbs} {j : Nat}
    (hw : Wire m 0 data e) (hdata : m.slice 28 data.length = data) (ha : Arrived q₃ qs₃ mem₃)
    (hchain : Pbuf.chain mem₃ (q₃ :: qs₃) = m.slice 0 (28 + data.length)) (hj : demux st e = some j)
    (hrecv : (st.pcb j).recv = true) (inp : Netif) :
    deliver inp q₃.payload mem₃ (q₃ :: qs₃) = .udp (q₃ :: qs₃) ∧
      ∃ p₃, udpInput st inp (q₃ :: qs₃) mem₃ = .recv j p₃ e.srcIp e.srcPort ∧
        Pbuf.chain mem₃ p₃ = data := by
  have hhdrs : mem₃.slice q₃.payload 28 = m.slice 0 28 := by
    rw [← Pbuf.take_chain mem₃ ha.first qs₃, hchain]
    exact Mem.take_slice m 0 (by omega)
  have hbytes : ∀ k < 28, mem₃ (q₃.payload + k) = m (0 + k) := by
    intro k hk
    have hget := congrArg (fun bs => bs[k]?) hhdrs
    unfold Mem.slice at hget
    simpa [hk] using hget
  have hw₃ : Wire mem₃ q₃.payload data e := hw.congr hbytes
  have hchain₃ : Pbuf.chain mem₃ (q₃ :: qs₃) = mem₃.slice q₃.payload 28 ++ data := by
    rw [hchain, hhdrs, Mem.slice_add, Nat.zero_add, hdata]
  refine ⟨?_, udpInput_wire inp hw₃ ha hchain₃ hj hrecv⟩
  unfold deliver
  rw [hw₃.proto]
  rfl

/-- **A datagram that is too long for the link is handed to the control block of the other side**,
once all of its fragments have come, in any order, with the data that was sent. -/
theorem udp_delivers_relayed {st st' st₂ : Pcbs} {i j k : Nat} {netif : Netif} {err : Err}
    {dst : UInt32} {alloc : Option Pbuf} {r : Pbuf} {rs : List Pbuf} {more : Nat → Bool}
    {buf mem₂ : Mem UInt8} {fs : List (List UInt8)} {fe : FragEnd} {f : List UInt8}
    {netifs : List Netif} {I : List Nat} {reass : Reass}
    -- the sender
    (hl : Layout alloc r rs mem) (hlite : (st'.pcb i).udplite = false)
    (hrun : udpSend (some netif) alloc i (r :: rs) st mem
      = (err, st', some (.frag (q₀ :: qs₀) mem' dst)))
    (he : e = ⟨if isany (st'.pcb i).localIp then netif.ipAddr else (st'.pcb i).localIp,
      (st'.pcb i).remoteIp, (st'.pcb i).localPort, (st'.pcb i).remotePort⟩)
    (hsmall : 8 + (Pbuf.chain mem (r :: rs)).length ≤ ipReassBufsize) (hmtu : 92 ≤ netif.mtu.toNat)
    (hmax : netif.mtu.toNat ≤ maxMtu) (hmore : ∀ k, more k = true)
    (hfrag : ipFrag mem' netif.mtu true more (q₀ :: qs₀) buf = (fs, fe))
    -- the receiver
    (hup : HasAddr netifs e.destIp)
    (hrel : Relayed netifs inp
      (datagramOf q₀.payload mem' (Pbuf.chain mem (r :: rs)) e hsmall) fs I reass)
    (hk : fs[k]? = some f) (hc : Carried f mem₂ q qs) (hj : demux st₂ e = some j)
    (hrecv : (st₂.pcb j).recv = true) :
    fe = .ok ∧ ∃ p b reass', ipInput netifs inp (q :: qs) mem₂ = .reass p ∧
      ipReass p mem₂ reass = some (b, reass') ∧ (b.isSome ↔ ∀ n < fs.length, n ∈ k :: I) ∧
      ∀ bytes, b = some bytes → ∀ q₃ qs₃ mem₃, Arrived q₃ qs₃ mem₃ →
        Pbuf.chain mem₃ (q₃ :: qs₃) = bytes →
        deliver inp q₃.payload mem₃ (q₃ :: qs₃) = .udp (q₃ :: qs₃) ∧
          ∃ p₃, udpInput st₂ inp (q₃ :: qs₃) mem₃ = .recv j p₃ e.srcIp e.srcPort ∧
            Pbuf.chain mem₃ p₃ = Pbuf.chain mem (r :: rs) := by
  obtain ⟨q', qs', hcons, hfirst, htotal, hcut, hchain, hw⟩ := udpSend_wire hl hlite hrun rfl
  obtain ⟨rfl, rfl⟩ := List.cons.inj hcons
  rw [← he] at hw
  set data := Pbuf.chain mem (r :: rs) with hdata
  have hs := hw.sendable hfirst htotal hchain hsmall
  have hlen : (datagramOf q₀.payload mem' data e hsmall).payload.length = 8 + data.length := by
    show (mem'.slice (q₀.payload + 20) 8 ++ data).length = _
    rw [List.length_append, Mem.slice_length]
  have hne : (datagramOf q₀.payload mem' data e hsmall).payload ≠ [] := by
    rw [← List.length_pos_iff, hlen]
    omega
  have hbig : netif.mtu.toNat < ipHlen + (datagramOf q₀.payload mem' data e hsmall).payload.length := by
    have := hcut rfl
    rw [hlen]
    unfold ipHlen
    omega
  obtain ⟨fs', hfrags, hpieces⟩ := ipFrag_cut hs (show 28 ≤ netif.mtu.toNat by omega) hmax hmore
    hne buf
  rw [hfrag, Prod.mk.injEq] at hfrags
  obtain ⟨rfl, rfl⟩ := hfrags
  obtain ⟨p, b, reass', hin, hre, hall, hbytes⟩ := hpieces.delivers rfl hmtu hbig hup hrel hk hc
  refine ⟨rfl, p, b, reass', hin, hre, hall, ?_⟩
  intro bytes hb q₃ qs₃ mem₃ ha hchain₃
  obtain ⟨-, s, m, hm, hjoin, hpayload⟩ := hbytes bytes hb
  rw [hlen] at hm hpayload
  have hwhole : m.slice 20 (8 + data.length) = mem'.slice (q₀.payload + 20) 8 ++ data := hpayload
  have hw' := hw.joined hsmall hjoin hwhole
  have hrest : m.slice 28 data.length = data := by
    rw [Mem.slice_add] at hwhole
    exact (List.append_inj hwhole (by rw [Mem.slice_length, Mem.slice_length])).2
  have hmem : Pbuf.chain mem₃ (q₃ :: qs₃) = m.slice 0 (28 + data.length) := by
    rw [hchain₃, hm]
    congr 1
    unfold ipHlen
    omega
  exact joined_delivers hw' hrest ha hmem hj hrecv inp

/-! 65 bytes, for a link that takes 92: the first fragment arrives. -/

def relayNetif : Netif := ⟨0x0a000001, 0xffffff00, 92, true, true⟩

def relayPeer : Netif := ⟨0x0a000002, 0xffffff00, 1500, true, true⟩

def relaySent : Err × Pcbs × Option Sent :=
  udpSend (some relayNetif) none 0 [⟨16, 64, 65, 65, .ram⟩] ⟨fun _ => helloPcb, [0]⟩
    fun x => UInt8.ofNat x

/-- The memory with the headers. -/
def relayMem : Mem UInt8 := ((relaySent.2.2.bind packet).getD ([], fun _ => 0)).2

def relayFrags : List (List UInt8) × FragEnd :=
  ipFrag relayMem 92 true (fun _ => true) [⟨16, 36, 93, 93, .ram⟩] fun _ => 0

theorem relaySent_eq : relaySent = (.ok, ⟨fun _ => helloPcb, [0]⟩,
    some (.frag [⟨16, 36, 93, 93, .ram⟩] relayMem 0x0a000002)) := rfl

theorem relayFrags_eq : ipFrag relayMem relayNetif.mtu true (fun _ => true)
    [⟨16, 36, 93, 93, .ram⟩] (fun _ => 0) = relayFrags := rfl

theorem udp_delivers_relayed_long : relayFrags.2 = .ok ∧ ∃ p b reass',
    ipInput [relayPeer] relayPeer [⟨16, 16, 92, 92, .pool⟩]
        (fun x => (relayFrags.1.getD 0 []).getD (x - 16) 0) = .reass p ∧
      ipReass p (fun x => (relayFrags.1.getD 0 []).getD (x - 16) 0)
        ⟨fun _ => 0, fun _ => 0, 0, false, 0⟩ = some (b, reass') ∧
      (b.isSome ↔ ∀ n < relayFrags.1.length, n ∈ [0]) := by
  have hlayout : Layout none ⟨16, 64, 65, 65, .ram⟩ [] (fun x => UInt8.ofNat x) :=
    ⟨by simp, by decide, by simp, by simp⟩
  have hsmall : 8 + (Pbuf.chain (fun x => UInt8.ofNat x) [⟨16, 64, 65, 65, .ram⟩]).length
      ≤ ipReassBufsize := by simp [ipReassBufsize]
  have hends : (⟨0x0a000001, 0x0a000002, 0x1234, 69⟩ : Ends) = ⟨if isany helloPcb.localIp
      then relayNetif.ipAddr else helloPcb.localIp, helloPcb.remoteIp, helloPcb.localPort,
      helloPcb.remotePort⟩ := rfl
  have hup : HasAddr [relayPeer] 0x0a000002 := ⟨_, List.mem_singleton_self _, rfl, rfl, rfl⟩
  have hrel : Relayed [relayPeer] relayPeer (datagramOf 36 relayMem
      (Pbuf.chain (fun x => UInt8.ofNat x) [⟨16, 64, 65, 65, .ram⟩])
      ⟨0x0a000001, 0x0a000002, 0x1234, 69⟩ hsmall) relayFrags.1 []
      ⟨fun _ => 0, fun _ => 0, 0, false, 0⟩ := Relayed.start rfl
  have hfirst : relayFrags.1[0]? = some (relayFrags.1.getD 0 []) := by decide +kernel
  have hcarried : Carried (relayFrags.1.getD 0 [])
      (fun x => (relayFrags.1.getD 0 []).getD (x - 16) 0) ⟨16, 16, 92, 92, .pool⟩ [] :=
    ⟨by decide, by simp, [], by decide +kernel⟩
  have hdemux : demux ⟨fun _ => ⟨0, 0, 69, 0, false, false, false, 0, 255, 0, true⟩, [4]⟩
      ⟨0x0a000001, 0x0a000002, 0x1234, 69⟩ = some 4 := rfl
  obtain ⟨hend, p, b, reass', hin, hre, hall, -⟩ := udp_delivers_relayed hlayout rfl relaySent_eq hends
    hsmall (by decide) (by decide) (fun _ => rfl) (relayFrags_eq.trans Prod.mk.eta.symm) hup hrel
    hfirst hcarried
    hdemux rfl
  exact ⟨hend, p, b, reass', hin, hre, hall⟩

end Xell.Udp
