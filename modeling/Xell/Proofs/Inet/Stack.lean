/-
A datagram on its way through UDP and IP.

`udp_send` and `ip_output_if` build their headers in front of the data, and a header with a
checksum sums to `0xffff`.  A receiver gets the bytes in `pbuf`s of its own, cut in its own way and
perhaps with padding behind them.  `ip_input` finds the header as it was built, cuts off the padding
and gives the packet to `udp_input`, which finds the checksum right and hands on the data.
-/
import Xell.Proofs.Inet.Packet
import Xell.Udp

namespace Xell

open Ones Word

variable {mem mem' : Mem UInt8} {h u n : Nat} {q : Pbuf} {qs : List Pbuf}

/-! ### More of headers that come and go -/

namespace Pbuf

theorem sub_sub_word (a b c : UInt16) : a - b - c = a - (b + c) := by
  apply UInt16.toNat.inj
  have hb := b.toNat_lt
  have hc := c.toNat_lt
  rw [UInt16.toNat_sub, UInt16.toNat_sub, UInt16.toNat_sub, UInt16.toNat_add]
  omega

theorem hide_hide (q : Pbuf) (a b : Nat) : (q.hide a).hide b = q.hide (a + b) := by
  unfold hide
  simp only [UInt16.ofNat_add, Nat.add_assoc, sub_sub_word]

theorem hide_reveal (q : Pbuf) (a b : Nat) : (q.hide (a + b)).reveal b = q.hide a := by
  rw [← hide_hide, reveal_hide]

/-- Room for a header was found in front of the data. -/
theorem header_some {q' : Pbuf} (hn : 0 < n) (hn' : n < 2 ^ 15)
    (h : q.header (Int16.ofNat n) = some q') :
    (q.flags = .ram ∨ q.flags = .pool) ∧ q.start + n ≤ q.payload ∧ q' = q.reveal n := by
  have hint := Int16.toInt_ofNat_of_lt hn'
  have hne : Int16.ofNat n ≠ 0 := by
    intro hz
    rw [hz, Int16.toInt_zero] at hint
    omega
  have hpos : ¬Int16.ofNat n < 0 := by
    rw [Int16.lt_iff_toInt_lt, hint, Int16.toInt_zero]
    omega
  have hflags : q.flags = .ram ∨ q.flags = .pool := by
    unfold header at h
    simp only [if_neg hne] at h
    cases hf : q.flags <;> simp [hf, hpos] at h ⊢
  have hroom : q.start + n ≤ q.payload := by
    by_contra hlt
    unfold header at h
    simp only [if_neg hne, hint] at h
    rcases hflags with hf | hf <;>
      simp [hf, show (q.payload : Int) - n < q.start by omega] at h
  refine ⟨hflags, hroom, ?_⟩
  rw [header_pos hn hn' hroom hflags] at h
  exact (Option.some.inj h).symm

end Pbuf

theorem slice_congr (hb : ∀ i < n, mem' (u + i) = mem (h + i)) : mem'.slice u n = mem.slice h n := by
  unfold Mem.slice
  exact List.map_congr_left fun i hi => hb i (List.mem_range.mp hi)

/-- A checksum is put in where there was none. -/
theorem sum_slice_store16 {a k : Nat} (hk : k < n) (hzero : load16 mem (a + 2 * k) = 0) (c : UInt16) :
    sum ((store16 (a + 2 * k) c mem).slice a (2 * n)) = sum (mem.slice a (2 * n)) + c.toNat := by
  have hmem := Finset.mem_range.mpr hk
  have hother : ∀ i ∈ (Finset.range n).erase k,
      (load16 (store16 (a + 2 * k) c mem) (a + 2 * i)).toNat = (load16 mem (a + 2 * i)).toNat := by
    intro i hi
    have hne := Finset.ne_of_mem_erase hi
    rw [load16_store16_of_disjoint _ (by omega)]
  rw [sum_slice, sum_slice, ← Finset.add_sum_erase _ _ hmem,
    ← Finset.add_sum_erase _ (fun i => (load16 mem (a + 2 * i)).toNat) hmem,
    Finset.sum_congr rfl hother, load16_store16, hzero, UInt16.toNat_zero]
  omega

/-! ### The IP header -/

namespace Ip

/-- What `ip_output_if` has put at `h`. -/
structure Built (h : Nat) (totLen : UInt16) (srcAddr destAddr : UInt32) (proto : UInt16)
    (mem mem' : Mem UInt8) : Prop where
  version : iphV h mem' = 4
  hl : iphHl h mem' = 5
  len : iphLen h mem' = totLen
  offset : iphOffset h mem' = ipDf
  proto : iphProto h mem' = proto
  src : src h mem' = srcAddr
  dest : dest h mem' = destAddr
  valid : Valid (mem'.slice h ipHlen)
  same : ∀ x, x < h ∨ h + ipHlen ≤ x → mem' x = mem x

theorem toNat_or_low {a b : UInt16} {k c : Nat} (ha : a.toNat = 2 ^ k * c) (hb : b.toNat < 2 ^ k) :
    (a ||| b).toNat = a.toNat + b.toNat := by
  rw [UInt16.toNat_or, ha, ← Nat.two_pow_add_eq_or_of_lt hb]

theorem toNat_shiftRight_8 (w : UInt16) : (w >>> 8).toNat = w.toNat / 256 := by
  rw [UInt16.toNat_shiftRight]
  exact Nat.shiftRight_eq_div_pow _ _

theorem toNat_shiftRight_12 (w : UInt16) : (w >>> 12).toNat = w.toNat / 4096 := by
  rw [UInt16.toNat_shiftRight]
  exact Nat.shiftRight_eq_div_pow _ _

theorem vhltos_toNat (tos : UInt8) :
    (((4 : UInt16) <<< 12) ||| ((5 : UInt16) <<< 8) ||| tos.toUInt16).toNat = 0x4500 + tos.toNat := by
  have hlt := tos.toNat_lt
  rw [toNat_or_low (k := 8) (c := 0x45) rfl (by rw [UInt8.toNat_toUInt16]; omega),
    UInt8.toNat_toUInt16]
  rfl

theorem proto_toNat {proto ttl : UInt16} (hproto : proto.toNat < 256) (httl : ttl.toNat < 256) :
    ((proto ||| (ttl <<< 8)) &&& 0xff) = proto := by
  apply UInt16.toNat.inj
  have hshift : (ttl <<< 8).toNat = 2 ^ 8 * ttl.toNat := by
    rw [UInt16.toNat_shiftLeft, Nat.shiftLeft_eq, show UInt16.toNat 8 % 16 = 8 by rfl]
    omega
  rw [UInt16.toNat_and, UInt16.or_comm, toNat_or_low hshift (by omega), hshift]
  refine (Nat.and_two_pow_sub_one_eq_mod _ 8).trans ?_
  omega

theorem buildHeader_built (h : Nat) (totLen : UInt16) (srcAddr destAddr : UInt32) (ttl tos : UInt8)
    {proto : UInt16} (netif : Netif) (mem : Mem UInt8) (hproto : proto.toNat < 256) :
    Built h totLen (if isany srcAddr then netif.ipAddr else srcAddr) destAddr proto mem
      (buildHeader h totLen srcAddr destAddr ttl tos proto netif mem) := by
  set s := if isany srcAddr then netif.ipAddr else srcAddr with hs
  set ttlp : UInt16 := proto ||| (((iphProto h mem ||| (ttl.toUInt16 <<< 8)) >>> 8) <<< 8) with httlp
  set v : UInt16 := ((4 : UInt16) <<< 12) ||| ((5 : UInt16) <<< 8) ||| tos.toUInt16 with hv
  -- the memory before the checksum is put in
  set m : Mem UInt8 := store16 (h + 10) 0 (store (h + 12) s (store16 (h + 4) 0 (store16 (h + 6) ipDf
    (store16 (h + 2) totLen (store16 h v (store (h + 16) destAddr (store16 (h + 8) ttlp
      (store16 (h + 8) (iphProto h mem ||| (ttl.toUInt16 <<< 8)) mem)))))))) with hm
  have hbuild : buildHeader h totLen srcAddr destAddr ttl tos proto netif mem
      = store16 (h + 10) (Inet.inetChksum (m.slice h ipHlen)) m := by
    unfold buildHeader iphTtlSet iphProtoSet destSet iphVhltosSet iphLenSet iphOffsetSet iphIdSet
      srcSet iphChksumSet
    simp only [iphTtl, ttlProto, load16_store16, ← hs, ← httlp, ← hv, ← hm]
  have hfields : load16 m h = v ∧ load16 m (h + 2) = totLen ∧ load16 m (h + 6) = ipDf ∧
      load16 m (h + 8) = ttlp ∧ load16 m (h + 10) = 0 ∧ load m (h + 12) = s ∧
      load m (h + 16) = destAddr := by
    rw [hm]
    refine ⟨?_, ?_, ?_, ?_, ?_, ?_, ?_⟩ <;>
      simp (disch := omega) only [load16_store16, load_store, load16_store16_of_disjoint,
        load16_store_of_disjoint, load_store16_of_disjoint, load_store_of_disjoint]
  obtain ⟨hf₀, hf₂, hf₆, hf₈, hf₁₀, hf₁₂, hf₁₆⟩ := hfields
  set c := Inet.inetChksum (m.slice h ipHlen) with hc
  have hc_toNat : c.toNat = 65535 - norm (sum (m.slice h ipHlen)) :=
    Inet.inetChksum_toNat (by rw [Mem.slice_length]; decide)
  have htos := tos.toNat_lt
  have hv_toNat : v.toNat = 0x4500 + tos.toNat := vhltos_toNat tos
  have hproto' : ttlp &&& 0xff = proto := by
    refine proto_toNat hproto ?_
    have hlt := (iphProto h mem ||| (ttl.toUInt16 <<< 8)).toNat_lt
    rw [toNat_shiftRight_8]
    omega
  rw [hbuild]
  constructor
  · unfold iphV vHlTos
    rw [load16_store16_of_disjoint _ (by omega), hf₀]
    apply UInt16.toNat.inj
    rw [toNat_shiftRight_12, hv_toNat, show (4 : UInt16).toNat = 4 by rfl]
    omega
  · unfold iphHl vHlTos
    rw [load16_store16_of_disjoint _ (by omega), hf₀]
    apply UInt16.toNat.inj
    rw [UInt16.toNat_and, toNat_shiftRight_8, hv_toNat, show (5 : UInt16).toNat = 5 by rfl]
    refine (Nat.and_two_pow_sub_one_eq_mod _ 4).trans ?_
    omega
  · unfold iphLen
    rw [load16_store16_of_disjoint _ (by omega), hf₂]
  · unfold iphOffset
    rw [load16_store16_of_disjoint _ (by omega), hf₆]
  · unfold iphProto ttlProto
    rw [load16_store16_of_disjoint _ (by omega), hf₈, hproto']
  · unfold src
    rw [load_store16_of_disjoint _ (by omega), hf₁₂]
  · unfold dest
    rw [load_store16_of_disjoint _ (by omega), hf₁₆]
  · unfold Valid
    have hsum := sum_slice_store16 (n := 10) (k := 5) (by omega) hf₁₀ c
    rw [show ipHlen = 2 * 10 by rfl, hsum, hc_toNat]
    exact norm_add_complement _
  · intro x hx
    unfold ipHlen at hx
    rw [hm, store16_outside _ (by omega), store16_outside _ (by omega), store_outside _ (by omega),
      store16_outside _ (by omega), store16_outside _ (by omega), store16_outside _ (by omega),
      store16_outside _ (by omega), store_outside _ (by omega), store16_outside _ (by omega),
      store16_outside _ (by omega)]

end Ip

/-! ### The UDP header -/

namespace Udp

open Ip

variable {data : List UInt8} {pcb : UdpPcb} {srcIp : UInt32}

/-- A chain with room for a UDP header at its beginning, and for an IP header in front of it: no
other `pbuf` of the chain lies over them. -/
structure Framed (q : Pbuf) (qs : List Pbuf) (data : List UInt8) (mem : Mem UInt8) : Prop where
  first : 8 ≤ q.len.toNat
  data : (Pbuf.chain mem (q :: qs)).drop 8 = data
  total : q.totLen.toNat = (Pbuf.chain mem (q :: qs)).length
  apart : ∀ r ∈ qs, r.payload + r.len.toNat + 20 ≤ q.payload ∨ q.payload + 8 ≤ r.payload
  small : q.totLen.toNat + 20 < 2 ^ 16

/-- Headers do not touch the data. -/
theorem Framed.chain_eq (hf : Framed q qs data mem)
    (hsame : ∀ x, x + 20 < q.payload ∨ q.payload + 8 ≤ x → mem' x = mem x) :
    Pbuf.chain mem' (q :: qs) = mem'.slice q.payload 8 ++ data := by
  have hfirst := hf.first
  have hhide : Pbuf.chain mem' (q.hide 8 :: qs) = Pbuf.chain mem (q.hide 8 :: qs) := by
    refine Pbuf.chain_congr fun r hr i hi => hsame _ ?_
    rcases List.mem_cons.mp hr with rfl | hr
    · right
      show q.payload + 8 ≤ q.payload + 8 + i
      omega
    · have := hf.apart r hr
      omega
  have htake := Pbuf.take_chain mem' hfirst qs
  have hdrop : (Pbuf.chain mem' (q :: qs)).drop 8 = data := by
    rw [← Pbuf.chain_hide hfirst, hhide, Pbuf.chain_hide hfirst, hf.data]
  rw [← htake, ← hdrop, List.take_append_drop]

theorem Framed.total_eq (hf : Framed q qs data mem) : q.totLen.toNat = 8 + data.length := by
  rw [hf.total, hf.chain_eq fun _ _ => rfl, List.length_append, Mem.slice_length]

/-- The sum of the bytes at `u`, with the pseudo header, is that of a right checksum, or there is
none. -/
def Checked (mem : Mem UInt8) (u : Nat) (data : List UInt8) (srcAddr destAddr : UInt32)
    (len : UInt16) : Prop :=
  chksum u mem = 0 ∨ norm (sum (mem.slice u 8 ++ data)
    + Inet.pseudoSum srcAddr destAddr ipProtoUdp.toUInt8 len) = 65535

/-- What `udp_send` has put at `u`. -/
structure Built (pcb : UdpPcb) (srcIp : UInt32) (u : Nat) (data : List UInt8) (totLen : UInt16)
    (mem mem' : Mem UInt8) : Prop where
  srcPort : srcPort u mem' = pcb.localPort
  destPort : destPort u mem' = pcb.remotePort
  checked : Checked mem' u data srcIp pcb.remoteIp totLen
  same : ∀ x, x < u ∨ u + 8 ≤ x → mem' x = mem x

theorem buildHeader_built (hf : Framed q qs data mem) (hlite : pcb.udplite = false) :
    Built pcb srcIp q.payload data q.totLen mem
      (buildHeader pcb srcIp q.payload (q :: qs) q.totLen mem) := by
  set u := q.payload with hu
  -- the memory before the checksum is put in
  set m : Mem UInt8 := store16 (u + 4) q.totLen (store16 (u + 6) 0 (store16 (u + 2) pcb.remotePort
    (store16 u pcb.localPort mem))) with hm
  have hfields : load16 m u = pcb.localPort ∧ load16 m (u + 2) = pcb.remotePort ∧
      load16 m (u + 6) = 0 := by
    rw [hm]
    refine ⟨?_, ?_, ?_⟩ <;>
      simp (disch := omega) only [load16_store16, load16_store16_of_disjoint]
  obtain ⟨hf₀, hf₂, hf₆⟩ := hfields
  have hout : ∀ x, x < u ∨ u + 8 ≤ x → m x = mem x := by
    intro x hx
    rw [hm, store16_outside _ (by omega), store16_outside _ (by omega), store16_outside _ (by omega),
      store16_outside _ (by omega)]
  have hchain : Pbuf.chain m (q :: qs) = m.slice u 8 ++ data :=
    hf.chain_eq fun x hx => hout x (by omega)
  unfold buildHeader
  simp only [hlite, Bool.false_or, if_neg (show ¬false = true by decide), ← hm]
  cases hno : pcb.nochksum with
  | true =>
      simp only [Bool.not_true, if_neg (show ¬false = true by decide)]
      exact ⟨hf₀, hf₂, Or.inl hf₆, hout⟩
  | false =>
      simp only [Bool.not_false, if_true]
      set c := Inet.inetChksumPseudo m (q :: qs) srcIp pcb.remoteIp ipProtoUdp.toUInt8 q.totLen with hc
      have hc_toNat := Inet.inetChksumPseudo_toNat m (q :: qs) srcIp pcb.remoteIp
        ipProtoUdp.toUInt8 q.totLen
      rw [← hc, hchain] at hc_toNat
      refine ⟨?_, ?_, Or.inr ?_, fun x hx => ?_⟩
      · unfold Udp.srcPort
        rw [load16_store16_of_disjoint _ (by omega), hf₀]
      · unfold Udp.destPort
        rw [load16_store16_of_disjoint _ (by omega), hf₂]
      · set s := sum (m.slice u 8 ++ data)
          + Inet.pseudoSum srcIp pcb.remoteIp ipProtoUdp.toUInt8 q.totLen with hs
        have hsum : ∀ w : UInt16, sum ((store16 (u + 6) w m).slice u 8 ++ data)
            + Inet.pseudoSum srcIp pcb.remoteIp ipProtoUdp.toUInt8 q.totLen = s + w.toNat := by
          intro w
          have hput := sum_slice_store16 (n := 4) (k := 3) (by omega) hf₆ w
          rw [hs, sum_append_even (by simp), sum_append_even (by simp)]
          simp only [Nat.reduceMul] at hput
          omega
        rw [hsum]
        by_cases hz : c = 0
        · -- a sum that is complete already, to which `0xffff` is added
          have hfull : norm s = 65535 := by
            have hle := norm_le s
            rw [hz, UInt16.toNat_zero] at hc_toNat
            omega
          have hne := (norm_eq_full.mp hfull)
          rw [if_pos hz, show (0xffff : UInt16).toNat = 65535 by rfl, norm_eq_full]
          omega
        · rw [if_neg hz, hc_toNat]
          exact norm_add_complement s
      · rw [store16_outside _ (by omega), hout x hx]

/-! ### On the wire -/

/-- The headers at `h` are those of a datagram with these ends and this data. -/
structure Wire (mem : Mem UInt8) (h : Nat) (data : List UInt8) (e : Ends) : Prop where
  version : iphV h mem = 4
  hl : iphHl h mem = 5
  len : (iphLen h mem).toNat = 28 + data.length
  offset : iphOffset h mem &&& (ipOffmask ||| ipMf) = 0
  proto : iphProto h mem = ipProtoUdp
  src : Ip.src h mem = e.srcIp
  dest : Ip.dest h mem = e.destIp
  valid : Valid (mem.slice h ipHlen)
  srcPort : Udp.srcPort (h + 20) mem = e.srcPort
  destPort : Udp.destPort (h + 20) mem = e.destPort
  checked : Checked mem (h + 20) data e.srcIp e.destIp (UInt16.ofNat (8 + data.length))

/-- Nothing but the bytes of the headers matters. -/
theorem Wire.congr {h' : Nat} {e : Ends} (hw : Wire mem h data e)
    (hb : ∀ i < 28, mem' (h' + i) = mem (h + i)) : Wire mem' h' data e := by
  have h16 : ∀ k, k + 2 ≤ 28 → load16 mem' (h' + k) = load16 mem (h + k) := by
    intro k hk
    refine load16_congr fun i hi => ?_
    rw [Nat.add_assoc, Nat.add_assoc]
    exact hb _ (by omega)
  have h32 : ∀ k, k + 4 ≤ 28 → load mem' (h' + k) = load mem (h + k) := by
    intro k hk
    refine load_congr fun i hi => ?_
    rw [Nat.add_assoc, Nat.add_assoc]
    exact hb _ (by omega)
  have hv : vHlTos h' mem' = vHlTos h mem := h16 0 (by omega)
  have ht : ttlProto h' mem' = ttlProto h mem := h16 8 (by omega)
  have hudp : mem'.slice (h' + 20) 8 = mem.slice (h + 20) 8 :=
    slice_congr fun i hi => by
      rw [Nat.add_assoc, Nat.add_assoc]
      exact hb _ (by omega)
  refine ⟨?_, ?_, ?_, ?_, ?_, ?_, ?_, ?_, ?_, ?_, ?_⟩
  · rw [← hw.version, iphV, hv]
    rfl
  · rw [← hw.hl, iphHl, hv]
    rfl
  · rw [← hw.len, iphLen, h16 2 (by omega)]
    rfl
  · rw [← hw.offset, iphOffset, h16 6 (by omega)]
    rfl
  · rw [← hw.proto, iphProto, ht]
    rfl
  · rw [← hw.src, Ip.src, h32 12 (by omega)]
    rfl
  · rw [← hw.dest, Ip.dest, h32 16 (by omega)]
    rfl
  · have hslice : mem'.slice h' ipHlen = mem.slice h ipHlen :=
      slice_congr fun i hi => hb i (by unfold ipHlen at hi; omega)
    rw [hslice]
    exact hw.valid
  · rw [← hw.srcPort]
    exact h16 20 (by omega)
  · rw [← hw.destPort]
    exact h16 22 (by omega)
  · have hchk : chksum (h' + 20) mem' = chksum (h + 20) mem := h16 26 (by omega)
    unfold Checked
    rw [hchk, hudp]
    exact hw.checked

/-! ### Sending -/

/-- How the data lies in the memory, and the `pbuf` that a header may be put in: nothing lies over
the room for the headers. -/
structure Layout (alloc : Option Pbuf) (r : Pbuf) (rs : List Pbuf) (mem : Mem UInt8) : Prop where
  total : r.totLen.toNat = (Pbuf.chain mem (r :: rs)).length
  small : r.totLen.toNat + 28 < 2 ^ 16
  apart : ∀ x ∈ rs, x.payload + x.len.toNat + 28 ≤ r.payload ∨ r.payload ≤ x.payload
  fresh : ∀ q ∈ alloc, q.len = 8 ∧ q.totLen = 8 ∧
    ∀ x ∈ r :: rs, x.payload + x.len.toNat + 20 ≤ q.payload ∨ q.payload + 8 ≤ x.payload

variable {alloc : Option Pbuf} {r : Pbuf} {rs : List Pbuf}

theorem Layout.len_le (hl : Layout alloc r rs mem) : r.len.toNat ≤ r.totLen.toNat := by
  rw [hl.total, Pbuf.chain_cons, List.length_append, Pbuf.bytes_length]
  omega

theorem Layout.framed_reveal (hl : Layout alloc r rs mem) (hroom : 8 ≤ r.payload) :
    Framed (r.reveal 8) rs (Pbuf.chain mem (r :: rs)) mem := by
  have hsmall := hl.small
  have hle := hl.len_le
  have hlen := Pbuf.reveal_len (q := r) (n := 8) (by omega)
  have hchain := Pbuf.chain_reveal mem (q := r) (n := 8) (by omega) hroom rs
  have htot : (r.reveal 8).totLen.toNat = r.totLen.toNat + 8 := by
    unfold Pbuf.reveal
    rw [UInt16.toNat_add, show (UInt16.ofNat 8).toNat = 8 by rfl]
    omega
  refine ⟨by omega, ?_, ?_, fun x hx => ?_, by omega⟩
  · rw [hchain, List.drop_left' (Mem.slice_length _ _ _)]
  · rw [hchain, htot, hl.total, List.length_append, Mem.slice_length]
    omega
  · have := hl.apart x hx
    show x.payload + x.len.toNat + 20 ≤ r.payload - 8 ∨ r.payload - 8 + 8 ≤ x.payload
    omega

theorem Layout.framed_alloc {q : Pbuf} (hl : Layout alloc r rs mem) (hq : q ∈ alloc) :
    Framed { q with totLen := q.totLen + r.totLen } (r :: rs) (Pbuf.chain mem (r :: rs)) mem := by
  obtain ⟨hlen, htot, hapart⟩ := hl.fresh q hq
  have hsmall := hl.small
  have hlen' : q.len.toNat = 8 := by rw [hlen]; rfl
  have htot' : (q.totLen + r.totLen).toNat = 8 + r.totLen.toNat := by
    rw [UInt16.toNat_add, htot, show (8 : UInt16).toNat = 8 by rfl]
    omega
  have hbytes : (q.bytes mem).length = 8 := by rw [Pbuf.bytes_length, hlen']
  refine ⟨hlen'.ge, ?_, ?_, hapart, ?_⟩
  · rw [Pbuf.chain_cons]
    exact List.drop_left' hbytes
  · rw [Pbuf.chain_cons, List.length_append, ← hl.total]
    show (q.totLen + r.totLen).toNat = (q.bytes mem).length + r.totLen.toNat
    omega
  · show (q.totLen + r.totLen).toNat + 20 < 2 ^ 16
    omega

/-- The packet, whether it is sent or cut. -/
def packet : Sent → Option (List Pbuf × Mem UInt8)
  | .errBuf => none
  | .frag p mem _ => some (p, mem)
  | .output p mem _ => some (p, mem)

/-- It is cut. -/
def isCut : Sent → Bool
  | .frag _ _ _ => true
  | _ => false

theorem packet_output (netif : Netif) (p : List Pbuf) (totLen : UInt16) (mem : Mem UInt8)
    (dest : UInt32) : packet (output netif p totLen mem dest) = some (p, mem) := by
  unfold output
  split <;> rfl

/-- What is cut is too long. -/
theorem isCut_output {netif : Netif} {p : List Pbuf} {totLen : UInt16} {dest : UInt32}
    (h : isCut (output netif p totLen mem dest) = true) : netif.mtu.toNat < totLen.toNat := by
  unfold output at h
  split at h
  · next hlong =>
      simp only [Bool.and_eq_true, decide_eq_true_eq] at hlong
      exact UInt16.lt_iff_toNat_lt.mp hlong.2
  · exact absurd h nofun

/-- What `ip_output_if` makes of a datagram. -/
theorem output_wire {netif : Netif} {sent : Sent} {p' : List Pbuf}
    (hf : Framed q qs data mem) (hlite : pcb.udplite = false)
    (hsrc : (if isany srcIp then netif.ipAddr else srcIp) = srcIp)
    (hrun : ipOutputIf (q :: qs) srcIp (some pcb.remoteIp) pcb.ttl pcb.tos ipProtoUdp netif
      (buildHeader pcb srcIp q.payload (q :: qs) q.totLen mem) = sent)
    (hsent : packet sent = some (p', mem')) :
    ∃ q' qs', p' = q' :: qs' ∧ 28 ≤ q'.len.toNat ∧ q'.totLen.toNat = 28 + data.length ∧
      (isCut sent = true → netif.mtu.toNat < q'.totLen.toNat) ∧
      Pbuf.chain mem' p' = mem'.slice q'.payload 28 ++ data ∧
      Wire mem' q'.payload data ⟨srcIp, pcb.remoteIp, pcb.localPort, pcb.remotePort⟩ := by
  subst hrun
  set m := buildHeader pcb srcIp q.payload (q :: qs) q.totLen mem with hm
  have hudp : Built pcb srcIp q.payload data q.totLen mem m := buildHeader_built hf hlite
  have htotal := hf.total_eq
  have hsmall := hf.small
  have hfirst := hf.first
  have hle : q.len.toNat ≤ q.totLen.toNat := by
    rw [hf.total, Pbuf.chain_cons, List.length_append, Pbuf.bytes_length]
    omega
  unfold ipOutputIf at hsent ⊢
  dsimp only at hsent ⊢
  cases hhdr : q.header (Int16.ofNat ipHlen) with
  | none =>
      rw [hhdr] at hsent
      exact absurd hsent nofun
  | some q' =>
      obtain ⟨-, hroom, rfl⟩ := Pbuf.header_some (n := ipHlen) (by decide) (by decide) hhdr
      unfold ipHlen at hroom
      have hpay : (q.reveal ipHlen).payload + 20 = q.payload := by
        show q.payload - 20 + 20 = q.payload
        omega
      have htot : (q.reveal ipHlen).totLen.toNat = 28 + data.length := by
        unfold Pbuf.reveal ipHlen
        rw [UInt16.toNat_add, show (UInt16.ofNat 20).toNat = 20 by rfl]
        omega
      have hlen := Pbuf.reveal_len (q := q) (n := ipHlen) (by unfold ipHlen; omega)
      have hip := Ip.buildHeader_built (q.reveal ipHlen).payload (q.reveal ipHlen).totLen srcIp
        pcb.remoteIp pcb.ttl pcb.tos netif m (show ipProtoUdp.toNat < 256 by decide)
      rw [hhdr] at hsent
      simp only [packet_output, Option.some_inj, Prod.mk.injEq] at hsent
      obtain ⟨rfl, hmem⟩ := hsent
      rw [hmem] at hip
      have hsame : ∀ x, q.payload ≤ x → mem' x = m x :=
        fun x hx => hip.same x (Or.inr (show (q.reveal ipHlen).payload + 20 ≤ x by omega))
      have hrest : Pbuf.chain mem' (q :: qs) = mem'.slice q.payload 8 ++ data := by
        refine hf.chain_eq fun x hx => ?_
        have hip' : x < (q.reveal ipHlen).payload ∨ (q.reveal ipHlen).payload + 20 ≤ x →
            mem' x = m x := hip.same x
        rw [hip' (by omega), hudp.same x (by omega)]
      have h16 : ∀ k, k + 2 ≤ 8 → load16 mem' (q.payload + k) = load16 m (q.payload + k) :=
        fun k hk => load16_congr fun i hi => hsame _ (by omega)
      refine ⟨_, _, rfl, by rw [hlen]; unfold ipHlen; omega, htot, fun h => isCut_output h, ?_, ?_⟩
      · rw [Pbuf.chain_reveal mem' (by unfold ipHlen; omega) (by unfold ipHlen; omega), hrest,
          ← List.append_assoc, show (28 : Nat) = 20 + 8 by rfl, Mem.slice_add, hpay]
        rfl
      · refine ⟨hip.version, hip.hl, ?_, ?_, hip.proto, ?_, hip.dest, hip.valid, ?_, ?_, ?_⟩
        · rw [hip.len, htot]
        · rw [hip.offset]
          rfl
        · rw [hip.src, hsrc]
        · rw [hpay]
          exact (h16 0 (by omega)).trans hudp.srcPort
        · rw [hpay]
          exact (h16 2 (by omega)).trans hudp.destPort
        · have hword : UInt16.ofNat (8 + data.length) = q.totLen := by
            rw [← htotal, UInt16.ofNat_toNat]
          have hslice : mem'.slice q.payload 8 = m.slice q.payload 8 :=
            slice_congr fun i _ => hsame _ (by omega)
          have hchk : chksum q.payload mem' = chksum q.payload m := h16 6 (by omega)
          rw [hpay, hword]
          unfold Checked
          rw [hchk, hslice]
          exact hudp.checked

/-- **What `udp_send` puts on the wire** are the data behind two headers with right checksums. -/
theorem udpSend_wire {st st' : Pcbs} {i : Nat} {netif : Netif} {err : Err} {sent : Sent}
    {p' : List Pbuf} (hl : Layout alloc r rs mem) (hlite : (st'.pcb i).udplite = false)
    (hrun : udpSend (some netif) alloc i (r :: rs) st mem = (err, st', some sent))
    (hsent : packet sent = some (p', mem')) :
    ∃ q' qs', p' = q' :: qs' ∧ 28 ≤ q'.len.toNat ∧
      q'.totLen.toNat = 28 + (Pbuf.chain mem (r :: rs)).length ∧
      (isCut sent = true → netif.mtu.toNat < q'.totLen.toNat) ∧
      Pbuf.chain mem' p' = mem'.slice q'.payload 28 ++ Pbuf.chain mem (r :: rs) ∧
      Wire mem' q'.payload (Pbuf.chain mem (r :: rs))
        ⟨if isany (st'.pcb i).localIp then netif.ipAddr else (st'.pcb i).localIp,
          (st'.pcb i).remoteIp, (st'.pcb i).localPort, (st'.pcb i).remotePort⟩ := by
  have hsrc : ∀ pcb : UdpPcb,
      (if isany (if isany pcb.localIp then netif.ipAddr else pcb.localIp) then netif.ipAddr
        else if isany pcb.localIp then netif.ipAddr else pcb.localIp)
      = if isany pcb.localIp then netif.ipAddr else pcb.localIp := by
    intro pcb
    cases h : isany pcb.localIp <;> simp [h]
  unfold udpSend at hrun
  split at hrun
  · next st₁ hbound =>
      dsimp only at hrun
      cases hhdr : r.header (Int16.ofNat udpHlen) with
      | some r' =>
          obtain ⟨-, hroom, rfl⟩ := Pbuf.header_some (n := udpHlen) (by decide) (by decide) hhdr
          simp only [hhdr, Prod.mk.injEq, Option.some.injEq] at hrun
          obtain ⟨-, rfl, hout⟩ := hrun
          rw [if_neg (show ¬(st₁.pcb i).udplite = true by rw [hlite]; decide)] at hout
          exact output_wire (hl.framed_reveal (by unfold udpHlen at hroom; omega)) hlite (hsrc _) hout
            hsent
      | none =>
          cases alloc with
          | none => simp [hhdr] at hrun
          | some q =>
              simp only [hhdr, Option.map_some, Prod.mk.injEq, Option.some.injEq] at hrun
              obtain ⟨-, rfl, hout⟩ := hrun
              rw [if_neg (show ¬(st₁.pcb i).udplite = true by rw [hlite]; decide)] at hout
              exact output_wire (hl.framed_alloc rfl) hlite (hsrc _) hout hsent
  · simp at hrun

/-! ### Receiving -/

/-- A packet as an interface hands it on: in buffers of its own, with the headers in the first. -/
structure Arrived (q : Pbuf) (qs : List Pbuf) (mem : Mem UInt8) : Prop where
  first : 28 ≤ q.len.toNat
  total : q.totLen.toNat = (Pbuf.chain mem (q :: qs)).length
  start : q.start ≤ q.payload
  flags : q.flags = .pool

variable {e : Ends} {inp : Netif} {netifs : List Netif}

/-- `ip_input` cuts off what is behind the datagram. -/
theorem ipInput_wire (inp : Netif) {pad : List UInt8} (hw : Wire mem q.payload data e)
    (ha : Arrived q qs mem)
    (hchain : Pbuf.chain mem (q :: qs) = mem.slice q.payload 28 ++ data ++ pad)
    (hup : ∃ netif ∈ netifs, netif.up = true ∧ isany netif.ipAddr = false ∧ netif.ipAddr = e.destIp) :
    ∃ q' qs', ipInput netifs inp (q :: qs) mem = .udp (q' :: qs') ∧ q'.payload = q.payload ∧
      Arrived q' qs' mem ∧ Pbuf.chain mem (q' :: qs') = mem.slice q.payload 28 ++ data := by
  have hlen := hw.len
  have hfirst := ha.first
  obtain ⟨q', qs', hcut, hpay, hstart, hflags, htot, hmin⟩ :=
    pbufRealloc_cons (iphLen q.payload mem) ha.total
  have htake := chain_pbufRealloc (iphLen q.payload mem) ha.total
  rw [hcut, hchain, hlen, List.take_left' (by rw [List.length_append, Mem.slice_length])] at htake
  refine ⟨q', qs', ?_, hpay, ⟨by omega, htot, by rw [hstart, hpay]; exact ha.start,
    by rw [hflags]; exact ha.flags⟩, htake⟩
  have hhl : (iphHl q.payload mem * 4).toNat = 20 := by
    rw [hw.hl]
    rfl
  have hhdr : ¬iphHl q.payload mem * 4 > q.len := by
    rw [gt_iff_lt, UInt16.lt_iff_toNat_lt, hhl]
    omega
  have hchk : ¬Inet.inetChksum (mem.slice q.payload (iphHl q.payload mem * 4).toNat) ≠ 0 := by
    rw [hhl, not_not, Inet.inetChksum_eq_zero (by rw [Mem.slice_length]; decide)]
    exact hw.valid
  have hus : forUs netifs q.payload (iphHl q.payload mem * 4).toNat mem = true := by
    obtain ⟨netif, hmem, h₁, h₂, h₃⟩ := hup
    unfold forUs
    rw [Bool.or_eq_true, List.any_eq_true]
    refine Or.inl ⟨netif, hmem, ?_⟩
    rw [h₃] at h₂
    simp [h₁, h₂, h₃, hw.dest]
  have hfrag : ¬(iphOffset q.payload mem &&& (ipOffmask ||| ipMf)) ≠ 0 := by
    rw [hw.offset, not_not]
  unfold ipInput
  simp only [hw.version, ne_eq, not_true, if_false, if_neg hhdr, if_neg hchk, hus, Bool.not_true,
    Bool.false_eq_true, if_neg hfrag, hcut]
  unfold deliver
  rw [hw.proto]
  rfl

/-- The checksum of a datagram that arrives. -/
theorem chkerr_wire {h : Nat} (hw : Wire mem h data e)
    (hchain : Pbuf.chain mem (q :: qs) = mem.slice (h + 20) 8 ++ data)
    (htotal : q.totLen.toNat = 8 + data.length) : chkerr h (h + 20) (q :: qs) q.totLen mem = false := by
  have hproto : ¬iphProto h mem = ipProtoUdplite := by
    rw [hw.proto]
    decide
  have hword : UInt16.ofNat (8 + data.length) = q.totLen := by
    rw [← htotal, UInt16.ofNat_toNat]
  unfold chkerr
  rw [if_neg hproto]
  rcases hw.checked with hzero | hsum
  · simp [hzero]
  · have hchk := Inet.inetChksumPseudo_toNat mem (q :: qs) e.srcIp e.destIp ipProtoUdp.toUInt8 q.totLen
    rw [hword] at hsum
    rw [hchain, hsum] at hchk
    have hz : Inet.inetChksumPseudo mem (q :: qs) e.srcIp e.destIp ipProtoUdp.toUInt8 q.totLen = 0 :=
      UInt16.toNat.inj hchk
    rw [hw.src, hw.dest, hz]
    simp

/-- `udp_input` hands on the data. -/
theorem udpInput_wire (inp : Netif) {st : Pcbs} {j : Nat} (hw : Wire mem q.payload data e)
    (ha : Arrived q qs mem)
    (hchain : Pbuf.chain mem (q :: qs) = mem.slice q.payload 28 ++ data) (hj : demux st e = some j)
    (hrecv : (st.pcb j).recv = true) :
    ∃ p, udpInput st inp (q :: qs) mem = .recv j p e.srcIp e.srcPort ∧ Pbuf.chain mem p = data := by
  have hfirst := ha.first
  have hhl : (iphHl q.payload mem * 4).toNat = 20 := by
    rw [hw.hl]
    rfl
  have hhide := Pbuf.header_neg (q := q) (n := 28) (by omega) (by omega) ha.start
  have hreveal : (q.hide 28).header (Int16.ofNat udpHlen) = some (q.hide 20) := by
    have hstart := ha.start
    rw [Pbuf.header_pos (q := q.hide 28) (n := udpHlen) (by decide) (by decide)
      (show q.start + 8 ≤ q.payload + 28 by omega) (Or.inr ha.flags)]
    exact congrArg some (Pbuf.hide_reveal q 20 8)
  have hagain : (q.hide 20).header (-Int16.ofNat udpHlen) = some (q.hide 28) := by
    have hstart := ha.start
    rw [Pbuf.header_neg (q := q.hide 20) (n := udpHlen) (by decide) (by decide)
      (show q.start ≤ q.payload + 20 by omega)]
    exact congrArg some (Pbuf.hide_hide q 20 8)
  have hdatagram : Pbuf.chain mem (q.hide 20 :: qs) = mem.slice (q.payload + 20) 8 ++ data := by
    rw [Pbuf.chain_hide (by omega), hchain, show (28 : Nat) = 20 + 8 by rfl, Mem.slice_add,
      List.append_assoc, List.drop_left' (Mem.slice_length _ _ _)]
  have htotal : (q.hide 20).totLen.toNat = 8 + data.length := by
    have htot := ha.total
    rw [hchain, List.length_append, Mem.slice_length] at htot
    unfold Pbuf.hide
    rw [UInt16.toNat_sub, show (UInt16.ofNat 20).toNat = 20 by rfl]
    have := q.totLen.toNat_lt
    omega
  have hends : (⟨src q.payload mem, dest q.payload mem, srcPort (q.payload + 20) mem,
      destPort (q.payload + 20) mem⟩ : Ends) = e := by
    rw [hw.src, hw.dest, hw.srcPort, hw.destPort]
  have hu : (q.hide 28).payload - udpHlen = q.payload + 20 := by
    show q.payload + 28 - 8 = q.payload + 20
    omega
  have hchk := chkerr_wire hw hdatagram htotal
  refine ⟨q.hide 28 :: qs, ?_, ?_⟩
  · unfold udpInput
    simp only [hhl, show udpHlen + 20 = 28 by rfl, hhide, hu, hends, hj, hreveal, hagain,
      Option.getD_some, hchk, hrecv]
    simp [hw.src, hw.srcPort]
  · rw [Pbuf.chain_hide (by omega), hchain, List.drop_left' (Mem.slice_length _ _ _)]

/-- **A datagram that one side sends is handed to the control block of the other**, with the data
that was sent, wherever the data lay before and into whatever buffers they are received. -/
theorem udp_delivers {st st' st₂ : Pcbs} {i j : Nat} {netif : Netif} {err : Err} {d : UInt32}
    {p' : List Pbuf} {mem₂ : Mem UInt8} {pad : List UInt8}
    -- the sender
    (hl : Layout alloc r rs mem) (hlite : (st'.pcb i).udplite = false)
    (hrun : udpSend (some netif) alloc i (r :: rs) st mem = (err, st', some (.output p' mem' d)))
    (he : e = ⟨if isany (st'.pcb i).localIp then netif.ipAddr else (st'.pcb i).localIp,
      (st'.pcb i).remoteIp, (st'.pcb i).localPort, (st'.pcb i).remotePort⟩)
    -- the receiver
    (ha : Arrived q qs mem₂) (hchain : Pbuf.chain mem₂ (q :: qs) = Pbuf.chain mem' p' ++ pad)
    (hup : ∃ netif ∈ netifs, netif.up = true ∧ isany netif.ipAddr = false ∧ netif.ipAddr = e.destIp)
    (hj : demux st₂ e = some j) (hrecv : (st₂.pcb j).recv = true) :
    ∃ p p₂, ipInput netifs inp (q :: qs) mem₂ = .udp p ∧
      udpInput st₂ inp p mem₂ = .recv j p₂ e.srcIp e.srcPort ∧
      Pbuf.chain mem₂ p₂ = Pbuf.chain mem (r :: rs) := by
  obtain ⟨q', qs', rfl, hlen, -, -, hsent, hw⟩ := udpSend_wire hl hlite hrun rfl
  rw [← he] at hw
  -- the headers are what the first `pbuf` begins with
  have hhdrs : mem₂.slice q.payload 28 = mem'.slice q'.payload 28 := by
    have htake := Pbuf.take_chain mem₂ ha.first qs
    rw [← htake, hchain, hsent, List.append_assoc, List.take_left' (Mem.slice_length _ _ _)]
  have hbytes : ∀ k < 28, mem₂ (q.payload + k) = mem' (q'.payload + k) := by
    intro k hk
    have hget := congrArg (fun l => l[k]?) hhdrs
    unfold Mem.slice at hget
    simpa [hk] using hget
  have hw₂ : Wire mem₂ q.payload (Pbuf.chain mem (r :: rs)) e := hw.congr hbytes
  rw [hsent, ← hhdrs] at hchain
  obtain ⟨q₃, qs₃, hip, hpay, ha₃, hchain₃⟩ := ipInput_wire inp hw₂ ha hchain hup
  rw [← hpay] at hw₂ hchain₃
  obtain ⟨p₂, hudp, hdata⟩ := udpInput_wire inp hw₂ ha₃ hchain₃ hj hrecv
  exact ⟨_, p₂, hip, hudp, hdata⟩

/-! ### A word that is changed on the way -/

/-- Word `k` of some bytes. -/
def wordAt (bs : List UInt8) (k : Nat) : Nat :=
  256 * (bs.getD (2 * k) 0).toNat + (bs.getD (2 * k + 1) 0).toNat

/-- Word `k` is replaced. -/
def alter (bs : List UInt8) (k : Nat) (x y : UInt8) : List UInt8 :=
  (bs.set (2 * k) x).set (2 * k + 1) y

theorem sum_alter (bs : List UInt8) (k : Nat) (x y : UInt8) (hk : 2 * k + 1 < bs.length) :
    sum (alter bs k x y) + wordAt bs k = sum bs + (256 * x.toNat + y.toNat) := by
  induction bs using sum.induct generalizing k with
  | case1 => simp at hk
  | case2 b =>
      rw [List.length_singleton] at hk
      omega
  | case3 b c bs ih =>
      cases k with
      | zero =>
          unfold alter wordAt
          simp only [Nat.mul_zero, Nat.zero_add, List.set_cons_zero, List.set_cons_succ, sum_pair,
            List.getD_cons_zero, List.getD_cons_succ]
          omega
      | succ k =>
          have hrest := ih k (by simp only [List.length_cons] at hk; omega)
          unfold alter wordAt at hrest ⊢
          simp only [show 2 * (k + 1) = 2 * k + 1 + 1 by omega, List.set_cons_succ, sum_pair,
            List.getD_cons_succ]
          omega

/-- **The checksum finds every change of one word**, but for a change from one zero to the other, and
one that takes the checksum itself away. -/
theorem chkerr_alter {h h₂ k : Nat} {x y : UInt8} {mem₂ : Mem UInt8} (hw : Wire mem h data e)
    (hsum : chksum (h + 20) mem ≠ 0) (hk : 2 * k + 1 < 8 + data.length)
    (hproto : iphProto h₂ mem₂ = ipProtoUdp) (hsrc : src h₂ mem₂ = e.srcIp)
    (hdest : dest h₂ mem₂ = e.destIp) (hfirst : 8 ≤ q.len.toNat)
    (hchain : Pbuf.chain mem₂ (q :: qs) = alter (mem.slice (h + 20) 8 ++ data) k x y)
    (htotal : q.totLen.toNat = 8 + data.length) :
    chkerr h₂ q.payload (q :: qs) q.totLen mem₂ = false ↔
      wordAt (alter (mem.slice (h + 20) 8 ++ data) k x y) 3 = 0 ∨
      wordAt (mem.slice (h + 20) 8 ++ data) k % 65535 = (256 * x.toNat + y.toNat) % 65535 := by
  set d := mem.slice (h + 20) 8 ++ data with hd
  have halter := sum_alter d k x y (by rw [hd, List.length_append, Mem.slice_length]; exact hk)
  have hword : UInt16.ofNat (8 + data.length) = q.totLen := by
    rw [← htotal, UInt16.ofNat_toNat]
  have hfull := (hw.checked.resolve_left hsum)
  rw [hword, norm_eq_full] at hfull
  have hchk : (chksum q.payload mem₂).toNat = wordAt (alter d k x y) 3 := by
    have hget : ∀ j < 8, (alter d k x y).getD j 0 = mem₂ (q.payload + j) := by
      intro j hj
      rw [← hchain, Pbuf.chain_cons, List.getD_eq_getElem?_getD,
        List.getElem?_append_left (by rw [Pbuf.bytes_length]; omega)]
      unfold Pbuf.bytes Mem.slice
      rw [List.getElem?_map, List.getElem?_range (by omega)]
      rfl
    unfold chksum wordAt
    rw [load16_toNat, hget 6 (by omega), hget 7 (by omega)]
  have hzero : chksum q.payload mem₂ = 0 ↔ wordAt (alter d k x y) 3 = 0 := by
    rw [← hchk, ← UInt16.toNat_inj, UInt16.toNat_zero]
  have hpseudo := Inet.inetChksumPseudo_toNat mem₂ (q :: qs) e.srcIp e.destIp ipProtoUdp.toUInt8
    q.totLen
  rw [hchain] at hpseudo
  have hright : Inet.inetChksumPseudo mem₂ (q :: qs) e.srcIp e.destIp ipProtoUdp.toUInt8 q.totLen = 0 ↔
      wordAt d k % 65535 = (256 * x.toNat + y.toNat) % 65535 := by
    have hle := norm_le (sum (alter d k x y)
      + Inet.pseudoSum e.srcIp e.destIp ipProtoUdp.toUInt8 q.totLen)
    have hpos : 17 ≤ Inet.pseudoSum e.srcIp e.destIp ipProtoUdp.toUInt8 q.totLen := by
      unfold Inet.pseudoSum
      rw [show ipProtoUdp.toUInt8.toNat = 17 by rfl]
      omega
    have hiff : norm (sum (alter d k x y)
        + Inet.pseudoSum e.srcIp e.destIp ipProtoUdp.toUInt8 q.totLen) = 65535 ↔
        wordAt d k % 65535 = (256 * x.toNat + y.toNat) % 65535 := by
      have hreplace := mod_eq_zero_replace hfull.2 (show sum (alter d k x y)
        + Inet.pseudoSum e.srcIp e.destIp ipProtoUdp.toUInt8 q.totLen + wordAt d k
        = sum d + Inet.pseudoSum e.srcIp e.destIp ipProtoUdp.toUInt8 q.totLen
          + (256 * x.toNat + y.toNat) by omega)
      rw [norm_eq_full, hreplace]
      exact and_iff_right (by omega)
    rw [← UInt16.toNat_inj, hpseudo, UInt16.toNat_zero, ← hiff]
    omega
  unfold chkerr
  rw [if_neg (by rw [hproto]; decide), hsrc, hdest]
  simp only [Bool.and_eq_false_iff, decide_eq_false_iff_not, ne_eq, not_not]
  rw [hzero, hright]

/-! A greeting of five bytes, sent from a buffer with room for both headers. -/

def helloPcb : UdpPcb := ⟨0x0a000001, 0x0a000002, 0x1234, 69, false, false, false, 0, 255, 0, true⟩

def helloNetif : Netif := ⟨0x0a000001, 0xffffff00, 1500, true, true⟩

theorem udp_delivers_hello : ∃ p' mem' d,
    udpSend (some helloNetif) none 0 [⟨16, 64, 5, 5, .ram⟩] ⟨fun _ => helloPcb, [0]⟩
        (fun x => UInt8.ofNat (x + 40)) = (.ok, ⟨fun _ => helloPcb, [0]⟩, some (.output p' mem' d)) ∧
      ∃ p p₂, ipInput [⟨0x0a000002, 0xffffff00, 1500, true, true⟩] helloNetif
          [⟨16, 36, 33, 33, .pool⟩] mem' = .udp p ∧
        udpInput ⟨fun _ => ⟨0, 0, 69, 0, false, false, false, 0, 255, 0, true⟩, [4]⟩ helloNetif p mem'
          = .recv 4 p₂ 0x0a000001 0x1234 ∧
        Pbuf.chain mem' p₂ = [104, 105, 106, 107, 108] := by
  obtain ⟨mem', d, hrun⟩ : ∃ mem' d,
      udpSend (some helloNetif) none 0 [⟨16, 64, 5, 5, .ram⟩] ⟨fun _ => helloPcb, [0]⟩
        (fun x => UInt8.ofNat (x + 40))
      = (.ok, ⟨fun _ => helloPcb, [0]⟩, some (.output [⟨16, 36, 33, 33, .ram⟩] mem' d)) :=
    ⟨_, _, rfl⟩
  have hchain : Pbuf.chain mem' [⟨16, 36, 33, 33, .pool⟩]
      = Pbuf.chain mem' [⟨16, 36, 33, 33, .ram⟩] ++ [] := by simp [Pbuf.bytes]
  exact ⟨_, mem', d, hrun, udp_delivers ⟨by simp, by decide, by simp, by simp⟩ rfl hrun rfl
    ⟨by decide, by simp, by decide, rfl⟩ hchain
    ⟨_, List.mem_singleton_self _, rfl, rfl, rfl⟩ rfl rfl⟩

/-- The same greeting, as it was received. -/
def helloMem : Mem UInt8 := fun x =>
  ([69, 0, 0, 33, 0, 0, 64, 0, 255, 17, 103, 201, 10, 0, 0, 1, 10, 0, 0, 2, 18, 52, 0, 69, 0, 13, 149,
    134, 104, 101, 108, 108, 111] : List UInt8).getD x 0

theorem hello_wire : Wire helloMem 0 [104, 101, 108, 108, 111] ⟨0x0a000001, 0x0a000002, 0x1234, 69⟩ :=
  ⟨rfl, rfl, rfl, rfl, rfl, rfl, rfl, by unfold Valid; decide, rfl, rfl, Or.inr (by decide)⟩

theorem chkerr_alter_hello :
    chkerr 0 20 [⟨0, 20, 13, 13, .pool⟩] 13 (Function.update helloMem 29 102) = false ↔
      wordAt (alter (helloMem.slice 20 8 ++ [104, 101, 108, 108, 111]) 4 104 102) 3 = 0 ∨
      wordAt (helloMem.slice 20 8 ++ [104, 101, 108, 108, 111]) 4 % 65535 = (256 * 104 + 102) % 65535 :=
  chkerr_alter (q := ⟨0, 20, 13, 13, .pool⟩) hello_wire (by decide) (by decide) rfl rfl rfl (by decide)
    (by decide) rfl

end Udp

end Xell
