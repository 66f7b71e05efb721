/-
Echo requests and their answers.

A request is answered by turning it round in place: the addresses change places, which keeps the
sum of the IP header, the type loses `0x0800`, and the checksum gains it with an end-around carry.
The carry is added one too early, at the sum `0xffff`, which then becomes `0`.  This is the other
zero, and does no harm unless nothing else in the message is different from zero: the answer then
has only zeros, and a sum of zeros is not valid.
-/
import Xell.Proofs.Inet.Packet
import Xell.Icmp

namespace Xell.Icmp

open Ones Word Ip

variable {mem : Mem UInt8} {h e n : Nat} {q : Pbuf} {qs : List Pbuf} {inp : Netif}

/-! ### The checksum of a chain that is cut at even places -/

/-- All but the last of the `pbuf`s have an even length. -/
def EvenCuts : List Pbuf → Prop
  | [] => True
  | [_] => True
  | q :: r :: qs => q.len.toNat % 2 = 0 ∧ EvenCuts (r :: qs)

theorem plainSum_of_evenCuts {p : List Pbuf} (hp : EvenCuts p) :
    Inet.plainSum mem p = sum (Pbuf.chain mem p) := by
  induction p using EvenCuts.induct with
  | case1 => rfl
  | case2 q => simp [Inet.plainSum]
  | case3 q r qs ih =>
      rw [Pbuf.chain_cons, sum_append_even (by simpa using hp.1), ← ih hp.2]
      simp [Inet.plainSum]

/-- For the test it does not matter that the whole is swapped. -/
theorem inetChksumPbuf_eq_zero (mem : Mem UInt8) {p : List Pbuf} (hp : EvenCuts p) :
    Inet.inetChksumPbuf mem p = 0 ↔ Valid (Pbuf.chain mem p) := by
  have hle := norm_le (256 ^ (Pbuf.chain mem p).length * sum (Pbuf.chain mem p))
  have hfull : norm (256 ^ (Pbuf.chain mem p).length * sum (Pbuf.chain mem p)) = 65535 ↔
      norm (sum (Pbuf.chain mem p)) = 65535 := by
    rcases Nat.mod_two_eq_zero_or_one (Pbuf.chain mem p).length with hpar | hpar
    · rw [norm_pow (k := 0) hpar, pow_zero, Nat.one_mul]
    · rw [norm_pow (k := 1) hpar, pow_one, norm_eq_full, norm_eq_full]
      omega
  rw [← UInt16.toNat_inj, Inet.inetChksumPbuf_toNat, plainSum_of_evenCuts hp, UInt16.toNat_zero,
    Valid, ← hfull]
  omega

/-! ### Turning a request round -/

theorem adjust_toNat (c : UInt16) :
    (adjust c).toNat = if 0xf7ff ≤ c.toNat then c.toNat - 0xf7ff else c.toNat + 0x800 := by
  have hlt := c.toNat_lt
  have hge : c ≥ (0xffff : UInt16) - (icmpEcho <<< 8) ↔ 0xf7ff ≤ c.toNat := by
    rw [ge_iff_le, UInt16.le_iff_toNat_le]
    rfl
  unfold adjust
  by_cases hc : 0xf7ff ≤ c.toNat
  · rw [if_pos (hge.mpr hc), if_pos hc, UInt16.toNat_add,
      show ((icmpEcho <<< 8) + 1 : UInt16).toNat = 0x801 by rfl]
    omega
  · rw [if_neg (fun hn => hc (hge.mp hn)), if_neg hc, UInt16.toNat_add,
      show (icmpEcho <<< 8 : UInt16).toNat = 0x800 by rfl]
    omega

/-- The first word of a message: its type and its code. -/
theorem load16_type (mem : Mem UInt8) (e : Nat) :
    (load16 mem e).toNat = 256 * (mem e).toNat + (mem (e + 1)).toNat := load16_toNat mem e

theorem icmphCode_toNat (mem : Mem UInt8) (e : Nat) :
    (icmphCode e mem).toNat = (mem (e + 1)).toNat := by
  have hlt := (mem (e + 1)).toNat_lt
  unfold icmphCode
  rw [UInt16.toNat_and, load16_type]
  refine (Nat.and_two_pow_sub_one_eq_mod _ 8).trans ?_
  omega

/-- What is in the memory after a request was turned round. -/
structure Turned (h e : Nat) (mem mem' : Mem UInt8) : Prop where
  src : Ip.src h mem' = Ip.dest h mem
  dest : Ip.dest h mem' = Ip.src h mem
  type : load16 mem' e = icmphCode e mem
  chksum : chksum e mem' = adjust (chksum e mem)
  same : ∀ x, x < h + 12 ∨ h + 20 ≤ x → x < e ∨ e + 4 ≤ x → mem' x = mem x

theorem turnRound_turned (mem : Mem UInt8) (hdr : h + 20 ≤ e) : Turned h e mem (turnRound h e mem) := by
  have hcode : ∀ w v : UInt32, icmphCode e (destSet h (srcSet h mem w) v) = icmphCode e mem := by
    intro w v
    unfold icmphCode destSet srcSet
    rw [load16_store_of_disjoint _ (by omega), load16_store_of_disjoint _ (by omega)]
  have hzero : ∀ c : UInt16, c ||| (icmpEr <<< 8) = c := by
    intro c
    rw [show (icmpEr <<< 8 : UInt16) = 0 by rfl, UInt16.or_zero]
  have hsum : Icmp.chksum e (icmphTypeSet e (destSet h (srcSet h mem (Ip.dest h mem)) (Ip.src h mem))
      icmpEr) = Icmp.chksum e mem := by
    unfold Icmp.chksum icmphTypeSet destSet srcSet
    rw [load16_store16_of_disjoint _ (by omega), load16_store_of_disjoint _ (by omega),
      load16_store_of_disjoint _ (by omega)]
  unfold turnRound
  dsimp only
  rw [hsum]
  unfold chksumSet icmphTypeSet
  rw [hcode, hzero]
  refine ⟨?_, ?_, ?_, ?_, fun x h₁ h₂ => ?_⟩
  · unfold Ip.src destSet srcSet
    rw [load_store16_of_disjoint _ (by omega), load_store16_of_disjoint _ (by omega),
      load_store_of_disjoint _ (by omega), load_store]
  · unfold Ip.dest destSet
    rw [load_store16_of_disjoint _ (by omega), load_store16_of_disjoint _ (by omega), load_store]
  · rw [load16_store16_of_disjoint _ (by omega), load16_store16]
  · unfold Icmp.chksum
    rw [load16_store16]
  · unfold destSet srcSet
    rw [store16_outside _ (by omega), store16_outside _ (by omega), store_outside _ (by omega),
      store_outside _ (by omega)]

/-! ### The answer -/

/-- A packet with a message: the header is in the first `pbuf` with the first words of the message,
and no other `pbuf` lies over them. -/
structure Holds (q : Pbuf) (qs : List Pbuf) (n : Nat) (mem : Mem UInt8) : Prop where
  hl : (iphHl q.payload mem * 4).toNat = n
  header : 20 ≤ n
  first : n + 4 ≤ q.len.toNat
  start : q.start ≤ q.payload
  flags : q.flags = .pool
  total : q.totLen.toNat = (Pbuf.chain mem (q :: qs)).length
  apart : ∀ r ∈ qs, r.payload + r.len.toNat ≤ q.payload ∨ q.payload + n + 4 ≤ r.payload
  cuts : EvenCuts (q.hide n :: qs)

theorem Holds.bounds (hp : Holds q qs n mem) : n < 64 ∧ n % 4 = 0 := by
  have hmask : (iphHl q.payload mem).toNat ≤ 15 := by
    unfold iphHl
    rw [UInt16.toNat_and]
    exact Nat.and_le_right
  rw [← hp.hl, UInt16.toNat_mul, show (4 : UInt16).toNat = 4 by rfl]
  omega

/-- The message of a packet. -/
def message (q : Pbuf) (qs : List Pbuf) (n : Nat) (mem : Mem UInt8) : List UInt8 :=
  Pbuf.chain mem (q.hide n :: qs)

/-- A message as its first two words and the rest. -/
theorem sum_message (hp : Holds q qs n mem) (mem' : Mem UInt8) :
    sum (message q qs n mem') = (load16 mem' (q.payload + n)).toNat
      + (load16 mem' (q.payload + n + 2)).toNat + sum ((message q qs n mem').drop 4) := by
  have hlen := Pbuf.hide_len (show n ≤ q.len.toNat by have := hp.first; omega)
  have hfirst := hp.first
  have hsplit : message q qs n mem'
      = mem'.slice (q.payload + n) 4 ++ (message q qs n mem').drop 4 := by
    have htake : (message q qs n mem').take 4 = mem'.slice (q.payload + n) 4 := by
      unfold message
      rw [Pbuf.chain_cons, List.take_append_of_le_length (by rw [Pbuf.bytes_length]; omega)]
      unfold Pbuf.bytes
      rw [hlen, show q.len.toNat - n = 4 + (q.len.toNat - n - 4) by omega, Mem.slice_add,
        List.take_left' (Mem.slice_length _ _ _)]
      rfl
    rw [← htake, List.take_append_drop]
  have hwords := sum_slice mem' (q.payload + n) 2
  rw [Finset.sum_range_succ, Finset.sum_range_one] at hwords
  conv_lhs => rw [hsplit]
  rw [sum_append_even (by rw [Mem.slice_length]), hwords]
  rfl

/-- All but the type and the checksum is as it was. -/
theorem message_drop {mem' : Mem UInt8} (hp : Holds q qs n mem)
    (ht : Turned q.payload (q.payload + n) mem mem') :
    (message q qs n mem').drop 4 = (message q qs n mem).drop 4 := by
  have hlen := Pbuf.hide_len (show n ≤ q.len.toNat by have := hp.first; omega)
  have hfirst := hp.first
  have hhdr := hp.header
  have hle : 4 ≤ (q.hide n).len.toNat := by omega
  have htail : Pbuf.chain mem' ((q.hide n).hide 4 :: qs) = Pbuf.chain mem ((q.hide n).hide 4 :: qs) := by
    refine Pbuf.chain_congr fun r hr i hi => ht.same _ ?_ ?_ <;>
      rcases List.mem_cons.mp hr with rfl | hr
    · right
      show q.payload + 20 ≤ q.payload + n + 4 + i
      omega
    · have := hp.apart r hr
      omega
    · right
      show q.payload + n + 4 ≤ q.payload + n + 4 + i
      omega
    · have := hp.apart r hr
      omega
  rw [Pbuf.chain_hide hle, Pbuf.chain_hide hle] at htail
  exact htail

theorem sum_eq_zero_iff (bs : List UInt8) : sum bs = 0 ↔ ∀ b ∈ bs, b = 0 := by
  have hbyte : ∀ b : UInt8, b.toNat = 0 ↔ b = 0 := fun b => by
    rw [← UInt8.toNat_inj, UInt8.toNat_zero]
  induction bs using sum.induct with
  | case1 => simp
  | case2 x => simp [sum, hbyte]
  | case3 x y bs ih =>
      rw [sum_pair, List.forall_mem_cons, List.forall_mem_cons]
      constructor
      · intro hz
        exact ⟨(hbyte x).mp (by omega), (hbyte y).mp (by omega), ih.mp (by omega)⟩
      · rintro ⟨hx, hy, hbs⟩
        have := ih.mpr hbs
        rw [← hbyte] at hx hy
        omega

/-- Nothing but the type and the checksum is different from zero. -/
def Empty (bs : List UInt8) : Prop := bs.getD 1 0 = 0 ∧ ∀ b ∈ bs.drop 4, b = 0

theorem message_getD (hp : Holds q qs n mem) (mem' : Mem UInt8) {i : Nat} (hi : i < 4) :
    (message q qs n mem').getD i 0 = mem' (q.payload + n + i) := by
  have hlen := Pbuf.hide_len (show n ≤ q.len.toNat by have := hp.first; omega)
  have hfirst := hp.first
  unfold message
  rw [Pbuf.chain_cons, List.getD_eq_getElem?_getD,
    List.getElem?_append_left (by rw [Pbuf.bytes_length]; omega)]
  unfold Pbuf.bytes Mem.slice
  rw [hlen, List.getElem?_map, List.getElem?_range (by omega)]
  rfl

/-- A request that is turned round has a valid message exactly if it had one that is not empty. -/
theorem valid_turned {mem' : Mem UInt8} (hp : Holds q qs n mem)
    (ht : Turned q.payload (q.payload + n) mem mem') (hecho : mem (q.payload + n) = 8) :
    Valid (message q qs n mem') ↔ Valid (message q qs n mem) ∧ ¬Empty (message q qs n mem) := by
  have hold := sum_message hp mem
  have hnew := sum_message hp mem'
  have htype := load16_type mem (q.payload + n)
  have hcode := (mem (q.payload + n + 1)).toNat_lt
  have hadj := adjust_toNat (chksum (q.payload + n) mem)
  have hchk := (chksum (q.payload + n) mem).toNat_lt
  have hempty : Empty (message q qs n mem) ↔
      (mem (q.payload + n + 1)).toNat = 0 ∧ sum ((message q qs n mem).drop 4) = 0 := by
    unfold Empty
    rw [message_getD hp mem (by omega), sum_eq_zero_iff, ← UInt8.toNat_inj, UInt8.toNat_zero]
  rw [message_drop hp ht, ht.type, icmphCode_toNat,
    show load16 mem' (q.payload + n + 2) = _ from ht.chksum, hadj] at hnew
  rw [htype, hecho, show load16 mem (q.payload + n + 2) = chksum (q.payload + n) mem from rfl,
    show (8 : UInt8).toNat = 8 by rfl] at hold
  rw [valid_iff, valid_iff, hempty, hold, hnew]
  split <;> omega

/-- The packet that goes back. -/
structure Answer (q : Pbuf) (qs : List Pbuf) (n : Nat) (mem mem' : Mem UInt8) : Prop where
  src : Ip.src q.payload mem' = Ip.dest q.payload mem
  dest : Ip.dest q.payload mem' = Ip.src q.payload mem
  header : sum (mem'.slice q.payload n) = sum (mem.slice q.payload n)
  type : (message q qs n mem').getD 0 0 = 0
  code : (message q qs n mem').getD 1 0 = (message q qs n mem).getD 1 0
  rest : (message q qs n mem').drop 4 = (message q qs n mem).drop 4
  valid : Valid (message q qs n mem') ↔ ¬Empty (message q qs n mem)

/-- Two words that change places do not change the sum of the header. -/
theorem sum_header {mem' : Mem UInt8} (hp : Holds q qs n mem)
    (ht : Turned q.payload (q.payload + n) mem mem') :
    sum (mem'.slice q.payload n) = sum (mem.slice q.payload n) := by
  have hhdr := hp.header
  have hsplit : ∀ m : Mem UInt8, sum (m.slice q.payload n) = sum (m.slice q.payload 12)
      + (sum (m.slice (q.payload + 12) 8) + sum (m.slice (q.payload + 20) (n - 20))) := by
    intro m
    rw [← sum_append_even (by simp), ← sum_append_even (by simp), ← Mem.slice_add,
      show 8 + (n - 20) = n - 12 by omega, ← Mem.slice_add, Nat.add_sub_cancel' (by omega)]
  have hwords : ∀ m : Mem UInt8, sum (m.slice (q.payload + 12) 8)
      = (Ip.src q.payload m).toNat / 65536 + (Ip.src q.payload m).toNat % 65536
        + (Ip.dest q.payload m).toNat / 65536 + (Ip.dest q.payload m).toNat % 65536 := by
    intro m
    have hsum := sum_slice m (q.payload + 12) 4
    simp only [Finset.sum_range_succ, Finset.sum_range_zero] at hsum
    have hsrc := load_toNat m (q.payload + 12)
    have hdest := load_toNat m (q.payload + 16)
    have h₁ := (load16 m (q.payload + 12 + 2)).toNat_lt
    have h₂ := (load16 m (q.payload + 16 + 2)).toNat_lt
    unfold Ip.src Ip.dest
    simp only [Nat.mul_zero, Nat.add_zero, Nat.mul_one, Nat.zero_add, Nat.add_assoc,
      Nat.reduceMul, Nat.reduceAdd] at hsum hsrc hdest h₁ h₂ ⊢
    omega
  have hlow : mem'.slice q.payload 12 = mem.slice q.payload 12 := by
    unfold Mem.slice
    refine List.map_congr_left fun i hi => ?_
    have := List.mem_range.mp hi
    exact ht.same _ (Or.inl (by omega)) (Or.inl (by omega))
  have hhigh : mem'.slice (q.payload + 20) (n - 20) = mem.slice (q.payload + 20) (n - 20) := by
    unfold Mem.slice
    refine List.map_congr_left fun i hi => ?_
    have := List.mem_range.mp hi
    exact ht.same _ (Or.inr (by omega)) (Or.inl (by omega))
  rw [hsplit, hsplit, hwords, hwords, hlow, hhigh, ht.src, ht.dest]
  omega

theorem message_type {mem' : Mem UInt8} (hp : Holds q qs n mem)
    (ht : Turned q.payload (q.payload + n) mem mem') :
    (message q qs n mem').getD 0 0 = 0 ∧
      (message q qs n mem').getD 1 0 = (message q qs n mem).getD 1 0 := by
  have htype := load16_type mem' (q.payload + n)
  rw [ht.type, icmphCode_toNat] at htype
  have hcode := (mem (q.payload + n + 1)).toNat_lt
  rw [message_getD hp mem' (by omega), message_getD hp mem' (by omega),
    message_getD hp mem (by omega), ← UInt8.toNat_inj, ← UInt8.toNat_inj, Nat.add_zero,
    UInt8.toNat_zero]
  omega

/-- **Echo requests.**  A request is answered exactly if its message is valid, and the answer is
valid if anything in it is different from zero. -/
theorem icmpInput_echo (hp : Holds q qs n mem) (hecho : mem (q.payload + n) = 8)
    (hunicast : ¬(ipAddrIsbroadcast (dest q.payload mem) inp ∨ ismulticast (dest q.payload mem)))
    (hlen : 8 ≤ (message q qs n mem).length) :
    (Valid (message q qs n mem) → ∃ mem',
      icmpInput inp (q :: qs) mem = some (q :: qs, mem') ∧ Answer q qs n mem mem') ∧
    (¬Valid (message q qs n mem) → icmpInput inp (q :: qs) mem = none) := by
  have hhdr := hp.header
  have hfirst := hp.first
  have hbounds := hp.bounds
  have hhide := Pbuf.header_neg (q := q) (n := n) (by omega) (by omega) hp.start
  have hshow : (q.hide n).header (Int16.ofNat n) = some q := by
    have hstart := hp.start
    rw [Pbuf.header_pos (q := q.hide n) (by omega) (by omega)
      (show q.start + n ≤ q.payload + n by omega) (Or.inr hp.flags), Pbuf.reveal_hide]
  have htot : (q.hide n).totLen.toNat = (message q qs n mem).length := by
    have hn := Pbuf.toNat_ofNat_le (show n ≤ q.len.toNat by omega)
    have htotal := hp.total
    rw [Pbuf.chain_cons, List.length_append, Pbuf.bytes_length] at htotal
    unfold message
    rw [Pbuf.chain_hide (by omega), List.length_drop, ← hp.total]
    unfold Pbuf.hide
    rw [UInt16.toNat_sub_of_le _ _ (by rw [UInt16.le_iff_toNat_le, hn]; omega), hn]
  have h₄ : ¬(q.hide n).totLen < 4 := by
    rw [UInt16.lt_iff_toNat_lt, htot, show (4 : UInt16).toNat = 4 by rfl]
    omega
  have h₈ : ¬(q.hide n).totLen < 8 := by
    rw [UInt16.lt_iff_toNat_lt, htot, show (8 : UInt16).toNat = 8 by rfl]
    omega
  have htype : ¬(mem (q.hide n).payload).toUInt16 ≠ icmpEcho := by
    rw [not_not, show (q.hide n).payload = q.payload + n from rfl, hecho]
    rfl
  have hcast : (ipAddrIsbroadcast (dest q.payload mem) inp || ismulticast (dest q.payload mem))
      = false := by simpa using hunicast
  have hzero := inetChksumPbuf_eq_zero mem hp.cuts
  have hturned := turnRound_turned mem (show q.payload + 20 ≤ q.payload + n by omega)
  have hrun : icmpInput inp (q :: qs) mem
      = if Inet.inetChksumPbuf mem (q.hide n :: qs) ≠ 0 then none
        else some (q :: qs, turnRound q.payload (q.payload + n) mem) := by
    unfold icmpInput
    simp only [hp.hl, hhide, if_neg h₄, if_neg htype, hcast, if_neg h₈, hshow, Option.getD_some]
    rfl
  obtain ⟨htype', hcode'⟩ := message_type hp hturned
  refine ⟨fun hvalid => ⟨_, ?_, hturned.src, hturned.dest, sum_header hp hturned, htype', hcode',
    message_drop hp hturned, ?_⟩, fun hvalid => ?_⟩
  · rw [hrun, if_neg (by rw [not_not]; exact hzero.mpr hvalid)]
  · rw [valid_turned hp hturned hecho, and_iff_right hvalid]
  · rw [hrun, if_pos (fun hz => hvalid (hzero.mp hz))]

/-! A request of eight bytes behind a header of twenty. -/

def pingMem : Mem UInt8 := fun x =>
  ([0x45, 0, 0, 28, 0, 0, 0, 0, 64, 1, 0, 0, 10, 0, 0, 1, 10, 0, 0, 2, 8, 0, 0xf7, 0xfd, 0, 1, 0,
    1] : List UInt8).getD (x - 16) 0

def pingPbuf : Pbuf := ⟨16, 16, 28, 28, .pool⟩

theorem ping_holds : Holds pingPbuf [] 20 pingMem :=
  ⟨rfl, by decide, by decide, by decide, rfl, rfl, by simp, trivial⟩

theorem icmpInput_echo_ping : ∃ mem',
    icmpInput ⟨0x0a000002, 0xffffff00, 1500, true, true⟩ [pingPbuf] pingMem
      = some ([pingPbuf], mem') ∧ Answer pingPbuf [] 20 pingMem mem' :=
  (icmpInput_echo ping_holds rfl (by decide) (by decide)).1 (by unfold Valid; decide)

end Xell.Icmp
