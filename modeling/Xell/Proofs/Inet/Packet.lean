/-
Headers come and go, and what the bytes of a packet add up to.

`pbuf_header` and `pbuf_realloc` are read as what they do to the bytes of a chain.  A message is
valid if its words sum to `0xffff`, and for headers the words are those that the accessors read.
-/
import Xell.Proofs.Inet.Chksum
import Xell.Ip

namespace Xell

open Ones

variable {mem mem' : Mem UInt8} {a n : Nat}

theorem Mem.take_slice {α : Type} (m : Mem α) (a : Nat) {n k : Nat} (h : k ≤ n) :
    (m.slice a n).take k = m.slice a k := by
  conv_lhs => rw [← Nat.add_sub_cancel' h, Mem.slice_add]
  exact List.take_left' (Mem.slice_length _ _ _)

/-! ### Hiding and revealing a header -/

namespace Pbuf

variable {q : Pbuf} {qs : List Pbuf}

/-- The first bytes of a chain. -/
theorem take_chain (mem : Mem UInt8) (h : n ≤ q.len.toNat) (qs : List Pbuf) :
    (chain mem (q :: qs)).take n = mem.slice q.payload n := by
  rw [chain_cons, List.take_append_of_le_length (by rwa [bytes_length])]
  exact Mem.take_slice mem q.payload h

/-- The `pbuf` with `n` bytes in front hidden. -/
def hide (q : Pbuf) (n : Nat) : Pbuf :=
  { q with
    payload := q.payload + n
    len := q.len - UInt16.ofNat n
    totLen := q.totLen - UInt16.ofNat n }

/-- The `pbuf` with `n` more bytes in front. -/
def reveal (q : Pbuf) (n : Nat) : Pbuf :=
  { q with
    payload := q.payload - n
    len := q.len + UInt16.ofNat n
    totLen := q.totLen + UInt16.ofNat n }

theorem toInt_neg_ofNat (hn : n < 2 ^ 15) : (-Int16.ofNat n).toInt = -(n : Int) := by
  rw [Int16.toInt_neg, Int16.toInt_ofNat_of_lt hn, Int.bmod_eq_of_le (by omega) (by omega)]

/-- A header is hidden whether it is there or not. -/
theorem header_neg (hn : 0 < n) (hn' : n < 2 ^ 15) (hstart : q.start ≤ q.payload) :
    q.header (-Int16.ofNat n) = some (q.hide n) := by
  have hint := toInt_neg_ofNat hn'
  have hne : -Int16.ofNat n ≠ 0 := by
    intro h
    rw [h, Int16.toInt_zero] at hint
    omega
  have hneg : -Int16.ofNat n < 0 := by
    rw [Int16.lt_iff_toInt_lt, hint, Int16.toInt_zero]
    omega
  have hpay : (q.payload - (-Int16.ofNat n).toInt : Int).toNat = q.payload + n := by
    rw [hint]
    omega
  have hword : (-Int16.ofNat n).toUInt16 = -UInt16.ofNat n := by
    rw [Int16.toUInt16_neg, Int16.toUInt16_ofNat']
  unfold header hide
  simp only [if_neg hne, hpay, hword, ← UInt16.sub_eq_add_neg]
  cases q.flags with
  | ram | pool => simp only [hint, if_neg (show ¬(q.payload - -(n : Int) < q.start) by omega)]
  | ref | rom =>
      have htest : (decide (-Int16.ofNat n < 0)
          && decide ((-Int16.ofNat n).toInt - q.len.toNat ≤ 0)) = true := by
        simp only [hneg, decide_true, Bool.true_and, decide_eq_true_eq, hint]
        omega
      simp only [htest, if_true]

theorem header_pos (hn : 0 < n) (hn' : n < 2 ^ 15) (hstart : q.start + n ≤ q.payload)
    (hflags : q.flags = .ram ∨ q.flags = .pool) :
    q.header (Int16.ofNat n) = some (q.reveal n) := by
  have hint := Int16.toInt_ofNat_of_lt hn'
  have hne : Int16.ofNat n ≠ 0 := by
    intro h
    rw [h, Int16.toInt_zero] at hint
    omega
  have hpay : (q.payload - (Int16.ofNat n).toInt : Int).toNat = q.payload - n := by
    rw [hint]
    omega
  unfold header reveal
  simp only [if_neg hne, hpay, Int16.toUInt16_ofNat']
  rcases hflags with h | h <;>
    simp only [h, hint, if_neg (show ¬((q.payload : Int) - n < q.start) by omega)]

theorem reveal_hide (q : Pbuf) (n : Nat) : (q.hide n).reveal n = q := by
  unfold hide reveal
  simp

theorem toNat_ofNat_le (h : n ≤ q.len.toNat) : (UInt16.ofNat n).toNat = n := by
  have := q.len.toNat_lt
  rw [UInt16.toNat_ofNat', Nat.mod_eq_of_lt (by omega)]

@[simp] theorem hide_len (h : n ≤ q.len.toNat) : (q.hide n).len.toNat = q.len.toNat - n := by
  have hn := toNat_ofNat_le h
  unfold hide
  rw [UInt16.toNat_sub_of_le _ _ (by rw [UInt16.le_iff_toNat_le, hn]; exact h), hn]

/-- What is left when a header is hidden that is there. -/
theorem chain_hide (h : n ≤ q.len.toNat) (qs : List Pbuf) :
    chain mem (q.hide n :: qs) = (chain mem (q :: qs)).drop n := by
  have hsplit : q.bytes mem = mem.slice q.payload n ++ (q.hide n).bytes mem := by
    unfold bytes
    rw [hide_len h, show (q.hide n).payload = q.payload + n from rfl, ← Mem.slice_add,
      Nat.add_sub_cancel' h]
  rw [chain_cons, chain_cons, hsplit, List.append_assoc, List.drop_left' (Mem.slice_length _ _ _)]

theorem reveal_len (h : q.len.toNat + n < 2 ^ 16) : (q.reveal n).len.toNat = q.len.toNat + n := by
  unfold reveal
  rw [UInt16.toNat_add, UInt16.toNat_ofNat', Nat.mod_eq_of_lt (show n < 2 ^ 16 by omega),
    Nat.mod_eq_of_lt h]

theorem chain_reveal (mem : Mem UInt8) (h : q.len.toNat + n < 2 ^ 16) (hn : n ≤ q.payload)
    (qs : List Pbuf) :
    chain mem (q.reveal n :: qs) = mem.slice (q.payload - n) n ++ chain mem (q :: qs) := by
  rw [chain_cons, chain_cons, ← List.append_assoc]
  congr 1
  unfold bytes
  rw [reveal_len h, show (q.reveal n).payload = q.payload - n from rfl, Nat.add_comm,
    Mem.slice_add, Nat.sub_add_cancel hn]

/-- A chain reads the same in another memory that agrees where its bytes lie. -/
theorem chain_congr {p : List Pbuf}
    (h : ∀ q ∈ p, ∀ i < q.len.toNat, mem' (q.payload + i) = mem (q.payload + i)) :
    chain mem' p = chain mem p := by
  unfold chain
  refine List.flatMap_congr fun q hq => ?_
  unfold bytes Mem.slice
  exact List.map_congr_left fun i hi => h q hq i (List.mem_range.mp hi)

end Pbuf

/-! ### Cutting a chain to a length -/

namespace Ip

theorem chain_reallocLoop (grow : UInt16) (p : List Pbuf) (rem : UInt16)
    (h : rem.toNat ≤ (Pbuf.chain mem p).length) :
    Pbuf.chain mem (reallocLoop grow p rem) = (Pbuf.chain mem p).take rem.toNat := by
  induction p generalizing rem with
  | nil => simp [reallocLoop]
  | cons q qs ih =>
      rw [Pbuf.chain_cons, List.length_append, Pbuf.bytes_length] at h
      rw [reallocLoop]
      by_cases hgt : rem > q.len
      · have hle : q.len ≤ rem := UInt16.le_of_lt hgt
        have hlt : q.len.toNat < rem.toNat := UInt16.lt_iff_toNat_lt.mp hgt
        have hrem : (rem - q.len).toNat = rem.toNat - q.len.toNat := UInt16.toNat_sub_of_le _ _ hle
        rw [if_pos hgt, Pbuf.chain_cons, Pbuf.chain_cons, ih _ (by omega), hrem,
          List.take_append, Pbuf.bytes_length,
          List.take_of_length_le (l := q.bytes mem) (by rw [Pbuf.bytes_length]; omega)]
        rfl
      · have hle : rem.toNat ≤ q.len.toNat := by
          rw [gt_iff_lt, UInt16.lt_iff_toNat_lt] at hgt
          omega
        rw [if_neg hgt, Pbuf.take_chain mem hle, Pbuf.chain_cons, Pbuf.chain_nil, List.append_nil]
        rfl

/-- **A packet that is padded is cut to its length**, and one that is too short stays so. -/
theorem chain_pbufRealloc {q : Pbuf} {qs : List Pbuf} (n : UInt16)
    (h : q.totLen.toNat = (Pbuf.chain mem (q :: qs)).length) :
    Pbuf.chain mem (pbufRealloc (q :: qs) n) = (Pbuf.chain mem (q :: qs)).take n.toNat := by
  by_cases hge : n ≥ q.totLen
  · have hle : q.totLen.toNat ≤ n.toNat := UInt16.le_iff_toNat_le.mp hge
    rw [pbufRealloc, if_pos hge, List.take_of_length_le (by omega)]
  · have hlt : n.toNat < q.totLen.toNat := by
      rw [ge_iff_le, UInt16.le_iff_toNat_le] at hge
      omega
    rw [pbufRealloc, if_neg hge]
    exact chain_reallocLoop _ _ n (by omega)

/-- The first `pbuf` of what is left. -/
theorem pbufRealloc_cons {q : Pbuf} {qs : List Pbuf} (n : UInt16)
    (h : q.totLen.toNat = (Pbuf.chain mem (q :: qs)).length) :
    ∃ q' qs', pbufRealloc (q :: qs) n = q' :: qs' ∧ q'.payload = q.payload ∧ q'.start = q.start ∧
      q'.flags = q.flags ∧ q'.totLen.toNat = (Pbuf.chain mem (q' :: qs')).length ∧
      min q.len.toNat n.toNat ≤ q'.len.toNat := by
  have hchain := chain_pbufRealloc n h
  by_cases hge : n ≥ q.totLen
  · exact ⟨q, qs, by rw [pbufRealloc, if_pos hge], rfl, rfl, rfl, h, Nat.min_le_left _ _⟩
  · have hlt : n.toNat < q.totLen.toNat := by
      rw [ge_iff_le, UInt16.le_iff_toNat_le] at hge
      omega
    rw [pbufRealloc, if_neg hge, reallocLoop] at hchain ⊢
    have htot : ∀ p, Pbuf.chain mem p = (Pbuf.chain mem (q :: qs)).take n.toNat →
        n.toNat = (Pbuf.chain mem p).length := by
      intro p hp
      rw [hp, List.length_take]
      omega
    by_cases hgt : n > q.len
    · rw [if_pos hgt] at hchain ⊢
      refine ⟨_, _, rfl, rfl, rfl, rfl, ?_, Nat.min_le_left _ _⟩
      have hgrow : q.totLen + (n - q.totLen) = n := by
        rw [UInt16.add_comm, UInt16.sub_add_cancel]
      rw [← htot _ hchain, hgrow]
    · rw [if_neg hgt] at hchain ⊢
      exact ⟨_, _, rfl, rfl, rfl, rfl, htot _ hchain, Nat.min_le_right _ _⟩

end Ip

/-! ### Words -/

/-- A part of the memory, added up by words. -/
theorem sum_slice (mem : Mem UInt8) (a n : Nat) :
    sum (mem.slice a (2 * n)) = ∑ i ∈ Finset.range n, (Word.load16 mem (a + 2 * i)).toNat := by
  induction n with
  | zero => rfl
  | succ n ih =>
      rw [Finset.sum_range_succ, ← ih, show 2 * (n + 1) = 2 * n + 2 by omega, Mem.slice_add,
        sum_append_even (by simp), Word.load16_toNat, Mem.slice_succ, Mem.slice_one]
      rfl

/-- A message whose words sum to `0xffff`. -/
def Valid (bs : List UInt8) : Prop := norm (sum bs) = 65535

theorem valid_iff {bs : List UInt8} : Valid bs ↔ sum bs ≠ 0 ∧ sum bs % 65535 = 0 := norm_eq_full

theorem Inet.inetChksum_toNat {data : List UInt8} (h : data.length < 2 ^ 16) :
    (Inet.inetChksum data).toNat = 65535 - norm (sum data) := by
  have hchk := Inet.lwipStandardChksum_toNat h
  have hfold : (Inet.foldCarries (Inet.lwipStandardChksum data).toUInt32).toNat = norm (sum data) := by
    rw [Inet.foldCarries_toNat, UInt16.toNat_toUInt32, hchk, norm_norm]
  unfold Inet.inetChksum
  rw [Inet.complement_toNat (by rw [hfold]; exact norm_le _), hfold]

/-- `inet_chksum` tests it. -/
theorem Inet.inetChksum_eq_zero {data : List UInt8} (h : data.length < 2 ^ 16) :
    Inet.inetChksum data = 0 ↔ Valid data := by
  have hle := norm_le (sum data)
  rw [← UInt16.toNat_inj, Inet.inetChksum_toNat h, UInt16.toNat_zero, Valid]
  omega

end Xell
