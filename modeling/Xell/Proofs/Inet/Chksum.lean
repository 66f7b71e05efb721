/-
The checksums of `inet.c`.

Each of the functions is read as a number once: folding carries is `norm`, and swapping the bytes
of `acc` multiplies by `256`.  `inet_chksum_pseudo` swaps behind every `pbuf` of odd length, which
is what a cut at an odd place asks for, so that the checksum depends on the bytes of the chain
alone.  `inet_chksum_pbuf` was meant to do the same.  Its shifts are applied to the masks instead
of `acc`, nothing is swapped, and the `pbuf`s that begin at the wrong parity are added up wrongly.
-/
import Xell.Lib.Align
import Xell.Lib.Ones
import Xell.Inet

namespace Xell.Inet

open Ones

variable {mem mem' : Mem UInt8} {acc : UInt32}

/-! ### The steps as numbers -/

theorem toNat_and_low (acc : UInt32) : (acc &&& 0xffff).toNat = acc.toNat % 65536 := by
  rw [UInt32.toNat_and]
  exact Nat.and_two_pow_sub_one_eq_mod acc.toNat 16

theorem toNat_shift_high (acc : UInt32) : (acc >>> 16).toNat = acc.toNat / 65536 := by
  rw [UInt32.toNat_shiftRight]
  exact Nat.shiftRight_eq_div_pow _ _

theorem toNat_fold (acc : UInt32) :
    ((acc &&& (0xffff : UInt32)) + (acc >>> 16)).toNat = acc.toNat % 65536 + acc.toNat / 65536 := by
  have hlt := acc.toNat_lt
  rw [UInt32.toNat_add, toNat_and_low, toNat_shift_high, Nat.mod_eq_of_lt (by omega)]

theorem foldCarries_toNat (acc : UInt32) : (foldCarries acc).toNat = norm acc.toNat := by
  induction acc using foldCarries.induct with
  | case1 acc h =>
      have hhigh := congrArg UInt32.toNat h
      rw [toNat_shift_high] at hhigh
      rw [foldCarries, dif_pos h, norm_of_le]
      simp at hhigh
      omega
  | case2 acc h ih => rw [foldCarries, dif_neg h, ih, toNat_fold, norm_fold]

theorem word_toNat (x y : UInt8) : (word x y).toNat = 256 * x.toNat + y.toNat := by
  have hx := x.toNat_lt
  have hy := y.toNat_lt
  unfold word
  rw [UInt16.toNat_or, UInt16.toNat_shiftLeft, UInt8.toNat_toUInt16, UInt8.toNat_toUInt16,
    show x.toNat <<< (UInt16.toNat 8 % 16) % 2 ^ 16 = 2 ^ 8 * x.toNat by
      rw [Nat.shiftLeft_eq]; simp; omega,
    ← Nat.two_pow_add_eq_or_of_lt hy]

theorem high_toNat (x : UInt8) : (x.toUInt16 <<< 8).toNat = 256 * x.toNat := by
  have h := word_toNat x 0
  simpa [word] using h

/-- The loop adds up the words, as long as there is room for the sum. -/
theorem chksumLoop_toNat (data : List UInt8) (acc : UInt32) (h : acc.toNat + sum data < 2 ^ 32) :
    (chksumLoop data acc).toNat = acc.toNat + sum data := by
  induction data, acc using chksumLoop.induct with
  | case1 acc => simp [chksumLoop]
  | case2 acc x =>
      simp only [sum] at h
      rw [chksumLoop, UInt32.toNat_add, UInt16.toNat_toUInt32, high_toNat, sum,
        Nat.mod_eq_of_lt h]
  | case3 x y bs acc ih =>
      rw [sum_pair] at h
      have hacc : (acc + (word x y).toUInt32).toNat = acc.toNat + (256 * x.toNat + y.toNat) := by
        rw [UInt32.toNat_add, UInt16.toNat_toUInt32, word_toNat, Nat.mod_eq_of_lt (by omega)]
      rw [chksumLoop, ih (by omega), hacc, sum_pair]
      omega

/-- What `lwip_standard_chksum` returns for a length of sixteen bits. -/
theorem lwipStandardChksum_toNat {data : List UInt8} (h : data.length < 2 ^ 16) :
    (lwipStandardChksum data).toNat = norm (sum data) := by
  have hle := sum_le data
  have hloop := chksumLoop_toNat data 0 (by simp; omega)
  set acc := chksumLoop data 0 with hacc
  rw [UInt32.toNat_zero, Nat.zero_add] at hloop
  -- after one fold there is at most one carry left
  set acc₁ := (acc >>> 16) + (acc &&& 0xffff) with hacc₁
  have hone : acc₁.toNat = acc.toNat % 65536 + acc.toNat / 65536 := by
    rw [hacc₁, UInt32.add_comm, toNat_fold]
  have htest : (acc₁ &&& (0xffff0000 : UInt32)) ≠ 0 ↔ 65536 ≤ acc₁.toNat := by
    have hmask := Align.and_high (w := 32) (show 16 ≤ 32 by omega) acc₁.toNat_lt
    rw [ne_eq, ← UInt32.toNat_inj, UInt32.toNat_and, UInt32.toNat_zero,
      show (0xffff0000 : UInt32).toNat = 2 ^ 32 - 1 - (2 ^ 16 - 1) by rfl, hmask]
    omega
  have hnorm : norm acc₁.toNat = norm (sum data) := by rw [hone, norm_fold, hloop]
  unfold lwipStandardChksum
  simp only [← hacc, ← hacc₁]
  by_cases hbig : (acc₁ &&& (0xffff0000 : UInt32)) ≠ 0
  · rw [if_pos hbig, UInt32.toNat_toUInt16, UInt32.add_comm, toNat_fold, ← hnorm,
      ← norm_fold acc₁.toNat, norm_of_le (by omega), Nat.mod_eq_of_lt (by omega)]
  · rw [if_neg hbig, UInt32.toNat_toUInt16, ← hnorm]
    rw [htest] at hbig
    rw [norm_of_le (by omega), Nat.mod_eq_of_lt (by omega)]

theorem swapBytes_toNat (h : acc.toNat ≤ 65535) : (swapBytes acc).toNat = norm (256 * acc.toNat) := by
  have hlow : (acc &&& 0xff).toNat = acc.toNat % 256 := by
    rw [UInt32.toNat_and]
    exact Nat.and_two_pow_sub_one_eq_mod acc.toNat 8
  have hhigh : ((acc &&& 0xff00) >>> 8).toNat = acc.toNat / 256 := by
    have hmask := Align.and_high (w := 16) (show 8 ≤ 16 by omega) (show acc.toNat < 2 ^ 16 by omega)
    rw [UInt32.toNat_shiftRight, UInt32.toNat_and,
      show (0xff00 : UInt32).toNat = 2 ^ 16 - 1 - (2 ^ 8 - 1) by rfl, hmask]
    exact (Nat.shiftRight_eq_div_pow _ _).trans (Nat.mul_div_cancel _ (by decide))
  have hshift : ((acc &&& 0xff) <<< 8).toNat = 2 ^ 8 * (acc.toNat % 256) := by
    rw [UInt32.toNat_shiftLeft, hlow, Nat.shiftLeft_eq]
    simp
    omega
  unfold swapBytes
  rw [UInt32.toNat_or, hshift, hhigh, ← norm_swap h,
    ← Nat.two_pow_add_eq_or_of_lt (show acc.toNat / 256 < 2 ^ 8 by omega)]
  omega

theorem complement_toNat (h : acc.toNat ≤ 65535) : (complement acc).toNat = 65535 - acc.toNat := by
  have hlow : (acc &&& 0xffff).toNat = acc.toNat := by
    rw [toNat_and_low]
    omega
  unfold complement
  rw [UInt32.toNat_toUInt16, UInt32.toNat_not, hlow, show UInt32.size = 2 ^ 32 by rfl]
  omega

/-- What `acc` is behind one more `pbuf`, its carries folded in. -/
theorem fold_pbuf (mem : Mem UInt8) (h : acc.toNat ≤ 65535) (q : Pbuf) :
    (foldCarries (acc + (lwipStandardChksum (q.bytes mem)).toUInt32)).toNat
      = norm (acc.toNat + sum (q.bytes mem)) := by
  have hchk := lwipStandardChksum_toNat
    (show (q.bytes mem).length < 2 ^ 16 by simpa using q.len.toNat_lt)
  have hle := norm_le (sum (q.bytes mem))
  rw [foldCarries_toNat, UInt32.toNat_add, UInt16.toNat_toUInt32, hchk,
    Nat.mod_eq_of_lt (by omega)]
  exact norm_add_congr rfl (norm_norm _)

theorem odd_iff (n : UInt16) : n % 2 ≠ 0 ↔ n.toNat % 2 = 1 := by
  rw [ne_eq, ← UInt16.toNat_inj, UInt16.toNat_mod]
  simp

theorem decide_odd_add {m n : Nat} (h : n % 2 = 1) :
    decide ((m + n) % 2 = 1) = !decide (m % 2 = 1) := by
  rw [← decide_not]
  exact decide_eq_decide.mpr (by omega)

/-! ### A chain with swaps -/

/-- What has been added up when the bytes `pre` are behind. -/
structure Swapped (pre : List UInt8) (s : Acc) : Prop where
  acc : s.acc.toNat = norm (256 ^ pre.length * sum pre)
  swapped : s.swapped = decide (pre.length % 2 = 1)

/-- Adding bytes to a sum that is swapped or not. -/
theorem norm_swapped_append (pre bs : List UInt8) (k : Nat) (hk : k % 2 = bs.length % 2) :
    norm (256 ^ k * (256 ^ pre.length * sum pre + sum bs))
      = norm (256 ^ (pre ++ bs).length * sum (pre ++ bs)) := by
  have happ := norm_mul_congr (256 ^ (pre ++ bs).length) (norm_sum_append pre bs)
  rw [happ, List.length_append]
  calc norm (256 ^ k * (256 ^ pre.length * sum pre + sum bs))
      = norm (256 ^ (k + pre.length) * sum pre + 256 ^ k * sum bs) := by ring_nf
    _ = norm (256 ^ (pre.length + bs.length) * sum pre
          + 256 ^ (pre.length + bs.length + pre.length) * sum bs) :=
        norm_add_congr (norm_pow (by omega) _) (norm_pow (by omega) _)
    _ = norm (256 ^ (pre.length + bs.length) * (sum pre + 256 ^ pre.length * sum bs)) := by
        ring_nf

theorem pbufLoop_swapped (mem : Mem UInt8) (p : List Pbuf) {pre : List UInt8} {s : Acc}
    (h : Swapped pre s) :
    Swapped (pre ++ Pbuf.chain mem p) (pbufLoop swapBytes mem p s) := by
  induction p generalizing pre s with
  | nil => simpa [pbufLoop] using h
  | cons q qs ih =>
      have hle : s.acc.toNat ≤ 65535 := h.acc ▸ norm_le _
      have hacc : (foldCarries (s.acc + (lwipStandardChksum (q.bytes mem)).toUInt32)).toNat
          = norm (256 ^ pre.length * sum pre + sum (q.bytes mem)) := by
        rw [fold_pbuf mem hle, h.acc, norm_norm_add]
      have hlen : (pre ++ q.bytes mem).length = pre.length + q.len.toNat := by simp
      rw [Pbuf.chain_cons, ← List.append_assoc, pbufLoop]
      by_cases hodd : q.len % 2 ≠ 0
      · have hpar := (odd_iff q.len).mp hodd
        rw [if_pos hodd]
        refine ih ⟨?_, ?_⟩
        · rw [swapBytes_toNat (hacc ▸ norm_le _), hacc, norm_mul_congr 256 (norm_norm _)]
          exact norm_swapped_append pre (q.bytes mem) 1 (by rw [Pbuf.bytes_length]; omega)
        · rw [h.swapped, hlen, decide_odd_add hpar]
      · have hpar : q.len.toNat % 2 = 0 := by
          rw [odd_iff] at hodd
          omega
        rw [if_neg hodd]
        refine ih ⟨?_, ?_⟩
        · have happ := norm_swapped_append pre (q.bytes mem) 0 (by rw [Pbuf.bytes_length]; omega)
          rw [pow_zero, Nat.one_mul] at happ
          exact hacc.trans happ
        · rw [h.swapped, hlen, show (pre.length + q.len.toNat) % 2 = pre.length % 2 by omega]

/-- The words of the pseudo header. -/
def pseudoSum (src dest : UInt32) (proto : UInt8) (protoLen : UInt16) : Nat :=
  src.toNat % 65536 + src.toNat / 65536 + dest.toNat % 65536 + dest.toNat / 65536 + proto.toNat
    + protoLen.toNat

theorem swap_back {s : Acc} {bs : List UInt8} (h : Swapped bs s) :
    (if s.swapped then swapBytes s.acc else s.acc).toNat = norm (sum bs) := by
  have hle : s.acc.toNat ≤ 65535 := h.acc ▸ norm_le _
  rw [h.swapped]
  by_cases hodd : bs.length % 2 = 1
  · rw [if_pos (by simpa using hodd), swapBytes_toNat hle, h.acc, norm_mul_congr 256 (norm_norm _),
      ← Nat.mul_assoc, ← Nat.pow_succ', norm_pow (k := 0) (by omega)]
    simp
  · rw [if_neg (by simpa using hodd), h.acc, norm_pow (k := 0) (by omega)]
    simp

/-- **`inet_chksum_pseudo` is the checksum of the bytes, however they are cut into `pbuf`s.** -/
theorem inetChksumPseudo_toNat (mem : Mem UInt8) (p : List Pbuf) (src dest : UInt32) (proto : UInt8)
    (protoLen : UInt16) :
    (inetChksumPseudo mem p src dest proto protoLen).toNat
      = 65535 - norm (sum (Pbuf.chain mem p) + pseudoSum src dest proto protoLen) := by
  have hstart : Swapped [] ⟨0, false⟩ := ⟨by simp, by simp⟩
  have hloop := pbufLoop_swapped mem p hstart
  have hback := swap_back hloop
  rw [List.nil_append] at hback
  have hle := norm_le (sum (Pbuf.chain mem p))
  have hsrc := src.toNat_lt
  have hdest := dest.toNat_lt
  have hproto := proto.toNat_lt
  have hlen := protoLen.toNat_lt
  have hhigh : ∀ a : UInt32, ((a >>> 16) &&& (0xffff : UInt32)).toNat = a.toNat / 65536 := by
    intro a
    have := a.toNat_lt
    rw [toNat_and_low, toNat_shift_high]
    omega
  unfold inetChksumPseudo
  dsimp only
  rw [complement_toNat (foldCarries_toNat _ ▸ norm_le _), foldCarries_toNat]
  congr 1
  simp only [UInt32.toNat_add, hback, hhigh, toNat_and_low, UInt16.toNat_toUInt32,
    UInt8.toNat_toUInt16]
  rw [← norm_norm_add (sum (Pbuf.chain mem p))]
  congr 1
  unfold pseudoSum
  omega

/-! ### A chain without -/

/-- What the `pbuf`s add up to that begin at a place with the parity `b`. -/
def atParity (mem : Mem UInt8) (b : Nat) : List Pbuf → Nat → Nat
  | [], _ => 0
  | q :: qs, off =>
      (if off % 2 = b then sum (q.bytes mem) else 0) + atParity mem b qs (off + q.len.toNat)

/-- Every `pbuf` as if it began at an even place. -/
def plainSum (mem : Mem UInt8) (p : List Pbuf) : Nat := (p.map fun q => sum (q.bytes mem)).sum

theorem plainSum_eq (p : List Pbuf) (off : Nat) :
    plainSum mem p = atParity mem 0 p off + atParity mem 1 p off := by
  induction p generalizing off with
  | nil => rfl
  | cons q qs ih =>
      have hrest := ih (off + q.len.toNat)
      simp only [plainSum, atParity, List.map_cons, List.sum_cons] at hrest ⊢
      rcases Nat.mod_two_eq_zero_or_one off with h | h <;> simp only [h] <;> simp <;> omega

theorem norm_chain (mem : Mem UInt8) (p : List Pbuf) (off : Nat) :
    norm (256 ^ off * sum (Pbuf.chain mem p))
      = norm (atParity mem 0 p off + 256 * atParity mem 1 p off) := by
  induction p generalizing off with
  | nil => simp [atParity]
  | cons q qs ih =>
      have hrest := ih (off + q.len.toNat)
      have hfirst : norm (256 ^ off * sum (q.bytes mem))
          = norm ((if off % 2 = 0 then sum (q.bytes mem) else 0)
            + 256 * if off % 2 = 1 then sum (q.bytes mem) else 0) := by
        rcases Nat.mod_two_eq_zero_or_one off with h | h
        · rw [norm_pow (k := 0) h]
          simp [h]
        · rw [norm_pow (k := 1) h]
          simp [h]
      calc norm (256 ^ off * sum (q.bytes mem ++ Pbuf.chain mem qs))
          = norm (256 ^ off * (sum (q.bytes mem)
              + 256 ^ (q.bytes mem).length * sum (Pbuf.chain mem qs))) :=
            norm_mul_congr _ (norm_sum_append _ _)
        _ = norm (256 ^ off * sum (q.bytes mem)
              + 256 ^ (off + q.len.toNat) * sum (Pbuf.chain mem qs)) := by
            rw [Pbuf.bytes_length]
            ring_nf
        _ = _ := by
            rw [norm_add_congr hfirst hrest]
            simp only [atParity]
            congr 1
            ring

theorem mix_eq (h : acc.toNat ≤ 65535) :
    (acc &&& ((0x00ff : UInt32) <<< 8)) ||| (acc &&& ((0xff00 : UInt32) >>> 8)) = acc := by
  have hmask : (acc &&& ((0x00ff : UInt32) <<< 8)) ||| (acc &&& ((0xff00 : UInt32) >>> 8))
      = acc &&& 0xffff := by
    apply UInt32.toNat.inj
    rw [UInt32.toNat_or, UInt32.toNat_and, UInt32.toNat_and, ← Nat.and_or_distrib_left,
      UInt32.toNat_and]
    rfl
  rw [hmask]
  apply UInt32.toNat.inj
  rw [toNat_and_low]
  omega

theorem pbufLoop_plain (mem : Mem UInt8) (p : List Pbuf) {mix : UInt32 → UInt32}
    (hmix : ∀ acc : UInt32, acc.toNat ≤ 65535 → mix acc = acc) {s : Acc} (hle : s.acc.toNat ≤ 65535) :
    (pbufLoop mix mem p s).acc.toNat = norm (s.acc.toNat + plainSum mem p) ∧
      (pbufLoop mix mem p s).swapped
        = (s.swapped ^^ decide ((Pbuf.chain mem p).length % 2 = 1)) := by
  induction p generalizing s with
  | nil => exact ⟨by simp [pbufLoop, plainSum, norm_of_le hle], by simp [pbufLoop]⟩
  | cons q qs ih =>
      have hacc := fold_pbuf mem hle q
      have hle' : (foldCarries (s.acc + (lwipStandardChksum (q.bytes mem)).toUInt32)).toNat ≤ 65535 :=
        hacc ▸ norm_le _
      have hsum : norm (norm (s.acc.toNat + sum (q.bytes mem)) + plainSum mem qs)
          = norm (s.acc.toNat + plainSum mem (q :: qs)) := by
        rw [norm_norm_add, plainSum, plainSum, List.map_cons, List.sum_cons, Nat.add_assoc]
      have hlen : (Pbuf.chain mem (q :: qs)).length
          = q.len.toNat + (Pbuf.chain mem qs).length := by simp
      rw [pbufLoop]
      by_cases hodd : q.len % 2 ≠ 0
      · have hpar := (odd_iff q.len).mp hodd
        rw [if_pos hodd]
        obtain ⟨hih, hswap⟩ := ih (s := ⟨mix _, !s.swapped⟩) (by rw [hmix _ hle']; exact hle')
        refine ⟨?_, ?_⟩
        · rw [hih, hmix _ hle', hacc, hsum]
        · rw [hswap, hlen, Nat.add_comm, decide_odd_add hpar]
          simp
      · have hpar : q.len.toNat % 2 = 0 := by
          rw [odd_iff] at hodd
          omega
        rw [if_neg hodd]
        obtain ⟨hih, hswap⟩ := ih (s := ⟨_, s.swapped⟩) hle'
        refine ⟨?_, ?_⟩
        · rw [hih, hacc, hsum]
        · rw [hswap, hlen, show (q.len.toNat + (Pbuf.chain mem qs).length) % 2
            = (Pbuf.chain mem qs).length % 2 by omega]

/-- What `inet_chksum_pbuf` returns: the sum is swapped once, for the chain as a whole. -/
theorem inetChksumPbuf_toNat (mem : Mem UInt8) (p : List Pbuf) :
    (inetChksumPbuf mem p).toNat
      = 65535 - norm (256 ^ (Pbuf.chain mem p).length * plainSum mem p) := by
  obtain ⟨hacc, hswap⟩ := pbufLoop_plain mem p (fun acc => @mix_eq acc) (s := ⟨0, false⟩) (by simp)
  rw [UInt32.toNat_zero, Nat.zero_add] at hacc
  have hle : (pbufLoop _ mem p ⟨0, false⟩).acc.toNat ≤ 65535 := hacc ▸ norm_le _
  unfold inetChksumPbuf
  dsimp only
  rw [hswap]
  by_cases hodd : (Pbuf.chain mem p).length % 2 = 1
  · rw [if_pos (by simpa using hodd),
      complement_toNat (by rw [swapBytes_toNat hle]; exact norm_le _), swapBytes_toNat hle, hacc,
      norm_mul_congr 256 (norm_norm _), norm_pow (k := 1) (by omega), pow_one]
  · rw [if_neg (by simpa using hodd), complement_toNat hle, hacc, norm_pow (k := 0) (by omega),
      pow_zero, Nat.one_mul]

/-- The words that are added up the wrong way round: those of the `pbuf`s that begin at another
parity than the chain ends with. -/
def strays (mem : Mem UInt8) (p : List Pbuf) : Nat :=
  atParity mem (1 - (Pbuf.chain mem p).length % 2) p 0

/-- **`inet_chksum_pbuf` is the checksum of the bytes exactly if the strays sum to a multiple of
`257`.** -/
theorem inetChksumPbuf_eq_iff (mem : Mem UInt8) (p : List Pbuf) :
    (inetChksumPbuf mem p).toNat = 65535 - norm (sum (Pbuf.chain mem p)) ↔ 257 ∣ strays mem p := by
  have hle := norm_le (256 ^ (Pbuf.chain mem p).length * plainSum mem p)
  have hle' := norm_le (sum (Pbuf.chain mem p))
  have hchain := norm_chain mem p 0
  rw [pow_zero, Nat.one_mul] at hchain
  have hsame : (inetChksumPbuf mem p).toNat = 65535 - norm (sum (Pbuf.chain mem p)) ↔
      norm (256 ^ (Pbuf.chain mem p).length * plainSum mem p)
        = norm (atParity mem 0 p 0 + 256 * atParity mem 1 p 0) := by
    rw [inetChksumPbuf_toNat, hchain]
    rw [hchain] at hle'
    omega
  rw [hsame, plainSum_eq p 0, strays]
  rcases Nat.mod_two_eq_zero_or_one (Pbuf.chain mem p).length with h | h
  · rw [norm_pow (k := 0) h, pow_zero, Nat.one_mul, norm_eq_iff, h, Nat.sub_zero]
    omega
  · rw [norm_pow (k := 1) h, pow_one, norm_eq_iff, h, Nat.sub_self]
    omega

end Xell.Inet
