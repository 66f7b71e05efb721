/-
Cutting a datagram into fragments, and putting them together again.

Every fragment that `ip_frag` makes has a right header, and the fragments follow each other: each but
the last has the same number of bytes, a multiple of eight.  If this is more than 64, which an
`mtu` of 92 is enough for, then what `ip_reass` does not test cannot be missing, for a whole
fragment would be.
-/
import Xell.Proofs.Inet.Reass

namespace Xell.IpFrag

open Ip Word

variable {mem buf : Mem UInt8} {d : Datagram} {q : Pbuf} {qs : List Pbuf} {o l n : Nat}

/-! ### The header of a fragment -/

theorem mask_or (a b m : UInt16) : (a ||| b) &&& m = (a &&& m) ||| (b &&& m) := by
  apply UInt16.toNat.inj
  rw [UInt16.toNat_and, UInt16.toNat_or, Nat.and_or_distrib_right, UInt16.toNat_or, UInt16.toNat_and,
    UInt16.toNat_and]

/-- The offset and the flag of a fragment. -/
def offsetField (last : Bool) (ofo : UInt16) : UInt16 :=
  if last then 0 ||| (ipOffmask &&& ofo) else 0 ||| (ipOffmask &&& ofo) ||| ipMf

theorem offsetField_offmask (last : Bool) (ofo : UInt16) :
    offsetField last ofo &&& ipOffmask = ipOffmask &&& ofo := by
  have hself : ipOffmask &&& ofo &&& ipOffmask = ipOffmask &&& ofo := by
    rw [UInt16.and_comm, ← UInt16.and_assoc, UInt16.and_self]
  cases last with
  | true =>
      show (0 ||| (ipOffmask &&& ofo)) &&& ipOffmask = _
      rw [UInt16.zero_or, hself]
  | false =>
      show (0 ||| (ipOffmask &&& ofo) ||| ipMf) &&& ipOffmask = _
      rw [UInt16.zero_or, mask_or, hself, show ipMf &&& ipOffmask = 0 by rfl, UInt16.or_zero]

theorem offsetField_mf (last : Bool) (ofo : UInt16) :
    (offsetField last ofo &&& ipMf) ≠ 0 ↔ last = false := by
  have hnone : ipOffmask &&& ofo &&& ipMf = 0 := by
    rw [UInt16.and_assoc, UInt16.and_comm ofo, ← UInt16.and_assoc, show ipOffmask &&& ipMf = 0 by rfl,
      UInt16.zero_and]
  cases last with
  | true =>
      refine iff_of_false (not_not.mpr ?_) (by simp)
      show (0 ||| (ipOffmask &&& ofo)) &&& ipMf = 0
      rw [UInt16.zero_or, hnone]
  | false =>
      refine iff_of_true ?_ rfl
      show (0 ||| (ipOffmask &&& ofo) ||| ipMf) &&& ipMf ≠ 0
      rw [UInt16.zero_or, mask_or, hnone, UInt16.zero_or, UInt16.and_self]
      decide

theorem offsetField_toNat {ofo : UInt16} (last : Bool) (h : ofo.toNat * 8 < 65536) :
    ((offsetField last ofo &&& ipOffmask) * 8).toNat = ofo.toNat * 8 := by
  have hmask : (ipOffmask &&& ofo).toNat = ofo.toNat := by
    rw [UInt16.and_comm, UInt16.toNat_and]
    refine (Nat.and_two_pow_sub_one_eq_mod _ 13).trans ?_
    omega
  rw [offsetField_offmask, UInt16.toNat_mul, hmask]
  exact Nat.mod_eq_of_lt h

/-- What all fragments have in common. -/
structure Header (d : Datagram) (buf : Mem UInt8) : Prop where
  vhl : buf 0 = d.vhl
  proto : iphProto 0 buf = d.proto
  src : Ip.src 0 buf = d.src
  dest : Ip.dest 0 buf = d.dest
  ident : iphId 0 buf = d.ident

theorem Header.congr {h : Nat} {mem buf : Mem UInt8} (hs : SameHeader h 0 mem buf)
    (hvhl : mem h = d.vhl) (hproto : iphProto h mem = d.proto) (hsrc : Ip.src h mem = d.src)
    (hdest : Ip.dest h mem = d.dest) (hident : iphId h mem = d.ident) : Header d buf :=
  ⟨hs.vhl.trans hvhl, hs.proto.trans hproto, hs.src.trans hsrc, hs.dest.trans hdest,
    hs.ident.trans hident⟩

/-- The packet at 0 is a fragment: the `l` bytes from `o` on. -/
structure Fragment (d : Datagram) (m : Mem UInt8) (o l : Nat) : Prop where
  header : Header d m
  len : (iphLen 0 m).toNat = ipHlen + l
  offset : ((iphOffset 0 m &&& ipOffmask) * 8).toNat = o
  inside : o + l ≤ d.payload.length
  data : m.slice ipHlen l = (d.payload.drop o).take l
  more : (iphOffset 0 m &&& ipMf) ≠ 0 ↔ o + l ≠ d.payload.length
  whole : o + l ≠ d.payload.length → l % 8 = 0
  valid : Valid (m.slice 0 ipHlen)

/-- How many bytes all fragments but the last have. -/
def chunk (mtu : UInt16) : Nat := (mtu.toNat - ipHlen) / 8 * 8

/-- The fragments from `o` on, with at most `mtu` bytes.  There may be bytes behind one. -/
inductive Cut (d : Datagram) (mtu : UInt16) : Nat → List (List UInt8) → Prop
  | last {o l n : Nat} {m : Mem UInt8} : 0 < l → o + l = d.payload.length → Fragment d m o l →
      ipHlen + l ≤ n → ipHlen + l ≤ mtu.toNat → Cut d mtu o [m.slice 0 n]
  | more {o n : Nat} {m : Mem UInt8} {fs : List (List UInt8)} : o + chunk mtu < d.payload.length →
      Fragment d m o (chunk mtu) → ipHlen + chunk mtu ≤ n → Cut d mtu (o + chunk mtu) fs →
      Cut d mtu o (m.slice 0 n :: fs)

theorem fragHeader_outside (cop : UInt16) (buf : Mem UInt8) {x : Nat}
    (hx : x < 2 ∨ 4 ≤ x ∧ x < 10 ∨ 12 ≤ x) : fragHeader cop buf x = buf x := by
  unfold fragHeader iphLenSet iphChksumSet
  rw [store16_outside _ (by omega), store16_outside _ (by omega), store16_outside _ (by omega)]

/-! ### The loop -/

theorem nfb_toNat (mtu : UInt16) (h : ipHlen ≤ mtu.toNat) :
    (UInt16.ofInt ((mtu.toNat - ipHlen : Int).tdiv 8)).toNat = (mtu.toNat - ipHlen) / 8 := by
  have hlt := mtu.toNat_lt
  have hdiv : (mtu.toNat - ipHlen : Int).tdiv 8 = ((mtu.toNat - ipHlen) / 8 : Nat) := by
    rw [← Int.ofNat_sub h]
    rfl
  rw [hdiv]
  unfold UInt16.ofInt
  rw [UInt16.toNat_ofNat']
  omega

/-- The buffer of a fragment that is put together. -/
def filled (last : Bool) (ofo cop : UInt16) (data : List UInt8) (buf : Mem UInt8) : Mem UInt8 :=
  fragHeader cop
    ((iphOffsetSet 0 buf (offsetField last ofo)).store ipHlen cop.toNat fun i => data.getD i 0)

/-- One fragment. -/
theorem filled_fragment (last : Bool) {ofo cop : UInt16} (h : Header d buf)
    (hofo : ofo.toNat * 8 = o) (hcop : cop.toNat = l) (hinside : o + l ≤ d.payload.length)
    (hlast : last = true ↔ o + l = d.payload.length) (hwhole : last = false → l % 8 = 0) :
    Header d (filled last ofo cop ((d.payload.drop o).take l) buf) ∧
      Fragment d (filled last ofo cop ((d.payload.drop o).take l) buf) o l := by
  have hsmall := d.small
  unfold ipReassBufsize at hsmall
  have hnot : last = false ↔ o + l ≠ d.payload.length := by
    rw [ne_eq, ← hlast, Bool.not_eq_true]
  set data := (d.payload.drop o).take l with hdata
  have hlen : data.length = l := by
    rw [hdata, List.length_take, List.length_drop]
    omega
  set m := (iphOffsetSet 0 buf (offsetField last ofo)).store ipHlen cop.toNat
    fun i => data.getD i 0 with hm
  have hsame : SameHeader 0 0 buf (filled last ofo cop data buf) := by
    intro k hk
    unfold filled
    rw [fragHeader_outside _ _ (by omega), ← hm, hm, Mem.store_outside _ _ (by unfold ipHlen; omega)]
    exact store16_outside _ (by omega)
  have hheader : Header d (filled last ofo cop data buf) :=
    .congr hsame h.vhl h.proto h.src h.dest h.ident
  have hoffset : iphOffset 0 (filled last ofo cop data buf) = offsetField last ofo := by
    have hload : iphOffset 0 (filled last ofo cop data buf) = iphOffset 0 m :=
      load16_congr fun k hk => fragHeader_outside _ _ (by omega)
    have hload' : iphOffset 0 m = iphOffset 0 (iphOffsetSet 0 buf (offsetField last ofo)) :=
      load16_congr fun k hk => Mem.store_outside _ _ (by unfold ipHlen; omega)
    rw [hload, hload']
    exact load16_store16 _ _ _
  refine ⟨hheader, hheader, ?_, ?_, hinside, ?_, ?_, fun he => hwhole (hnot.mpr he), ?_⟩
  · have hlen' : iphLen 0 (filled last ofo cop data buf) = cop + UInt16.ofNat ipHlen := by
      unfold iphLen filled fragHeader iphLenSet iphChksumSet
      simp (disch := omega) only [load16_store16, load16_store16_of_disjoint]
    rw [hlen', UInt16.toNat_add, hcop]
    show (l + 20) % 65536 = 20 + l
    omega
  · rw [hoffset, offsetField_toNat last (by omega), hofo]
  · have hslice : (filled last ofo cop data buf).slice ipHlen l = m.slice ipHlen l :=
      slice_congr fun i hi => fragHeader_outside _ _ (by unfold ipHlen; omega)
    rw [hslice, hm, hcop, Mem.slice_store]
    conv_lhs => rw [← hlen, Mem.map_getD]
  · rw [hoffset, offsetField_mf]
    exact hnot
  · exact valid_iphChksumSet _

/-- The chain is read from byte `o` of the payload on. -/
def At (d : Datagram) (mem : Mem UInt8) (p : List Pbuf) (poff : UInt16) (o : Nat) : Prop :=
  ∃ q qs, p = q :: qs ∧ poff.toNat ≤ q.len.toNat ∧
    (Pbuf.chain mem p).drop poff.toNat = d.payload.drop o

theorem At.copy {p : List Pbuf} {poff cop : UInt16} (h : At d mem p poff o) (hne : cop ≠ 0)
    (hinside : o + cop.toNat ≤ d.payload.length) :
    ∃ p' poff', copyFromPbuf mem p poff cop = some ((d.payload.drop o).take cop.toNat, p', poff') ∧
      At d mem p' poff' (o + cop.toNat) := by
  obtain ⟨q, qs, rfl, hoff, hdrop⟩ := h
  have hpos : 0 < cop.toNat := Nat.pos_of_ne_zero fun hz => hne (UInt16.toNat.inj hz)
  have hlen := congrArg List.length hdrop
  rw [List.length_drop, List.length_drop] at hlen
  have hlong : poff.toNat + cop.toNat ≤ (Pbuf.chain mem (q :: qs)).length := by omega
  obtain ⟨q', qs', off', hcopy, hrest⟩ := copyFromPbuf_eq hoff hlong
  obtain ⟨hoff', hdrop'⟩ := hrest hne
  rw [hdrop] at hcopy
  refine ⟨q' :: qs', off', hcopy, q', qs', rfl, hoff', ?_⟩
  rw [hdrop', ← List.drop_drop, hdrop, List.drop_drop]

/-- From byte `o` of the payload on. -/
theorem fragLoop_cut {mtu : UInt16} {alloc : Nat → Bool} (hmtu : 28 ≤ mtu.toNat)
    (hmax : mtu.toNat ≤ maxMtu) (halloc : ∀ k, alloc k = true) {p : List Pbuf}
    {poff ofo nfb left : UInt16} {k : Nat}
    (hat : At d mem p poff o) (hbuf : Header d buf) (hofo : (ofo + nfb).toNat * 8 = o)
    (hleft : o + left.toNat = d.payload.length) (hne : left ≠ 0) :
    ∃ fs, fragLoop mem mtu 0 alloc p poff ofo nfb left buf k = (fs, .ok) ∧ Cut d mtu o fs := by
  have hsmall := d.small
  unfold ipReassBufsize at hsmall
  have hnfb := nfb_toNat mtu (by unfold ipHlen; omega)
  set nfb' := UInt16.ofInt ((mtu.toNat - ipHlen : Int).tdiv 8) with hnfb'
  induction hn : left.toNat using Nat.strong_induction_on generalizing p poff ofo nfb left k o buf with
  | _ n ih =>
      subst hn
      rw [fragLoop, dif_neg hne]
      by_cases hlast : left.toNat + ipHlen ≤ mtu.toNat
      · obtain ⟨p', poff', hcopy, -⟩ := hat.copy hne hleft.le
        obtain ⟨hbuf', hfrag⟩ := filled_fragment true hbuf hofo rfl hleft.le (by simp [hleft])
          (fun h => by simp at h)
        have hpos : 0 < left.toNat := Nat.pos_of_ne_zero fun hz => hne (UInt16.toNat.inj hz)
        have hlen : (left + UInt16.ofNat ipHlen).toNat = ipHlen + left.toNat := by
          rw [UInt16.toNat_add]
          show (left.toNat + 20) % 65536 = 20 + left.toNat
          omega
        have hfits : ¬ maxMtu < ipHlen + left.toNat := by omega
        simp only [hlast, decide_true, if_true, hcopy, if_neg hfits, halloc, dif_neg hne, le_refl,
          dite_true, UInt16.sub_self]
        rw [fragLoop, dif_pos rfl]
        exact ⟨_, rfl, Cut.last hpos hleft hfrag hlen.ge (by omega)⟩
      · have hcop : (nfb' * 8).toNat = chunk mtu := by
          rw [UInt16.toNat_mul, hnfb]
          have := mtu.toNat_lt
          show (mtu.toNat - ipHlen) / 8 * 8 % 65536 = (mtu.toNat - ipHlen) / 8 * 8
          omega
        have hchunk : 0 < chunk mtu ∧ chunk mtu + ipHlen ≤ mtu.toNat := by
          unfold chunk ipHlen
          omega
        have hcop0 : nfb' * 8 ≠ 0 := by
          intro hz
          rw [hz, UInt16.toNat_zero] at hcop
          omega
        obtain ⟨p', poff', hcopy, hat'⟩ := hat.copy hcop0 (by omega)
        rw [hcop] at hcopy hat'
        obtain ⟨hbuf', hfrag⟩ := filled_fragment false hbuf hofo hcop (by omega)
          (by simp; omega) (fun _ => by unfold chunk; omega)
        have hsub : (left - nfb' * 8).toNat = left.toNat - chunk mtu := by
          rw [UInt16.toNat_sub_of_le _ _ (by rw [UInt16.le_iff_toNat_le]; omega), hcop]
        have hne' : left - nfb' * 8 ≠ 0 := by
          intro hz
          rw [hz, UInt16.toNat_zero] at hsub
          omega
        have hofo' : (ofo + nfb + nfb').toNat * 8 = o + chunk mtu := by
          unfold chunk at *
          rw [UInt16.toNat_add, hnfb]
          omega
        obtain ⟨fs, hrest, hcut⟩ := ih (left.toNat - chunk mtu) (by omega) hat' hbuf' hofo'
          (by omega) hne' hsub (k := k + 1)
        have hle : (nfb' * 8).toNat ≤ left.toNat := by omega
        have hroom : ipHlen + chunk mtu ≤ mtu.toNat := by omega
        have hfits : ¬ maxMtu < ipHlen + (nfb' * 8).toNat := by omega
        simp only [hlast, decide_false, Bool.false_eq_true, if_false, ← hnfb', hcopy, if_neg hfits,
          halloc, if_true, dif_neg hcop0, dif_pos hle]
        refine ⟨_, ?_, Cut.more (by omega) hfrag hroom hcut⟩
        exact congrArg (fun r : List (List UInt8) × FragEnd => (_ :: r.1, r.2)) hrest

/-- The chain is a whole datagram, with a header of its own in the first `pbuf`. -/
structure Sendable (d : Datagram) (mem : Mem UInt8) (q : Pbuf) (qs : List Pbuf) : Prop where
  vhl : mem q.payload = d.vhl
  proto : iphProto q.payload mem = d.proto
  src : Ip.src q.payload mem = d.src
  dest : Ip.dest q.payload mem = d.dest
  ident : iphId q.payload mem = d.ident
  offset : iphOffset q.payload mem &&& (ipOffmask ||| ipMf) = 0
  first : ipHlen ≤ q.len.toNat
  data : (Pbuf.chain mem (q :: qs)).drop ipHlen = d.payload
  total : q.totLen.toNat = (Pbuf.chain mem (q :: qs)).length

theorem Sendable.totLen_eq (h : Sendable d mem q qs) : q.totLen.toNat = ipHlen + d.payload.length := by
  have hfirst := h.first
  have hle : q.len.toNat ≤ (Pbuf.chain mem (q :: qs)).length := by
    rw [Pbuf.chain_cons, List.length_append, Pbuf.bytes_length]
    omega
  have hdata := congrArg List.length h.data
  rw [List.length_drop] at hdata
  rw [h.total]
  omega

/-- What `ip_frag` gives the interface. -/
theorem ipFrag_cut {mtu : UInt16} {alloc : Nat → Bool} (h : Sendable d mem q qs)
    (hmtu : 28 ≤ mtu.toNat) (hmax : mtu.toNat ≤ maxMtu) (halloc : ∀ k, alloc k = true)
    (hne : d.payload ≠ []) (buf : Mem UInt8) :
    ∃ fs, ipFrag mem mtu true alloc (q :: qs) buf = (fs, .ok) ∧ Cut d mtu 0 fs := by
  have htotal := h.totLen_eq
  have hpos := List.length_pos_iff.mpr hne
  set buf' : Mem UInt8 := buf.store 0 ipHlen fun k => mem (q.payload + k) with hbuf'
  have hcopied : ∀ k < 20, buf' (0 + k) = mem (q.payload + k) :=
    fun k hk => Mem.store_at buf 0 (fun k => mem (q.payload + k)) hk
  have hheader : Header d buf' :=
    .congr (fun k hk => hcopied k (by omega)) h.vhl h.proto h.src h.dest h.ident
  have hoff : iphOffset 0 buf' = iphOffset q.payload mem := by
    refine load16_congr fun k hk => ?_
    rw [Nat.add_assoc, Nat.add_assoc]
    exact hcopied (6 + k) (by omega)
  have hmask : ∀ w : UInt16, w &&& (ipOffmask ||| ipMf) = 0 → w &&& ipOffmask = 0 ∧ w &&& ipMf = 0 := by
    intro w hw
    have hsub : ∀ m : UInt16, (ipOffmask ||| ipMf) &&& m = m → w &&& m = 0 := by
      intro m hm
      rw [← hm, ← UInt16.and_assoc, hw, UInt16.zero_and]
    exact ⟨hsub _ rfl, hsub _ rfl⟩
  obtain ⟨hzero, hzero'⟩ := hmask _ h.offset
  have hleft : (q.totLen - UInt16.ofNat ipHlen).toNat = d.payload.length := by
    have hle : UInt16.ofNat ipHlen ≤ q.totLen := by
      rw [UInt16.le_iff_toNat_le]
      show 20 ≤ _
      rw [htotal]
      exact Nat.le_add_right _ _
    rw [UInt16.toNat_sub_of_le _ _ hle, htotal]
    exact Nat.add_sub_cancel_left _ _
  have hleft0 : q.totLen - UInt16.ofNat ipHlen ≠ 0 := by
    intro hz
    rw [hz, UInt16.toNat_zero] at hleft
    omega
  have hat : At d mem (q :: qs) (UInt16.ofNat ipHlen) 0 := ⟨q, qs, rfl, h.first, h.data⟩
  have hofo : ((0 : UInt16) + 0).toNat * 8 = 0 := rfl
  obtain ⟨fs, hrun, hcut⟩ := fragLoop_cut (k := 0) hmtu hmax halloc hat hheader hofo
    (by rw [hleft, Nat.zero_add]) hleft0
  refine ⟨fs, ?_, hcut⟩
  unfold ipFrag
  simp only [if_true, ← hbuf', hoff, hzero, hzero']
  exact hrun

/-! ### All of the fragments -/

/-- Fragment `k` of `n`. -/
def cutPiece (d : Datagram) (c n k : Nat) : Nat × Nat :=
  (k * c, if k + 1 = n then d.payload.length - k * c else c)

variable {mtu : UInt16} {fs : List (List UInt8)}

theorem Cut.length_pos (h : Cut d mtu o fs) : 0 < fs.length := by
  cases h <;> simp

/-- What is too long is cut. -/
theorem Cut.one_lt (h : Cut d mtu o fs) (hbig : o + mtu.toNat < ipHlen + d.payload.length) :
    1 < fs.length := by
  cases h with
  | last _ _ _ _ _ => omega
  | more _ _ _ hcut =>
      have hpos := hcut.length_pos
      rw [List.length_cons]
      omega

theorem Cut.lt_length (h : Cut d mtu o fs) :
    o + (fs.length - 1) * chunk mtu < d.payload.length := by
  induction h with
  | last hpos hend _ _ _ =>
      simp
      omega
  | @more o n m fs hlt _ _ hcut ih =>
      have hpos := hcut.length_pos
      have hmul : fs.length * chunk mtu = (fs.length - 1) * chunk mtu + chunk mtu := by
        rw [← Nat.succ_mul, Nat.succ_eq_add_one, Nat.sub_add_cancel hpos]
      rw [List.length_cons, Nat.add_sub_cancel, hmul]
      omega

/-- Each of the fragments. -/
theorem Cut.get (h : Cut d mtu o fs) {k : Nat} {f : List UInt8}
    (hk : fs[k]? = some f) : ∃ m n, f = m.slice 0 n ∧
      ipHlen + (if k + 1 = fs.length then d.payload.length - (o + k * chunk mtu) else chunk mtu) ≤ n ∧
      Fragment d m (o + k * chunk mtu)
        (if k + 1 = fs.length then d.payload.length - (o + k * chunk mtu) else chunk mtu) := by
  induction h generalizing k with
  | @last o l n m hpos hend hfrag hn _ =>
      cases k with
      | zero =>
          have hl : d.payload.length - o = l := by omega
          refine ⟨m, n, (Option.some.inj hk).symm, ?_, ?_⟩
          · simpa [hl] using hn
          · simpa [hl] using hfrag
      | succ k => simp at hk
  | @more o n m fs hlt hfrag hn hcut ih =>
      cases k with
      | zero =>
          have hpos := hcut.length_pos
          have hne : ¬0 + 1 = (m.slice 0 n :: fs).length := by
            rw [List.length_cons]
            omega
          refine ⟨m, n, (Option.some.inj hk).symm, ?_, ?_⟩
          · rwa [if_neg hne]
          · rwa [if_neg hne, Nat.zero_mul]
      | succ k =>
          obtain ⟨m', n', hf, hn', hfrag'⟩ := ih hk
          have hcond : (k + 1 + 1 = (m.slice 0 n :: fs).length) = (k + 1 = fs.length) := by
            rw [List.length_cons, Nat.add_right_cancel_iff]
          have hoff : o + (k + 1) * chunk mtu = o + chunk mtu + k * chunk mtu := by
            rw [Nat.succ_mul]
            omega
          refine ⟨m', n', hf, ?_, ?_⟩
          · simpa only [hcond, hoff] using hn'
          · simpa only [hcond, hoff] using hfrag'

theorem mul_add_le {c j k : Nat} (h : j < k) : j * c + c ≤ k * c := by
  rw [← Nat.succ_mul]
  exact Nat.mul_le_mul_right c h

theorem cutPiece_last {c n k : Nat} (h : k + 1 = n) :
    cutPiece d c n k = (k * c, d.payload.length - k * c) := by
  unfold cutPiece
  rw [if_pos h]

theorem cutPiece_more {c n k : Nat} (h : k + 1 ≠ n) : cutPiece d c n k = (k * c, c) := by
  unfold cutPiece
  rw [if_neg h]

/-- A fragment that is missing leaves its units out. -/
theorem not_covers {c n k u : Nat} {I : List Nat} (hI : ∀ j ∈ I, j < n) (hk : k ∉ I) (hkn : k < n)
    (hlo : k * c / 8 ≤ u) (hhi : u < (k * c + c) / 8) : ¬Covers (I.map (cutPiece d c n)) u := by
  rintro ⟨x, hx, hlo', hhi'⟩
  obtain ⟨j, hj, rfl⟩ := List.mem_map.mp hx
  have hjn := hI j hj
  have hfst : (cutPiece d c n j).1 = j * c := rfl
  rcases Nat.lt_trichotomy j k with hlt | rfl | hgt
  · have hmul := mul_add_le (c := c) hlt
    rw [cutPiece_more (by omega)] at hhi'
    simp only at hhi'
    omega
  · exact hk hj
  · have hmul := mul_add_le (c := c) hgt
    omega

/-- All of them leave out nothing. -/
theorem covers_of_all {c n u : Nat} {I : List Nat} (hc : 64 < c) (hunit : c % 8 = 0) (hn : 0 < n)
    (hall : ∀ k < n, k ∈ I) (hu : u < d.payload.length / 8) : Covers (I.map (cutPiece d c n)) u := by
  -- the fragment that byte `8 * u` is in
  by_cases hk : 8 * u / c < n - 1
  · refine ⟨_, List.mem_map.mpr ⟨8 * u / c, hall _ (by omega), rfl⟩, ?_⟩
    have hdiv := Nat.div_add_mod (8 * u) c
    have hmod := Nat.mod_lt (8 * u) (show 0 < c by omega)
    rw [Nat.mul_comm] at hdiv
    rw [cutPiece_more (by omega)]
    set a := 8 * u / c * c with ha
    have hdvd : 8 ∣ a := ha ▸ Dvd.dvd.mul_left (Nat.dvd_of_mod_eq_zero hunit) _
    simp only
    omega
  · refine ⟨_, List.mem_map.mpr ⟨n - 1, hall _ (by omega), rfl⟩, ?_⟩
    have hle : (n - 1) * c ≤ 8 * u := (Nat.le_div_iff_mul_le (by omega)).mp (Nat.le_of_not_lt hk)
    rw [cutPiece_last (by omega)]
    simp only
    omega

/-- If a fragment is longer than what is not tested, then all of them are needed. -/
theorem enough_iff {c n : Nat} {I : List Nat} (hI : ∀ k ∈ I, k < n) (hc : 64 < c) (hunit : c % 8 = 0)
    (hn : 0 < n) (hlast : (n - 1) * c < d.payload.length) :
    Enough d (I.map (cutPiece d c n)) ↔ ∀ k < n, k ∈ I := by
  constructor
  · rintro ⟨⟨x, hx, hend⟩, hunits⟩ k hk
    obtain ⟨j, hj, rfl⟩ := List.mem_map.mp hx
    by_cases hkn : k + 1 = n
    · -- only the last one ends the datagram
      by_cases hjn : j + 1 = n
      · rwa [show k = j by omega]
      · have hjlt := hI j hj
        have hmul := mul_add_le (c := c) (show j < n - 1 by omega)
        rw [cutPiece_more hjn] at hend
        simp only at hend
        omega
    · -- one of two units that are eight apart is tested
      by_contra hmissing
      have hmul := mul_add_le (c := c) (show k < n - 1 by omega)
      by_cases hblock : k * c / 8 / 8 + 1 = d.payload.length / 64
      · exact not_covers hI hmissing hk (by omega) (by omega)
          (hunits (k * c / 8 + 8) (by omega) (by omega))
      · exact not_covers hI hmissing hk (by omega) (by omega) (hunits (k * c / 8) (by omega) hblock)
  · intro hall
    refine ⟨?_, fun u hu _ => covers_of_all hc hunit hn hall hu⟩
    refine ⟨_, List.mem_map.mpr ⟨n - 1, hall _ (by omega), rfl⟩, ?_⟩
    rw [cutPiece_last (by omega)]
    simp only
    omega

/-! ### On the way -/

/-- A receiver has the bytes in a chain of its own, with the header in the first `pbuf`, and perhaps
more bytes behind. -/
structure Carried (f : List UInt8) (mem : Mem UInt8) (q : Pbuf) (qs : List Pbuf) : Prop where
  first : ipHlen ≤ q.len.toNat
  total : q.totLen.toNat = (Pbuf.chain mem (q :: qs)).length
  bytes : ∃ pad, Pbuf.chain mem (q :: qs) = f ++ pad

/-- The receiver has an interface with the address. -/
def HasAddr (netifs : List Netif) (addr : UInt32) : Prop :=
  ∃ netif ∈ netifs, netif.up = true ∧ isany netif.ipAddr = false ∧ netif.ipAddr = addr

/-- `ip_input` gives a fragment to `ip_reass`, as a piece. -/
theorem ipInput_fragment {netifs : List Netif} (inp : Netif) {m : Mem UInt8} (hf : Fragment d m o l)
    (hvhl : d.vhl = 0x45) (hpart : l ≠ d.payload.length) (hn : ipHlen + l ≤ n)
    (hc : Carried (m.slice 0 n) mem q qs) (hup : HasAddr netifs d.dest) :
    ∃ q' qs', ipInput netifs inp (q :: qs) mem = .reass (q' :: qs') ∧ Piece d mem q' qs' o l := by
  obtain ⟨pad, hbytes⟩ := hc.bytes
  have hfirst := hc.first
  unfold ipHlen at hfirst
  -- the header is what the fragment begins with
  have hslice : mem.slice q.payload ipHlen = m.slice 0 ipHlen := by
    rw [← Pbuf.take_chain mem hc.first qs, hbytes,
      List.take_append_of_le_length (by rw [Mem.slice_length]; omega)]
    exact Mem.take_slice m 0 (by omega)
  have hbyte : ∀ k < 20, mem (q.payload + k) = m (0 + k) := by
    intro k hk
    have hget := congrArg (fun bs => bs[k]?) hslice
    unfold Mem.slice ipHlen at hget
    simpa [hk] using hget
  have hword : ∀ a < 19, load16 mem (q.payload + a) = load16 m (0 + a) := by
    intro a ha
    refine load16_congr fun k hk => ?_
    rw [Nat.add_assoc, Nat.add_assoc]
    exact hbyte (a + k) (by omega)
  have hlen : iphLen q.payload mem = iphLen 0 m := hword 2 (by omega)
  have hoffset : iphOffset q.payload mem = iphOffset 0 m := hword 6 (by omega)
  have hsame : SameHeader 0 q.payload m mem := fun k hk => hbyte k (by omega)
  have hv : mem q.payload = 0x45 := by rw [hsame.vhl, hf.header.vhl, hvhl]
  obtain ⟨hversion, hhl⟩ := version_hl hv
  have hhl4 : (iphHl q.payload mem * 4).toNat = ipHlen := by
    rw [hhl]
    rfl
  -- what is left when the bytes behind it are cut off
  obtain ⟨q', qs', hcut, hpay, -, -, -, hmin⟩ := pbufRealloc_cons (iphLen q.payload mem) hc.total
  have htake := chain_pbufRealloc (iphLen q.payload mem) hc.total
  have hwhole : Pbuf.chain mem (q' :: qs') = m.slice 0 (ipHlen + l) := by
    rw [← hcut, htake, hlen, hf.len, hbytes,
      List.take_append_of_le_length (by rw [Mem.slice_length]; exact hn)]
    exact Mem.take_slice m 0 hn
  rw [hlen, hf.len] at hmin
  refine ⟨q', qs', ?_, ?_⟩
  · have hhdr : ¬iphHl q.payload mem * 4 > q.len := by
      rw [gt_iff_lt, UInt16.lt_iff_toNat_lt, hhl4]
      exact Nat.not_lt.mpr hc.first
    have hchk : ¬Inet.inetChksum (mem.slice q.payload (iphHl q.payload mem * 4).toNat) ≠ 0 := by
      rw [hhl4, not_not, hslice, Inet.inetChksum_eq_zero (by rw [Mem.slice_length]; decide)]
      exact hf.valid
    have hus : forUs netifs q.payload (iphHl q.payload mem * 4).toNat mem = true := by
      obtain ⟨netif, hmem, h₁, h₂, h₃⟩ := hup
      unfold forUs
      rw [Bool.or_eq_true, List.any_eq_true]
      refine Or.inl ⟨netif, hmem, ?_⟩
      rw [h₃] at h₂
      simp [h₁, h₂, h₃, hsame.dest, hf.header.dest]
    have hfrag : (iphOffset q.payload mem &&& (ipOffmask ||| ipMf)) ≠ 0 := by
      intro hzero
      have hmask : ∀ w : UInt16, (ipOffmask ||| ipMf) &&& w = w → iphOffset 0 m &&& w = 0 := by
        intro w hw
        rw [← hw, ← UInt16.and_assoc, ← hoffset, hzero, UInt16.zero_and]
      have ho : o = 0 := by
        rw [← hf.offset, hmask ipOffmask rfl]
        rfl
      have hmf : ¬(iphOffset 0 m &&& ipMf) ≠ 0 := not_not.mpr (hmask ipMf rfl)
      rw [hf.more, not_not] at hmf
      omega
    unfold ipInput
    simp only [hversion, ne_eq, not_true, if_false, if_neg hhdr, if_neg hchk, hus, Bool.not_true,
      Bool.false_eq_true, if_pos hfrag, hcut]
  · constructor
    · rw [hpay, hv, hvhl]
    · rw [hpay, hsame.proto, hf.header.proto]
    · rw [hpay, hsame.src, hf.header.src]
    · rw [hpay, hsame.dest, hf.header.dest]
    · rw [hpay, hsame.ident, hf.header.ident]
    · rw [hpay, hhl4]
      unfold ipHlen at hmin ⊢
      omega
    · rw [hpay, hhl4, hlen, hf.len]
    · rw [hpay, hoffset, hf.offset]
    · exact hf.inside
    · rw [hpay, hhl4, hwhole, Mem.slice_add, List.drop_left' (Mem.slice_length _ _ _), Nat.zero_add,
        List.take_of_length_le (Mem.slice_length _ _ _).le, hf.data]
    · rw [hpay, hoffset, hf.more]
    · exact hf.whole

/-- The receiver's buffer after fragments in any order, some of them more than once, with fragments
of other datagrams between them. -/
inductive Relayed (netifs : List Netif) (inp : Netif) (d : Datagram) (fs : List (List UInt8)) :
    List Nat → Reass → Prop
  | start {st : Reass} : st.tmr = 0 → Relayed netifs inp d fs [] st
  | frag {st st' : Reass} {I : List Nat} {k : Nat} {f : List UInt8} {mem : Mem UInt8} {q : Pbuf}
      {qs p : List Pbuf} : Relayed netifs inp d fs I st → fs[k]? = some f → Carried f mem q qs →
      ipInput netifs inp (q :: qs) mem = .reass p → ipReass p mem st = some (none, st') →
      Relayed netifs inp d fs (k :: I) st'
  | other {st st' : Reass} {I : List Nat} {r : Option (List UInt8)} {mem : Mem UInt8} {q : Pbuf}
      {qs : List Pbuf} : Relayed netifs inp d fs I st → I ≠ [] → Foreign d mem q →
      ipReass (q :: qs) mem st = some (r, st') → Relayed netifs inp d fs I st'

variable {netifs : List Netif} {inp : Netif} {I : List Nat} {st : Reass}

/-- Fragment `k` as it arrives. -/
theorem Cut.arrives {k : Nat} {f : List UInt8} (hcut : Cut d mtu 0 fs) (hmany : 1 < fs.length)
    (hpos : 0 < chunk mtu) (hvhl : d.vhl = 0x45) (hk : fs[k]? = some f) (hc : Carried f mem q qs)
    (hup : HasAddr netifs d.dest) (inp : Netif) :
    ∃ q' qs', ipInput netifs inp (q :: qs) mem = .reass (q' :: qs') ∧
      Piece d mem q' qs' (cutPiece d (chunk mtu) fs.length k).1
        (cutPiece d (chunk mtu) fs.length k).2 := by
  obtain ⟨m, n, rfl, hn, hfrag⟩ := hcut.get hk
  have hlt := hcut.lt_length
  have hk' := (List.getElem?_eq_some_iff.mp hk).1
  simp only [Nat.zero_add] at hn hfrag hlt
  have hmul : chunk mtu ≤ (fs.length - 1) * chunk mtu := Nat.le_mul_of_pos_left _ (by omega)
  unfold cutPiece
  refine ipInput_fragment inp hfrag hvhl ?_ hn hc hup
  split
  · next hlast =>
      rw [← hlast, Nat.add_sub_cancel] at hlt hmul
      omega
  · omega

theorem Relayed.collects (hcut : Cut d mtu 0 fs) (hmany : 1 < fs.length) (hpos : 0 < chunk mtu)
    (hvhl : d.vhl = 0x45) (hup : HasAddr netifs d.dest) (h : Relayed netifs inp d fs I st) :
    Collects d (I.map (cutPiece d (chunk mtu) fs.length)) st ∧ ∀ k ∈ I, k < fs.length := by
  induction h with
  | start htmr => exact ⟨Collects.start htmr, by simp⟩
  | frag _ hk hc hin hrun ih =>
      obtain ⟨hcol, hI⟩ := ih
      obtain ⟨q', qs', hin', hp⟩ := hcut.arrives hmany hpos hvhl hk hc hup inp
      rw [hin', Verdict.reass.injEq] at hin
      rw [← hin] at hrun
      exact ⟨Collects.piece hcol hp hrun,
        List.forall_mem_cons.mpr ⟨(List.getElem?_eq_some_iff.mp hk).1, hI⟩⟩
  | other _ hI hf hrun ih =>
      exact ⟨Collects.foreign ih.1 (by simpa using hI) hf hrun, ih.2⟩

/-- The fragments of a datagram that was cut are enough exactly if they are all there. -/
theorem Cut.delivers {k : Nat} {f : List UInt8} (hcut : Cut d mtu 0 fs) (hvhl : d.vhl = 0x45)
    (hmtu : 92 ≤ mtu.toNat) (hbig : mtu.toNat < ipHlen + d.payload.length)
    (hup : HasAddr netifs d.dest) (hrel : Relayed netifs inp d fs I st)
    (hk : fs[k]? = some f) (hc : Carried f mem q qs) :
    ∃ p r st', ipInput netifs inp (q :: qs) mem = .reass p ∧ ipReass p mem st = some (r, st') ∧
      (r.isSome ↔ ∀ j < fs.length, j ∈ k :: I) ∧
      ∀ bytes, r = some bytes → st'.tmr = 0 ∧
        ∃ s m, bytes = m.slice 0 (ipHlen + d.payload.length) ∧ Joined d s m ∧
          m.slice ipHlen d.payload.length = d.payload := by
  have hlt := hcut.lt_length
  have hpos := hcut.length_pos
  have hchunk : 64 < chunk mtu ∧ chunk mtu % 8 = 0 := by
    unfold chunk ipHlen
    omega
  have hmany := hcut.one_lt (by omega)
  have hk' := (List.getElem?_eq_some_iff.mp hk).1
  obtain ⟨hcol, hI⟩ := hrel.collects hcut hmany (by omega) hvhl hup
  obtain ⟨q', qs', hin, hp⟩ := hcut.arrives hmany (by omega) hvhl hk hc hup inp
  obtain ⟨r, st', heq, hsome, hbytes⟩ := receive_piece hcol.holds hp (by unfold ipHlen at hbig; omega)
  have hall : Enough d ((k :: I).map (cutPiece d (chunk mtu) fs.length)) ↔ ∀ j < fs.length, j ∈ k :: I :=
    enough_iff (List.forall_mem_cons.mpr ⟨hk', hI⟩) hchunk.1 hchunk.2 hpos (by omega)
  have hiff : r.isSome ↔ ∀ j < fs.length, j ∈ k :: I := hsome.trans hall
  refine ⟨_, r, st', hin, heq, hiff, ?_⟩
  intro bytes hr
  obtain ⟨htmr, m, hm, hjoin⟩ := hbytes bytes hr
  have hsome' : r.isSome := by rw [hr]; rfl
  have hunits : ∀ x ∈ (k :: I).map (cutPiece d (chunk mtu) fs.length), x.1 % 8 = 0 :=
    List.forall_mem_cons.mpr ⟨hp.unit, hcol.units⟩
  refine ⟨htmr, _, m, hm, hjoin, ?_⟩
  have hread : m.slice ipHlen d.payload.length
      = (List.range d.payload.length).map fun i => d.payload.getD i 0 := by
    refine List.map_congr_left fun i hi => hjoin.data i ?_
    exact has_of_covers hunits (hsome.mp hsome').1 (List.mem_range.mp hi)
      fun hu => covers_of_all hchunk.1 hchunk.2 hpos (hiff.mp hsome') hu
  rw [hread, Mem.map_getD]

/-- **A datagram that is cut for a link is put together again**, once all of its fragments have
come, whatever the order, and not before.  What is delivered has a right header and the whole
payload. -/
theorem ipFrag_relays {mem₀ : Mem UInt8} {q₀ : Pbuf} {qs₀ : List Pbuf}
    {alloc : Nat → Bool} {e : FragEnd} {k : Nat} {f : List UInt8}
    -- the sender
    (hs : Sendable d mem₀ q₀ qs₀) (hvhl : d.vhl = 0x45) (hmtu : 92 ≤ mtu.toNat)
    (hmax : mtu.toNat ≤ maxMtu) (hbig : mtu.toNat < q₀.totLen.toNat) (halloc : ∀ k, alloc k = true)
    (hfrag : ipFrag mem₀ mtu true alloc (q₀ :: qs₀) buf = (fs, e))
    -- the receiver
    (hup : HasAddr netifs d.dest) (hrel : Relayed netifs inp d fs I st)
    (hk : fs[k]? = some f) (hc : Carried f mem q qs) :
    e = .ok ∧ ∃ p r st', ipInput netifs inp (q :: qs) mem = .reass p ∧
      ipReass p mem st = some (r, st') ∧ (r.isSome ↔ ∀ j < fs.length, j ∈ k :: I) ∧
      ∀ bytes, r = some bytes → st'.tmr = 0 ∧
        ∃ s m, bytes = m.slice 0 (ipHlen + d.payload.length) ∧ Joined d s m ∧
          m.slice ipHlen d.payload.length = d.payload := by
  have htotal := hs.totLen_eq
  have hne : d.payload ≠ [] := by
    intro hnil
    rw [hnil, List.length_nil] at htotal
    unfold ipHlen at htotal
    omega
  obtain ⟨fs', hrun, hcut⟩ := ipFrag_cut hs (show 28 ≤ mtu.toNat by omega) hmax halloc hne buf
  rw [hfrag, Prod.mk.injEq] at hrun
  obtain ⟨rfl, rfl⟩ := hrun
  exact ⟨rfl, hcut.delivers hvhl hmtu (htotal ▸ hbig) hup hrel hk hc⟩

/-! 73 bytes, for a link that takes 92: the first fragment arrives. -/

def long : Datagram := ⟨0x45, 17, 0x0a000001, 0x0a000002, 0, List.replicate 73 7, by decide⟩

def longMem : Mem UInt8 := fun x =>
  ([69, 0, 0, 93, 0, 0, 64, 0, 64, 17, 0, 0, 10, 0, 0, 1, 10, 0, 0, 2] ++ List.replicate 73 7
    : List UInt8).getD x 0

def longFrags : List (List UInt8) × FragEnd :=
  ipFrag longMem 92 true (fun _ => true) [⟨0, 0, 93, 93, .ram⟩] fun _ => 0

theorem longFrags_eq : ipFrag longMem 92 true (fun _ => true) [⟨0, 0, 93, 93, .ram⟩] (fun _ => 0)
    = longFrags := rfl

theorem ipFrag_relays_long : longFrags.2 = .ok ∧ ∃ p r st',
    ipInput [⟨0x0a000002, 0xffffff00, 1500, true, true⟩] ⟨0x0a000002, 0xffffff00, 1500, true, true⟩
        [⟨0, 0, 92, 92, .pool⟩] (fun x => (longFrags.1.getD 0 []).getD x 0) = .reass p ∧
      ipReass p (fun x => (longFrags.1.getD 0 []).getD x 0) ⟨fun _ => 0, fun _ => 0, 0, false, 0⟩
        = some (r, st') ∧
      (r.isSome ↔ ∀ j < longFrags.1.length, j ∈ [0]) := by
  have hsend : Sendable long longMem ⟨0, 0, 93, 93, .ram⟩ [] :=
    ⟨rfl, rfl, rfl, rfl, rfl, rfl, by decide, by decide +kernel, by decide +kernel⟩
  have hfirst : longFrags.1[0]? = some (longFrags.1.getD 0 []) := by decide +kernel
  have hcarried : Carried (longFrags.1.getD 0 []) (fun x => (longFrags.1.getD 0 []).getD x 0)
      ⟨0, 0, 92, 92, .pool⟩ [] :=
    ⟨by decide, by simp, [], by decide +kernel⟩
  have hup : HasAddr [⟨0x0a000002, 0xffffff00, 1500, true, true⟩] long.dest :=
    ⟨_, List.mem_singleton_self _, rfl, rfl, rfl⟩
  have hrel : Relayed [⟨0x0a000002, 0xffffff00, 1500, true, true⟩]
      ⟨0x0a000002, 0xffffff00, 1500, true, true⟩ long longFrags.1 []
      ⟨fun _ => 0, fun _ => 0, 0, false, 0⟩ :=
    Relayed.start rfl
  have hfrag : ipFrag longMem 92 true (fun _ => true) [⟨0, 0, 93, 93, .ram⟩] (fun _ => 0)
      = (longFrags.1, longFrags.2) :=
    longFrags_eq.trans Prod.mk.eta.symm
  obtain ⟨hend, p, r, st', hin, hrun, hsome, -⟩ := ipFrag_relays hsend rfl (by decide) (by decide)
    (by decide) (fun _ => rfl) hfrag hup hrel hfirst hcarried
  exact ⟨hend, p, r, st', hin, hrun, hsome⟩

end Xell.IpFrag
