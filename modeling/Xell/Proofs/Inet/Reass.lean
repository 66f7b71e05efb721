/-
Putting fragments together.

While a datagram is collected, the bitmap has exactly the units of eight bytes that its fragments
cover, and the buffer holds the datagram's bytes wherever a fragment has been.  `ip_reass` takes the
datagram as complete once the last fragment is there and the bitmap is full, but for one byte of it
that is not looked at: the one before the last.  So up to sixty-four bytes may be missing.  A
datagram that has less than them is never tested: `ip_reass` does not come back.
-/
import Xell.Lib.Bitmap
import Xell.Proofs.Inet.Stack
import Xell.IpFrag

namespace Xell.IpFrag

open Bitmap Ip Word

variable {mem : Mem UInt8} {bm : Mem UInt8} {st st' : Reass} {q : Pbuf} {qs : List Pbuf}

/-! ### The bitmap -/

theorem bit_bitmapBits : ∀ k < 8, ∀ j < 8, bit (bitmapBits k) j = decide (k ≤ j) := by decide

theorem bit_not_bitmapBits {k j : Nat} (hk : k < 8) (hj : j < 8) :
    bit (~~~bitmapBits k) j = decide (j < k) := by
  rw [bit_not, bit_bitmapBits k hk j hj, ← decide_not]
  exact decide_eq_decide.mpr (by omega)

/-- The units that a fragment covers are set, and no others. -/
theorem get_updateBitmap {offset last : Nat} (h : offset ≤ last) (bm : Mem UInt8) (u : Nat) :
    get (updateBitmap offset last bm) u = (get bm u || decide (offset / 8 ≤ u ∧ u < last / 8)) := by
  have h₁ := Nat.mod_lt (offset / 8) (show 0 < 8 by omega)
  have h₂ := Nat.mod_lt (last / 8) (show 0 < 8 by omega)
  have h₃ := Nat.mod_lt u (show 0 < 8 by omega)
  have hfrom := bit_bitmapBits _ h₁ _ h₃
  have hbelow := bit_not_bitmapBits h₂ h₃
  unfold updateBitmap orByte
  norm_num only
  split
  · next heq =>
      rw [get_or, bit_and, hfrom, hbelow, ← Bool.decide_and, ← Bool.decide_and]
      congr 1
      exact decide_eq_decide.mpr (by omega)
  · next hne =>
      rw [get_or, get_fill, get_or, hfrom, hbelow, ← Bool.decide_and, ← Bool.decide_and,
        Bool.or_assoc, Bool.or_assoc, ← Bool.decide_or, ← Bool.decide_or]
      congr 1
      exact decide_eq_decide.mpr (by omega)

/-- What `ip_reass` asks for. -/
theorem complete_eq_true (len : Nat) (bm : Mem UInt8) :
    complete len bm = true ↔ (∀ u < 8 * (len / 64 - 1), get bm u = true) ∧
      ∀ u, u / 8 = len / 64 → get bm u = decide (u < len / 8) := by
  have hmod := Nat.mod_lt (len / 8) (show 0 < 8 by omega)
  unfold complete
  norm_num only
  rw [Bool.and_eq_true, List.all_eq_true, decide_eq_true_eq, bit_ext_iff]
  refine and_congr ⟨fun h u hu => ?_, fun h i hi => ?_⟩ ⟨fun h u hu => ?_, fun h j hj => ?_⟩
  · have hbyte := h (u / 8) (List.mem_range.mpr (by omega))
    rw [decide_eq_true_eq, eq_full_iff] at hbyte
    exact hbyte u rfl
  · have hlt := List.mem_range.mp hi
    rw [decide_eq_true_eq, eq_full_iff]
    exact fun u hu => h u (by omega)
  · have hj := Nat.mod_lt u (show 0 < 8 by omega)
    rw [get_eq, hu, h _ hj, bit_not_bitmapBits hmod hj]
    exact decide_eq_decide.mpr (by omega)
  · have hu := h (8 * (len / 64) + j) (by omega)
    rw [get_eq, show (8 * (len / 64) + j) / 8 = len / 64 by omega,
      show (8 * (len / 64) + j) % 8 = j by omega] at hu
    rw [hu, bit_not_bitmapBits hmod hj]
    exact decide_eq_decide.mpr (by omega)

/-! ### Bytes out of a chain -/

theorem copyLoop_eq (mem : Mem UInt8) (p : List Pbuf) {len : UInt16} (hne : len ≠ 0)
    (h : len.toNat ≤ (Pbuf.chain mem p).length) :
    ∃ q qs off, copyLoop mem p len = some ((Pbuf.chain mem p).take len.toNat, q :: qs, off) ∧
      off.toNat ≤ q.len.toNat ∧
      (Pbuf.chain mem (q :: qs)).drop off.toNat = (Pbuf.chain mem p).drop len.toNat := by
  induction p generalizing len with
  | nil =>
      rw [Pbuf.chain_nil, List.length_nil] at h
      have hzero : len.toNat = (0 : UInt16).toNat := by
        rw [UInt16.toNat_zero]
        omega
      exact absurd (UInt16.toNat.inj hzero) hne
  | cons q qs ih =>
      rw [copyLoop]
      by_cases hle : len.toNat ≤ q.len.toNat
      · have hl : (if len < q.len then len else q.len) = len := by
          by_cases hlt : len < q.len
          · rw [if_pos hlt]
          · rw [UInt16.lt_iff_toNat_lt] at hlt
            rw [if_neg (by rwa [UInt16.lt_iff_toNat_lt])]
            exact UInt16.toNat.inj (by omega)
        refine ⟨q, qs, len, ?_, hle, rfl⟩
        simp only [hl, UInt16.sub_self, ne_eq, not_true_eq_false, if_false, Pbuf.take_chain mem hle]
      · have hlt : q.len ≤ len := by
          rw [UInt16.le_iff_toNat_le]
          omega
        have hsub := UInt16.toNat_sub_of_le _ _ hlt
        have hrest : len - q.len ≠ 0 := by
          intro hz
          rw [hz, UInt16.toNat_zero] at hsub
          omega
        have hl : (if len < q.len then len else q.len) = q.len := by
          rw [if_neg (by rw [UInt16.lt_iff_toNat_lt]; omega)]
        rw [Pbuf.chain_cons, List.length_append, Pbuf.bytes_length] at h
        obtain ⟨q', qs', off, hcopy, hoff, hdrop⟩ := ih hrest (by omega)
        refine ⟨q', qs', off, ?_, hoff, ?_⟩
        · simp only [hl, if_pos hrest, hcopy, Option.map_some, Pbuf.chain_cons, List.take_append,
            Pbuf.bytes_length, ← hsub]
          rw [List.take_of_length_le (l := q.bytes mem) (by rw [Pbuf.bytes_length]; omega)]
          rfl
        · have hnil : (q.bytes mem).drop len.toNat = [] :=
            List.drop_eq_nil_of_le (by rw [Pbuf.bytes_length]; omega)
          rw [hdrop, Pbuf.chain_cons, List.drop_append, Pbuf.bytes_length, ← hsub, hnil,
            List.nil_append]

/-- The bytes, and where the next call goes on. -/
theorem copyFromPbuf_eq {off len : UInt16} (hoff : off.toNat ≤ q.len.toNat)
    (h : off.toNat + len.toNat ≤ (Pbuf.chain mem (q :: qs)).length) :
    ∃ q' qs' off', copyFromPbuf mem (q :: qs) off len
        = some (((Pbuf.chain mem (q :: qs)).drop off.toNat).take len.toNat, q' :: qs', off') ∧
      (len ≠ 0 → off'.toNat ≤ q'.len.toNat ∧ (Pbuf.chain mem (q' :: qs')).drop off'.toNat
        = (Pbuf.chain mem (q :: qs)).drop (off.toNat + len.toNat)) := by
  set moved : Pbuf := { q with payload := q.payload + off.toNat, len := q.len - off } with hmoved
  have hchain : Pbuf.chain mem (moved :: qs) = (Pbuf.chain mem (q :: qs)).drop off.toNat := by
    rw [← Pbuf.chain_hide hoff, Pbuf.chain_cons, Pbuf.chain_cons]
    unfold Pbuf.bytes Pbuf.hide
    rw [hmoved, UInt16.ofNat_toNat]
  unfold copyFromPbuf
  simp only [← hmoved]
  by_cases hlen : len = 0
  · refine ⟨moved, qs, off, ?_, fun hne => absurd hlen hne⟩
    rw [if_pos hlen, hlen, UInt16.toNat_zero, List.take_zero]
  · rw [if_neg hlen]
    obtain ⟨q', qs', off', hcopy, hoff', hdrop⟩ := copyLoop_eq mem (moved :: qs) hlen (by
      rw [hchain, List.length_drop]
      omega)
    rw [hchain] at hcopy hdrop
    rw [List.drop_drop] at hdrop
    exact ⟨q', qs', off', hcopy, fun _ => ⟨hoff', hdrop⟩⟩

/-! ### Headers that are copied -/

/-- The parts of a header that all fragments have in common are the same in two places. -/
def SameHeader (h h' : Nat) (mem mem' : Mem UInt8) : Prop :=
  ∀ k, k < 2 ∨ 4 ≤ k ∧ k < 6 ∨ 8 ≤ k ∧ k < 10 ∨ 12 ≤ k ∧ k < 20 → mem' (h' + k) = mem (h + k)

section SameHeader

variable {h h' k : Nat} {mem' : Mem UInt8}

theorem SameHeader.load16 (hs : SameHeader h h' mem mem') (hk : k = 4 ∨ k = 8) :
    load16 mem' (h' + k) = load16 mem (h + k) := by
  refine load16_congr fun i hi => ?_
  rw [Nat.add_assoc, Nat.add_assoc]
  exact hs _ (by omega)

theorem SameHeader.load (hs : SameHeader h h' mem mem') (hk : k = 12 ∨ k = 16) :
    load mem' (h' + k) = load mem (h + k) := by
  refine load_congr fun i hi => ?_
  rw [Nat.add_assoc, Nat.add_assoc]
  exact hs _ (by omega)

theorem SameHeader.vhl (hs : SameHeader h h' mem mem') : mem' h' = mem h := hs 0 (by omega)

theorem SameHeader.proto (hs : SameHeader h h' mem mem') : iphProto h' mem' = iphProto h mem :=
  congrArg (· &&& 0xff) (hs.load16 (Or.inr rfl))

theorem SameHeader.ident (hs : SameHeader h h' mem mem') : iphId h' mem' = iphId h mem :=
  hs.load16 (Or.inl rfl)

theorem SameHeader.src (hs : SameHeader h h' mem mem') : Ip.src h' mem' = Ip.src h mem :=
  hs.load (Or.inl rfl)

theorem SameHeader.dest (hs : SameHeader h h' mem mem') : Ip.dest h' mem' = Ip.dest h mem :=
  hs.load (Or.inr rfl)

end SameHeader

/-- The version and the length of a header. -/
theorem version_hl {h : Nat} (hv : mem h = 0x45) : iphV h mem = 4 ∧ iphHl h mem = 5 := by
  have hword : (vHlTos h mem).toNat = 256 * 0x45 + (mem (h + 1)).toNat := by
    unfold vHlTos
    rw [load16_toNat, hv]
    rfl
  have hlt := (mem (h + 1)).toNat_lt
  constructor
  · unfold iphV
    apply UInt16.toNat.inj
    rw [toNat_shiftRight_12, hword]
    show _ = 4
    omega
  · unfold iphHl
    apply UInt16.toNat.inj
    rw [UInt16.toNat_and, toNat_shiftRight_8, hword]
    refine (Nat.and_two_pow_sub_one_eq_mod _ 4).trans ?_
    show _ = 5
    omega

/-! ### A datagram in pieces -/

/-- What is to be put together.  `vhl` is the version and the length of its headers. -/
structure Datagram where
  vhl : UInt8
  proto : UInt16
  src : UInt32
  dest : UInt32
  ident : UInt16
  payload : List UInt8
  small : payload.length ≤ ipReassBufsize

/-- A fragment of another datagram. -/
def Foreign (d : Datagram) (mem : Mem UInt8) (q : Pbuf) : Prop :=
  ¬(Ip.src q.payload mem = d.src ∧ Ip.dest q.payload mem = d.dest ∧ iphId q.payload mem = d.ident)

/-- A fragment of the datagram: the `l` bytes from `o` on, behind a header that is all in the first
`pbuf`. -/
structure Piece (d : Datagram) (mem : Mem UInt8) (q : Pbuf) (qs : List Pbuf) (o l : Nat) : Prop where
  vhl : mem q.payload = d.vhl
  proto : iphProto q.payload mem = d.proto
  src : Ip.src q.payload mem = d.src
  dest : Ip.dest q.payload mem = d.dest
  ident : iphId q.payload mem = d.ident
  header : (iphHl q.payload mem * 4).toNat ≤ q.len.toNat
  len : (iphLen q.payload mem).toNat = (iphHl q.payload mem * 4).toNat + l
  offset : ((iphOffset q.payload mem &&& ipOffmask) * 8).toNat = o
  inside : o + l ≤ d.payload.length
  data : ((Pbuf.chain mem (q :: qs)).drop (iphHl q.payload mem * 4).toNat).take l
    = (d.payload.drop o).take l
  more : (iphOffset q.payload mem &&& ipMf) ≠ 0 ↔ o + l ≠ d.payload.length
  whole : o + l ≠ d.payload.length → l % 8 = 0

/-- The pieces that have come have unit `u` of eight bytes. -/
def Covers (s : List (Nat × Nat)) (u : Nat) : Prop := ∃ x ∈ s, x.1 / 8 ≤ u ∧ u < (x.1 + x.2) / 8

/-- They have byte `i`. -/
def Has (s : List (Nat × Nat)) (i : Nat) : Prop := ∃ x ∈ s, x.1 ≤ i ∧ i < x.1 + x.2

/-- The last of them is there. -/
def Ended (d : Datagram) (s : List (Nat × Nat)) : Prop := ∃ x ∈ s, x.1 + x.2 = d.payload.length

/-- What is enough for `ip_reass`: the last piece, and every unit but those of the last whole block
of 64 bytes. -/
def Enough (d : Datagram) (s : List (Nat × Nat)) : Prop :=
  Ended d s ∧ ∀ u < d.payload.length / 8, u / 8 + 1 ≠ d.payload.length / 64 → Covers s u

/-- The buffer while the datagram is not complete. -/
inductive Collects (d : Datagram) : List (Nat × Nat) → Reass → Prop
  | start {st : Reass} : st.tmr = 0 → Collects d [] st
  | piece {st st' : Reass} {s : List (Nat × Nat)} {mem : Mem UInt8} {q : Pbuf} {qs : List Pbuf}
      {o l : Nat} : Collects d s st → Piece d mem q qs o l →
      ipReass (q :: qs) mem st = some (none, st') → Collects d ((o, l) :: s) st'
  | foreign {st st' : Reass} {s : List (Nat × Nat)} {mem : Mem UInt8} {q : Pbuf} {qs : List Pbuf}
      {r : Option (List UInt8)} : Collects d s st → s ≠ [] → Foreign d mem q →
      ipReass (q :: qs) mem st = some (r, st') → Collects d s st'

/-- What is known of the buffer then. -/
structure Holds (d : Datagram) (s : List (Nat × Nat)) (st : Reass) : Prop where
  tmr : st.tmr ≠ 0
  vhl : st.reassbuf 0 = d.vhl
  proto : iphProto 0 st.reassbuf = d.proto
  src : Ip.src 0 st.reassbuf = d.src
  dest : Ip.dest 0 st.reassbuf = d.dest
  ident : iphId 0 st.reassbuf = d.ident
  bits : ∀ u < 8 * bitmapSize, get st.bitmap u = true ↔ Covers s u
  data : ∀ i, Has s i → st.reassbuf (ipHlen + i) = d.payload.getD i 0
  last : st.lastfrag = true ↔ Ended d s
  len : st.lastfrag = true → st.reasslen.toNat = d.payload.length
  units : ∀ x ∈ s, x.1 % 8 = 0
  inside : ∀ x ∈ s, x.1 + x.2 ≤ d.payload.length

variable {d : Datagram} {s : List (Nat × Nat)} {o l : Nat}

/-- The first fragment. -/
theorem holds_startReass (hp : Piece d mem q qs o l) (st : Reass) :
    Holds d [] (startReass q.payload mem st) := by
  have hsame : SameHeader q.payload 0 mem (startReass q.payload mem st).reassbuf := fun k hk =>
    Mem.store_at st.reassbuf 0 (fun k => mem (q.payload + k)) (by unfold ipHlen; omega)
  have hno : ∀ P : Nat × Nat → Prop, ¬∃ x ∈ ([] : List (Nat × Nat)), P x := by simp
  constructor
  · show ipReassMaxage ≠ 0
    decide
  · rw [hsame.vhl, hp.vhl]
  · rw [hsame.proto, hp.proto]
  · rw [hsame.src, hp.src]
  · rw [hsame.dest, hp.dest]
  · rw [hsame.ident, hp.ident]
  · intro u hu
    refine iff_of_false ?_ (hno _)
    have hzero : (startReass q.payload mem st).bitmap (u / 8) = 0 := by
      have := Mem.store_at st.bitmap 0 (n := bitmapSize) (i := u / 8)
        (fun _ => (0 : UInt8)) (by omega)
      rwa [Nat.zero_add] at this
    rw [get_eq, hzero, bit_zero]
    exact Bool.false_ne_true
  · exact fun i hi => absurd hi (hno _)
  · exact iff_of_false Bool.false_ne_true (hno _)
  · exact fun h => absurd h Bool.false_ne_true
  · exact fun x hx => absurd hx List.not_mem_nil
  · exact fun x hx => absurd hx List.not_mem_nil

/-! ### One more piece -/

theorem covers_cons {u : Nat} :
    Covers ((o, l) :: s) u ↔ (o / 8 ≤ u ∧ u < (o + l) / 8) ∨ Covers s u :=
  List.exists_mem_cons_iff _ _ _

theorem has_cons {i : Nat} : Has ((o, l) :: s) i ↔ (o ≤ i ∧ i < o + l) ∨ Has s i :=
  List.exists_mem_cons_iff _ _ _

theorem ended_cons : Ended d ((o, l) :: s) ↔ o + l = d.payload.length ∨ Ended d s :=
  List.exists_mem_cons_iff _ _ _

/-- The buffer with the fragment, before it is tested. -/
def added (offset len : Nat) (mf : Bool) (data : List UInt8) (st : Reass) : Reass :=
  let st := { st with
    reassbuf := st.reassbuf.store (ipHlen + offset) len fun k => data.getD k 0
    bitmap := updateBitmap offset (offset + len) st.bitmap }
  if mf then st else { st with lastfrag := true, reasslen := UInt16.ofNat (offset + len) }

/-- What comes of the buffer then. -/
def tested (st : Reass) : Option (Option (List UInt8) × Reass) :=
  if st.lastfrag then
    (assertLen st.reasslen.toNat).bind fun _ =>
      if complete st.reasslen.toNat st.bitmap then
        let reasslen := st.reasslen + UInt16.ofNat ipHlen
        let buf := finishHeader reasslen st.reassbuf
        some (some (buf.slice 0 reasslen.toNat),
          { st with reasslen := reasslen, reassbuf := buf, tmr := 0 })
      else some (none, st)
  else some (none, st)

theorem lwipAssert_true {y : Bool} (h : y = true) : lwipAssert y = some () := if_pos h

/-- A fragment that fits has its bytes of the bitmap. -/
theorem assertBytes_eq {offset last : Nat} (h : offset ≤ last) (hlast : last ≤ ipReassBufsize) :
    assertBytes offset last = some () := by
  have hbyte : ∀ x ≤ ipReassBufsize, decide (x / (8 * 8) < bitmapSize) = true := by
    intro x hx
    rw [decide_eq_true_eq]
    exact Nat.lt_succ_of_le (Nat.div_le_div_right hx)
  unfold assertBytes
  rw [lwipAssert_true (hbyte _ (h.trans hlast)), lwipAssert_true (hbyte _ hlast)]
  rfl

/-- The assert on the length holds from 64 bytes on. -/
theorem assertLen_eq {len : Nat} (hlen : len ≤ ipReassBufsize) :
    assertLen len = if 64 ≤ len then some () else none := by
  unfold ipReassBufsize at hlen
  have hfirst : decide (((len / (8 * 8) : Nat) - 1 : Int) % 2 ^ 64 < bitmapSize)
      = decide (64 ≤ len) := by
    unfold bitmapSize ipReassBufsize
    exact decide_eq_decide.mpr (by omega)
  have hsecond : decide (len / (8 * 8) < bitmapSize) = true := by
    unfold bitmapSize ipReassBufsize
    rw [decide_eq_true_eq]
    omega
  unfold assertLen
  rw [hfirst, lwipAssert_true hsecond]
  unfold lwipAssert
  by_cases hlong : 64 ≤ len
  · rw [if_pos (decide_eq_true hlong), if_pos hlong]
    rfl
  · rw [if_neg (by simpa using hlong), if_neg hlong]
    rfl

theorem addFragment_eq {offset len : Nat} (h : offset + len ≤ ipReassBufsize) (mf : Bool)
    (data : List UInt8) (st : Reass) :
    addFragment offset len mf data st = tested (added offset len mf data st) := by
  unfold addFragment
  rw [assertBytes_eq (Nat.le_add_right _ _) h]
  rfl

/-- The buffer is kept unless the datagram is complete. -/
theorem eq_of_tested (h : tested st = some (none, st')) : st' = st := by
  unfold tested at h
  by_cases hlast : st.lastfrag = true
  · rw [if_pos hlast] at h
    obtain ⟨_, -, h⟩ := Option.bind_eq_some_iff.mp h
    dsimp only at h
    split at h
    · simp at h
    · simpa using h.symm
  · rw [if_neg hlast] at h
    simpa using h.symm

@[simp] theorem added_reassbuf (mf : Bool) (data : List UInt8) (st : Reass) :
    (added o l mf data st).reassbuf = st.reassbuf.store (ipHlen + o) l fun k => data.getD k 0 := by
  cases mf <;> rfl

@[simp] theorem added_bitmap (mf : Bool) (data : List UInt8) (st : Reass) :
    (added o l mf data st).bitmap = updateBitmap o (o + l) st.bitmap := by
  cases mf <;> rfl

@[simp] theorem added_tmr (mf : Bool) (data : List UInt8) (st : Reass) :
    (added o l mf data st).tmr = st.tmr := by
  cases mf <;> rfl

/-- The header is in front of the data. -/
theorem added_header (mf : Bool) (data : List UInt8) (st : Reass) {x : Nat} (hx : x < ipHlen) :
    (added o l mf data st).reassbuf x = st.reassbuf x := by
  rw [added_reassbuf, Mem.store_outside _ _ (by omega)]

theorem getD_drop_take {bs : List UInt8} {k : Nat} (hk : k < l) :
    ((bs.drop o).take l).getD k 0 = bs.getD (o + k) 0 := by
  simp [List.getD_eq_getElem?_getD, hk]

/-- A piece adds what it has, and nothing else. -/
theorem Holds.added (h : Holds d s st) (hunit : o % 8 = 0) (hinside : o + l ≤ d.payload.length) :
    Holds d ((o, l) :: s)
      (added o l (decide (o + l ≠ d.payload.length)) ((d.payload.drop o).take l) st) := by
  have hsmall := d.small
  set mf := decide (o + l ≠ d.payload.length) with hmf
  set data := (d.payload.drop o).take l with hdata
  have hsame : SameHeader 0 0 st.reassbuf (IpFrag.added o l mf data st).reassbuf :=
    fun k hk => added_header mf data st (by unfold ipHlen; omega)
  constructor
  · rw [added_tmr]
    exact h.tmr
  · rw [hsame.vhl, h.vhl]
  · rw [hsame.proto, h.proto]
  · rw [hsame.src, h.src]
  · rw [hsame.dest, h.dest]
  · rw [hsame.ident, h.ident]
  · intro u hu
    rw [added_bitmap, get_updateBitmap (by omega), Bool.or_eq_true, decide_eq_true_eq, h.bits u hu,
      covers_cons]
    exact Or.comm
  · intro i hi
    rw [added_reassbuf]
    by_cases hin : o ≤ i ∧ i < o + l
    · obtain ⟨k, rfl⟩ := Nat.exists_eq_add_of_le hin.1
      rw [← Nat.add_assoc, Mem.store_at _ _ _ (by omega), hdata, getD_drop_take (by omega)]
    · rw [Mem.store_outside _ _ (by omega)]
      exact h.data i ((has_cons.mp hi).resolve_left hin)
  · rw [ended_cons, ← h.last]
    unfold IpFrag.added
    by_cases hend : o + l = d.payload.length
    · simp [hmf, hend]
    · simp [hmf, hend]
  · unfold IpFrag.added
    by_cases hend : o + l = d.payload.length
    · intro _
      unfold ipReassBufsize at hsmall
      simp only [hmf, hend, ne_eq, not_true_eq_false, decide_false, Bool.false_eq_true, if_false]
      rw [UInt16.toNat_ofNat', Nat.mod_eq_of_lt (by omega)]
    · simpa [hmf, hend] using h.len
  · exact List.forall_mem_cons.mpr ⟨hunit, h.units⟩
  · exact List.forall_mem_cons.mpr ⟨hinside, h.inside⟩

/-- The test of `ip_reass`. -/
theorem Holds.test_iff (h : Holds d s st) :
    st.lastfrag = true ∧ complete st.reasslen.toNat st.bitmap = true ↔ Enough d s := by
  have hsmall := d.small
  unfold ipReassBufsize at hsmall
  have hbits : ∀ u ≤ 727, get st.bitmap u = true ↔ Covers s u := by
    intro u hu
    exact h.bits u (by unfold bitmapSize ipReassBufsize; omega)
  rw [h.last]
  unfold Enough
  refine and_congr_right fun hended => ?_
  rw [h.len (h.last.mpr hended), complete_eq_true]
  constructor
  · rintro ⟨hfull, hlast⟩ u hu hne
    rw [← hbits u (by omega)]
    by_cases hblock : u / 8 = d.payload.length / 64
    · rw [hlast u hblock]
      exact decide_eq_true hu
    · exact hfull u (by omega)
  · intro henough
    refine ⟨fun u hu => (hbits u (by omega)).mpr (henough u (by omega) (by omega)), fun u hu => ?_⟩
    by_cases hlt : u < d.payload.length / 8
    · rw [decide_eq_true hlt, hbits u (by omega)]
      exact henough u hlt (by omega)
    · rw [decide_eq_false hlt, ← Bool.not_eq_true, hbits u (by omega)]
      rintro ⟨x, hx, hlo, hhi⟩
      have hinside := h.inside x hx
      omega

/-! ### What is put together -/

/-- The packet at 0 is the datagram, as far as its pieces have come. -/
structure Joined (d : Datagram) (s : List (Nat × Nat)) (m : Mem UInt8) : Prop where
  vhl : m 0 = d.vhl
  proto : iphProto 0 m = d.proto
  src : Ip.src 0 m = d.src
  dest : Ip.dest 0 m = d.dest
  ident : iphId 0 m = d.ident
  len : (iphLen 0 m).toNat = ipHlen + d.payload.length
  offset : iphOffset 0 m = 0
  valid : Valid (m.slice 0 ipHlen)
  data : ∀ i, Has s i → m (ipHlen + i) = d.payload.getD i 0

theorem finishHeader_outside (reasslen : UInt16) (buf : Mem UInt8) {x : Nat}
    (hx : x < 2 ∨ 4 ≤ x ∧ x < 6 ∨ 8 ≤ x ∧ x < 10 ∨ 12 ≤ x) : finishHeader reasslen buf x = buf x := by
  unfold finishHeader iphLenSet iphOffsetSet iphChksumSet
  rw [store16_outside _ (by omega), store16_outside _ (by omega), store16_outside _ (by omega),
    store16_outside _ (by omega)]

/-- The checksum that a header is given. -/
theorem valid_iphChksumSet (m : Mem UInt8) :
    Valid ((iphChksumSet 0 (iphChksumSet 0 m 0)
      (Inet.inetChksum ((iphChksumSet 0 m 0).slice 0 ipHlen))).slice 0 ipHlen) := by
  set m' := iphChksumSet 0 m 0 with hm
  have hzero : load16 m' (0 + 2 * 5) = 0 := load16_store16 _ _ _
  have hsum := sum_slice_store16 (n := 10) (by omega) hzero (Inet.inetChksum (m'.slice 0 ipHlen))
  have hchk : (Inet.inetChksum (m'.slice 0 ipHlen)).toNat
      = 65535 - Ones.norm (Ones.sum (m'.slice 0 ipHlen)) :=
    Inet.inetChksum_toNat (by rw [Mem.slice_length]; decide)
  unfold Valid
  show Ones.norm (Ones.sum ((store16 (0 + 2 * 5) (Inet.inetChksum (m'.slice 0 ipHlen)) m').slice 0
    (2 * 10))) = 65535
  rw [hsum, hchk]
  exact Ones.norm_add_complement _

theorem finishHeader_valid (reasslen : UInt16) (buf : Mem UInt8) :
    Valid ((finishHeader reasslen buf).slice 0 ipHlen) :=
  valid_iphChksumSet _

theorem Holds.joined (h : Holds d s st) (hended : Ended d s) :
    let reasslen := st.reasslen + UInt16.ofNat ipHlen
    reasslen.toNat = ipHlen + d.payload.length ∧ Joined d s (finishHeader reasslen st.reassbuf) := by
  intro reasslen
  have hsmall := d.small
  unfold ipReassBufsize at hsmall
  have hlen : reasslen.toNat = ipHlen + d.payload.length := by
    have hst := h.len (h.last.mpr hended)
    show (st.reasslen + UInt16.ofNat ipHlen).toNat = _
    rw [UInt16.toNat_add, hst]
    show (d.payload.length + 20) % 65536 = 20 + d.payload.length
    omega
  have hsame : SameHeader 0 0 st.reassbuf (finishHeader reasslen st.reassbuf) :=
    fun k hk => finishHeader_outside _ _ (by omega)
  refine ⟨hlen, ?_⟩
  constructor
  · rw [hsame.vhl, h.vhl]
  · rw [hsame.proto, h.proto]
  · rw [hsame.src, h.src]
  · rw [hsame.dest, h.dest]
  · rw [hsame.ident, h.ident]
  · rw [← hlen]
    unfold iphLen finishHeader iphLenSet iphOffsetSet iphChksumSet
    simp (disch := omega) only [load16_store16, load16_store16_of_disjoint]
  · unfold iphOffset finishHeader iphLenSet iphOffsetSet iphChksumSet
    simp (disch := omega) only [load16_store16, load16_store16_of_disjoint]
  · exact finishHeader_valid _ _
  · intro i hi
    rw [finishHeader_outside _ _ (by unfold ipHlen; omega)]
    exact h.data i hi

/-- A fragment of the datagram, whether it is the first or not. -/
theorem ipReass_piece (h : s = [] ∧ st.tmr = 0 ∨ Holds d s st) (hp : Piece d mem q qs o l) :
    ∃ st₀, Holds d s st₀ ∧ ipReass (q :: qs) mem st = tested (added o l
      (decide (o + l ≠ d.payload.length)) ((d.payload.drop o).take l) st₀) := by
  have hsmall := d.small
  have hinside := hp.inside
  -- the buffer as it is when the addresses are compared
  have hstart : ∃ st₀, Holds d s st₀ ∧
      (if st.tmr = 0 then startReass q.payload mem st else st) = st₀ := by
    rcases h with ⟨rfl, htmr⟩ | h
    · exact ⟨_, holds_startReass hp st, if_pos htmr⟩
    · exact ⟨st, h, if_neg h.tmr⟩
  obtain ⟨st₀, hst₀, hif⟩ := hstart
  refine ⟨st₀, hst₀, ?_⟩
  have hsame : sameDatagram q.payload mem st₀ = true := by
    unfold sameDatagram
    rw [hst₀.src, hst₀.dest, hst₀.ident, hp.src, hp.dest, hp.ident]
    simp
  have hlen : (iphLen q.payload mem - iphHl q.payload mem * 4).toNat = l := by
    rw [UInt16.toNat_sub_of_le _ _ (by rw [UInt16.le_iff_toNat_le, hp.len]; omega), hp.len]
    omega
  have hlong : (iphHl q.payload mem * 4).toNat + l ≤ (Pbuf.chain mem (q :: qs)).length := by
    have hdata := congrArg List.length hp.data
    have hheader := hp.header
    have hfirst : q.len.toNat ≤ (Pbuf.chain mem (q :: qs)).length := by
      rw [Pbuf.chain_cons, List.length_append, Pbuf.bytes_length]
      omega
    rw [List.length_take, List.length_drop, List.length_take, List.length_drop] at hdata
    omega
  obtain ⟨q', qs', off, hcopy, -⟩ := copyFromPbuf_eq hp.header (hlen.symm ▸ hlong)
  have hmore : decide ((iphOffset q.payload mem &&& ipMf) ≠ 0) = decide (o + l ≠ d.payload.length) :=
    decide_eq_decide.mpr hp.more
  rw [← addFragment_eq (hinside.trans hsmall)]
  unfold ipReass
  simp only [hif, hsame, Bool.not_true, Bool.false_eq_true, if_false, hp.offset, hlen, hcopy, hp.data,
    hmore, Option.bind_some]
  have hfits : (decide (o > ipReassBufsize) || decide (o + l > ipReassBufsize)) = false := by
    simp
    omega
  rw [hfits, if_neg Bool.false_ne_true]

/-- A fragment of another one changes nothing. -/
theorem ipReass_foreign (h : Holds d s st) (hf : Foreign d mem q) (qs : List Pbuf) :
    ipReass (q :: qs) mem st = some (none, st) := by
  have hother : sameDatagram q.payload mem st = false := by
    unfold sameDatagram
    rw [h.src, h.dest, h.ident, ← Bool.not_eq_true]
    intro heq
    simp only [Bool.and_eq_true, decide_eq_true_eq] at heq
    exact hf ⟨heq.1.1.symm, heq.1.2.symm, heq.2.symm⟩
  unfold ipReass
  simp only [if_neg h.tmr, hother, Bool.not_false, if_true]

/-- The units are where `o` says. -/
theorem Piece.unit (hp : Piece d mem q qs o l) : o % 8 = 0 := by
  have hmask : (iphOffset q.payload mem &&& ipOffmask).toNat < 8192 := by
    rw [UInt16.toNat_and]
    exact Nat.and_lt_two_pow _ (n := 13) (by decide)
  rw [← hp.offset, UInt16.toNat_mul]
  show (_ * 8) % 65536 % 8 = 0
  omega

/-- What comes of a piece of a datagram that is long enough. -/
theorem receive_piece (h : s = [] ∧ st.tmr = 0 ∨ Holds d s st) (hp : Piece d mem q qs o l)
    (hlong : 64 ≤ d.payload.length) :
    ∃ r st', ipReass (q :: qs) mem st = some (r, st') ∧ (r.isSome ↔ Enough d ((o, l) :: s)) ∧
      ∀ bytes, r = some bytes → st'.tmr = 0 ∧
        ∃ m, bytes = m.slice 0 (ipHlen + d.payload.length) ∧ Joined d ((o, l) :: s) m := by
  obtain ⟨st₀, hst₀, heq⟩ := ipReass_piece h hp
  have hadd := hst₀.added hp.unit hp.inside
  have htest := hadd.test_iff
  rw [heq]
  set st' := IpFrag.added o l (decide (o + l ≠ d.payload.length)) ((d.payload.drop o).take l) st₀
  unfold tested
  by_cases hlast : st'.lastfrag = true
  · have hpass : assertLen st'.reasslen.toNat = some () := by
      rw [hadd.len hlast, assertLen_eq d.small, if_pos hlong]
    rw [if_pos hlast, hpass, Option.bind_some]
    by_cases hc : complete st'.reasslen.toNat st'.bitmap = true
    · have henough := htest.mp ⟨hlast, hc⟩
      obtain ⟨hlen, hjoin⟩ := hadd.joined henough.1
      rw [if_pos hc]
      refine ⟨_, _, rfl, by simpa using henough, ?_⟩
      intro bytes hbytes
      refine ⟨rfl, _, ?_, hjoin⟩
      rw [← Option.some.inj hbytes, hlen]
    · rw [if_neg hc]
      refine ⟨_, _, rfl, ?_, fun _ h => by simp at h⟩
      simpa using fun he => hc (htest.mpr he).2
  · rw [if_neg hlast]
    refine ⟨_, _, rfl, ?_, fun _ h => by simp at h⟩
    simpa using fun he => hlast (htest.mpr he).1

/-- A shorter one is the end, as soon as its last piece is there. -/
theorem receive_short (h : s = [] ∧ st.tmr = 0 ∨ Holds d s st) (hp : Piece d mem q qs o l)
    (hshort : d.payload.length < 64) (hended : Ended d ((o, l) :: s)) :
    ipReass (q :: qs) mem st = none := by
  obtain ⟨st₀, hst₀, heq⟩ := ipReass_piece h hp
  have hadd := hst₀.added hp.unit hp.inside
  have hlast := hadd.last.mpr hended
  rw [heq]
  unfold tested
  rw [if_pos hlast, hadd.len hlast, assertLen_eq d.small, if_neg (Nat.not_le.mpr hshort)]
  rfl

/-- The buffer at any time before the datagram is complete. -/
theorem Collects.holds (h : Collects d s st) : s = [] ∧ st.tmr = 0 ∨ Holds d s st := by
  induction h with
  | start htmr => exact Or.inl ⟨rfl, htmr⟩
  | piece _ hp hrun ih =>
      obtain ⟨st₀, hst₀, heq⟩ := ipReass_piece ih hp
      rw [hrun] at heq
      rw [eq_of_tested heq.symm]
      exact Or.inr (hst₀.added hp.unit hp.inside)
  | foreign _ hs hf hrun ih =>
      have hst := ih.resolve_left fun h => hs h.1
      rw [ipReass_foreign hst hf, Option.some_inj, Prod.mk.injEq] at hrun
      rw [← hrun.2]
      exact Or.inr hst

/-- A byte is there with its unit, and in the end that fills no unit. -/
theorem has_of_covers (hunits : ∀ x ∈ s, x.1 % 8 = 0) (hended : Ended d s) {i : Nat}
    (hi : i < d.payload.length) (h : i / 8 < d.payload.length / 8 → Covers s (i / 8)) : Has s i := by
  by_cases hu : i / 8 < d.payload.length / 8
  · obtain ⟨x, hx, hlo, hhi⟩ := h hu
    have hunit := hunits x hx
    exact ⟨x, hx, by omega, by omega⟩
  · obtain ⟨x, hx, hend⟩ := hended
    have hunit := hunits x hx
    exact ⟨x, hx, by omega, by omega⟩

/-- All but what is not tested is there. -/
theorem has_of_enough (hunits : ∀ x ∈ s, x.1 % 8 = 0) (h : Enough d s) {i : Nat}
    (hi : i < d.payload.length) (hne : i / 64 + 1 ≠ d.payload.length / 64) : Has s i :=
  has_of_covers hunits h.1 hi fun hu => h.2 (i / 8) hu (by omega)

theorem Collects.units (h : Collects d s st) : ∀ x ∈ s, x.1 % 8 = 0 := by
  rcases h.holds with ⟨rfl, -⟩ | hh
  · simp
  · exact hh.units

/-- The header that is put together is right, if it has no options. -/
theorem Joined.header {m : Mem UInt8} (h : Joined d s m) (hvhl : d.vhl = 0x45) :
    Valid (m.slice 0 (iphHl 0 m * 4).toNat) := by
  rw [(version_hl (h.vhl.trans hvhl)).2]
  exact h.valid

/-- **In every run, a datagram of 64 bytes or more is delivered with the piece that makes its pieces
enough**: in any order, with any of them repeated, and with fragments of other datagrams between
them, which change nothing.  What is delivered has a right header, if there are no options, and the
datagram's bytes, but perhaps not in the last whole block of 64 bytes.  With a shorter datagram,
`ip_reass` does not return once the last piece is there. -/
theorem collects_delivers (h : Collects d s st) (hp : Piece d mem q qs o l) :
    (64 ≤ d.payload.length →
      ∃ r st', ipReass (q :: qs) mem st = some (r, st') ∧ (r.isSome ↔ Enough d ((o, l) :: s)) ∧
        ∀ bytes, r = some bytes → st'.tmr = 0 ∧
          ∃ m, bytes = m.slice 0 (ipHlen + d.payload.length) ∧ Joined d ((o, l) :: s) m ∧
            (d.vhl = 0x45 → Valid (m.slice 0 (iphHl 0 m * 4).toNat)) ∧
            ∀ i < d.payload.length, i / 64 + 1 ≠ d.payload.length / 64 →
              m (ipHlen + i) = d.payload.getD i 0) ∧
      (d.payload.length < 64 → Ended d ((o, l) :: s) → ipReass (q :: qs) mem st = none) ∧
      ∀ mem' q' qs', s ≠ [] → Foreign d mem' q' →
        ipReass (q' :: qs') mem' st = some (none, st) := by
  refine ⟨fun hlong => ?_, receive_short h.holds hp, ?_⟩
  · obtain ⟨r, st', heq, hsome, hbytes⟩ := receive_piece h.holds hp hlong
    refine ⟨r, st', heq, hsome, ?_⟩
    intro bytes hr
    obtain ⟨htmr, m, hm, hjoin⟩ := hbytes bytes hr
    refine ⟨htmr, m, hm, hjoin, hjoin.header, fun i hi hne => hjoin.data i ?_⟩
    have henough := hsome.mp (by rw [hr]; rfl)
    exact has_of_enough (List.forall_mem_cons.mpr ⟨hp.unit, h.units⟩) henough hi hne
  · intro mem' q' qs' hs hf
    exact ipReass_foreign (h.holds.resolve_left fun h => hs h.1) hf qs'

/-! 144 bytes in two halves, of which the second comes first. -/

def halves : Datagram where
  vhl := 0x45
  proto := 17
  src := 0x0a000001
  dest := 0x0a000002
  ident := 7
  payload := (List.range 144).map UInt8.ofNat
  small := by simp [ipReassBufsize]

theorem halves_length : halves.payload.length = 144 := by simp [halves]

def headMem : Mem UInt8 := fun x =>
  (([69, 0, 0, 92, 0, 7, 32, 0, 64, 17, 0, 0, 10, 0, 0, 1, 10, 0, 0, 2] : List UInt8)
    ++ (List.range 72).map UInt8.ofNat).getD x 0

def tailMem : Mem UInt8 := fun x =>
  (([69, 0, 0, 92, 0, 7, 0, 9, 64, 17, 0, 0, 10, 0, 0, 1, 10, 0, 0, 2] : List UInt8)
    ++ (List.range' 72 72).map UInt8.ofNat).getD x 0

theorem collects_delivers_halves : ∃ st bytes st',
    ipReass [⟨0, 0, 92, 92, .pool⟩] tailMem ⟨fun _ => 0, fun _ => 0, 0, false, 0⟩ = some (none, st) ∧
      ipReass [⟨0, 0, 92, 92, .pool⟩] headMem st = some (some bytes, st') ∧ st'.tmr = 0 ∧
      bytes.length = 164 := by
  have htail : Piece halves tailMem ⟨0, 0, 92, 92, .pool⟩ [] 72 72 :=
    ⟨rfl, rfl, rfl, rfl, rfl, by decide, rfl, rfl, halves_length.ge, by decide +kernel,
      by rw [halves_length]; decide +kernel, fun _ => rfl⟩
  have hhead : Piece halves headMem ⟨0, 0, 92, 92, .pool⟩ [] 0 72 :=
    ⟨rfl, rfl, rfl, rfl, rfl, by decide, rfl, rfl, by rw [halves_length]; decide, by decide +kernel,
      by rw [halves_length]; decide +kernel, fun _ => rfl⟩
  have hlong : 64 ≤ halves.payload.length := by
    rw [halves_length]
    decide
  have hstart : Collects halves [] ⟨fun _ => 0, fun _ => 0, 0, false, 0⟩ := Collects.start rfl
  obtain ⟨r, st, hrun, hsome, -⟩ := (collects_delivers hstart htail).1 hlong
  -- the first half is missing
  have hnone : r = none := by
    rw [← Option.not_isSome_iff_eq_none, hsome]
    rintro ⟨-, hunits⟩
    rw [halves_length] at hunits
    obtain ⟨x, hx, hlo, -⟩ := hunits 0 (by decide) (by decide)
    rw [List.mem_singleton.mp hx] at hlo
    exact absurd hlo (by decide)
  subst hnone
  obtain ⟨r, st', hrun', hsome', hbytes⟩ :=
    (collects_delivers (hstart.piece htail hrun) hhead).1 hlong
  have henough : Enough halves [(0, 72), (72, 72)] := by
    refine ⟨⟨_, List.mem_cons_of_mem _ (List.mem_singleton_self _), halves_length.symm⟩,
      fun u hu _ => ?_⟩
    rw [halves_length] at hu
    by_cases hhalf : u < 9
    · exact ⟨(0, 72), by simp, by omega, by omega⟩
    · exact ⟨(72, 72), by simp, by omega, by omega⟩
  obtain ⟨bytes, rfl⟩ := Option.isSome_iff_exists.mp (hsome'.mpr henough)
  obtain ⟨htmr, m, hm, -⟩ := hbytes bytes rfl
  exact ⟨st, bytes, st', hrun, hrun', htmr, by rw [hm, Mem.slice_length, halves_length]; rfl⟩

end Xell.IpFrag
