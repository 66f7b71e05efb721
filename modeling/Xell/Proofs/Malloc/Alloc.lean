/-
`kmalloc` and `kfree` on the list of blocks.

`allocate` says what `kmalloc` does to the list: the first free block that has room for the request
is taken, and cut in two if enough of it is left.  A block that does not begin at the right
alignment must have room for the request twice, since `kmalloc` counts it once more with what is
skipped (`need`).

Both functions write only to the block they work on, and `kfree` then to nodes of free blocks.  So
the proofs are about one block, and `Laid.replace` puts the result back into the list.
-/
import Xell.Lib.Align
import Xell.Proofs.Malloc.Chain

namespace Xell.Malloc

open Align

variable {mem mem' : Mem UInt8} {a e n k : Nat} {b c : Block} {bs cs pre post : List Block}

/-! ### The request -/

/-- What a block must have for `s` bytes with the alignment `al`, if its data begins at `d`. -/
def need (s al d : Nat) : Nat := if d % al = 0 then s else s + (s + (al - d % al))

theorem up_add_le_need (s al d : Nat) : up al d + s ≤ d + need s al d := by
  unfold up need
  split <;> omega

theorem toNat_realSize {size : UInt32} {ptralign daddr : UInt64} (hk : ptralign.toNat = 2 ^ k)
    (hk' : k < 32) :
    (realSize size ptralign daddr).toNat = need size.toNat (2 ^ k) daddr.toNat := by
  have hlow := toNat_low (y := daddr) hk
  have hpos := Nat.two_pow_pos k
  have hlt := Nat.mod_lt daddr.toNat hpos
  have hsize := size.toNat_lt
  have hple := Nat.pow_lt_pow_right (show 1 < 2 by omega) hk'
  have hsub : (ptralign - (daddr &&& (ptralign - 1))).toNat = 2 ^ k - daddr.toNat % 2 ^ k := by
    rw [UInt64.toNat_sub_of_le, hk, hlow]
    rw [UInt64.le_iff_toNat_le, hk, hlow]
    omega
  unfold realSize need
  dsimp only
  by_cases hmod : daddr.toNat % 2 ^ k = 0
  · have hzero : daddr &&& (ptralign - 1) = 0 := by
      apply UInt64.toNat.inj
      rw [hlow, hmod]
      rfl
    rw [if_neg (not_not.mpr hzero), if_pos hmod, UInt64.add_zero, UInt32.toNat_toUInt64]
  · have hne : daddr &&& (ptralign - 1) ≠ 0 := by
      intro h0
      rw [h0] at hlow
      exact hmod hlow.symm
    rw [if_pos hne, if_neg hmod, UInt64.toNat_add, UInt64.toNat_add, hsub, UInt32.toNat_toUInt64]
    omega

theorem toNat_alignAddr {ptralign daddr : UInt64} (hk : ptralign.toNat = 2 ^ k)
    (hfits : up (2 ^ k) daddr.toNat < 2 ^ 64) :
    (alignAddr ptralign daddr).toNat = up (2 ^ k) daddr.toNat := by
  have hlow := toNat_low (y := daddr) hk
  unfold alignAddr
  by_cases hmod : daddr.toNat % 2 ^ k = 0
  · have hzero : daddr &&& (ptralign - 1) = 0 := by
      apply UInt64.toNat.inj
      rw [hlow, hmod]
      rfl
    rw [if_neg (not_not.mpr hzero), up_eq_self (Nat.dvd_of_mod_eq_zero hmod)]
  · have hne : daddr &&& (ptralign - 1) ≠ 0 := by
      intro h0
      rw [h0] at hlow
      exact hmod hlow.symm
    rw [if_pos hne, toNat_add_high hk hmod hfits]

/-- A size is rounded up to a multiple of eight, unless that overflows. -/
theorem toNat_roundSize {size : UInt32} (h : size.toNat ≤ 2 ^ 32 - 8) :
    (roundSize size).toNat = up 8 (max size.toNat 1) := by
  by_cases h0 : size = 0
  · subst h0
    decide
  · have hpos : 0 < size.toNat := by
      rw [Nat.pos_iff_ne_zero]
      exact fun hz => h0 (UInt32.toNat.inj hz)
    have hmask : ptrSize.toUInt32 - 1 = 7 := rfl
    have hlow : (size &&& 7).toNat = size.toNat % 8 := by
      rw [UInt32.toNat_and]
      exact Nat.and_two_pow_sub_one_eq_mod size.toNat 3
    unfold roundSize
    dsimp only
    rw [if_neg h0, hmask, max_eq_left hpos]
    by_cases hmod : size.toNat % 8 = 0
    · have hzero : size &&& 7 = 0 := UInt32.toNat.inj (hlow.trans hmod)
      rw [if_neg (not_not.mpr hzero), up_eq_self (Nat.dvd_of_mod_eq_zero hmod)]
    · have hne : size &&& 7 ≠ 0 := fun hz => hmod (by rw [← hlow, hz]; rfl)
      have hsum : (size + ptrSize.toUInt32).toNat = size.toNat + 8 := by
        rw [UInt32.toNat_add]
        exact Nat.mod_eq_of_lt (show size.toNat + 8 < 2 ^ 32 by omega)
      have hhigh := and_high (show 3 ≤ 32 by omega) (show size.toNat + 8 < 2 ^ 32 by omega)
      rw [if_pos hne, up_of_mod_ne hmod, UInt32.toNat_and, hsum, UInt32.toNat_not]
      refine hhigh.trans ?_
      omega

/-! ### The list -/

/-- A block that is taken for a request, and what is left of it. -/
def cut (s al : Nat) (b : Block) : List Block :=
  let d := up al (b.addr + 40)
  if b.length - need s al (b.addr + 40) < 64 then [{ b with free := false, data := d }]
  else
    [{ b with length := d + s - (b.addr + 40), free := false, data := d },
      ⟨d + s, b.stop 40 - (d + s + 40), true, d + s + 40⟩]

/-- A block that has room for a request. -/
def Room (s al : Nat) (b : Block) : Prop := b.free ∧ need s al (b.addr + 40) ≤ b.length

instance (s al : Nat) (b : Block) : Decidable (Room s al b) := inferInstanceAs (Decidable (_ ∧ _))

/-- The first block that has room is taken: the address that is handed out, and the new list. -/
def allocate (s al : Nat) : List Block → Option (Nat × List Block)
  | [] => none
  | b :: bs =>
      if Room s al b then some (up al (b.addr + 40), cut s al b ++ bs)
      else (allocate s al bs).map fun q => (q.1, b :: q.2)

section Cut

variable {s al : Nat} (hroom : Room s al b)

include hroom

theorem up_add_le_stop : up al (b.addr + 40) + s ≤ b.stop 40 := by
  have hneed := up_add_le_need s al (b.addr + 40)
  have hle := hroom.2
  unfold Block.stop
  omega

/-- If a block is cut in two then a node fits into the rest. -/
theorem up_add_lt_stop (hcut : ¬b.length - need s al (b.addr + 40) < 64) :
    up al (b.addr + 40) + s + 64 ≤ b.stop 40 := by
  have hneed := up_add_le_need s al (b.addr + 40)
  have hle := hroom.2
  unfold Block.stop
  omega

theorem tiles_cut : Tiles 40 b.addr (cut s al b) (b.stop 40) := by
  have hup := le_up al (b.addr + 40)
  unfold cut
  dsimp only
  split
  · exact ⟨rfl, rfl⟩
  · rename_i hcut
    have hlt := up_add_lt_stop hroom hcut
    refine ⟨rfl, ?_, ?_⟩
    · show up al (b.addr + 40) + s = b.addr + 40 + (up al (b.addr + 40) + s - (b.addr + 40))
      omega
    · show up al (b.addr + 40) + s + 40 + (b.stop 40 - (up al (b.addr + 40) + s + 40)) = b.stop 40
      omega

theorem sound_cut (hs : Sound b) (hs8 : 8 ∣ s) (hal8 : 8 ∣ al) (hal : 0 < al) :
    ∀ c ∈ cut s al b, Sound c := by
  have hup := le_up al (b.addr + 40)
  have hdvd : 8 ∣ up al (b.addr + 40) := hal8.trans (dvd_up hal _)
  have hstop := up_add_le_stop hroom
  have hfits := hs.fits
  have hsmall := hs.small
  have hlen : b.stop 40 = b.addr + 40 + b.length := rfl
  unfold cut
  dsimp only
  split
  · intro c hc
    rw [List.mem_singleton] at hc
    subst hc
    exact ⟨hs.aligned, hup, by show up al (b.addr + 40) ≤ b.stop 40; omega, hfits, hsmall⟩
  · rename_i hcut
    have hlt := up_add_lt_stop hroom hcut
    intro c hc
    rcases List.mem_pair.mp hc with rfl | rfl
    · constructor <;> simp only [Block.stop] at * <;> first | exact hs.aligned | omega
    · constructor <;> simp only [Block.stop] at * <;> first | exact dvd_add hdvd hs8 | omega

end Cut

/-! ### One block -/

theorem toUInt32_eq_ofNat (u : UInt64) : u.toUInt32 = UInt32.ofNat u.toNat := by
  apply UInt32.toNat.inj
  rw [UInt64.toNat_toUInt32, UInt32.toNat_ofNat']

theorem Sound.toNat_memnodeData (hs : Sound b) : (memnodeData (ptr b)).toNat = b.addr + 40 := by
  have hfits : b.addr + 40 + b.length < 2 ^ 64 := hs.fits
  unfold memnodeData
  rw [UInt64.toNat_add, hs.ptr_toNat]
  exact Nat.mod_eq_of_lt (show b.addr + 40 < 2 ^ 64 by omega)

theorem Sound.toNat_length (hs : Sound b) : (UInt32.ofNat b.length).toUInt64.toNat = b.length := by
  rw [UInt32.toNat_toUInt64, UInt32.toNat_ofNat']
  exact Nat.mod_eq_of_lt hs.small

section Mark

variable {d : Nat} (hs : Sound b) (hd : b.addr + 40 ≤ d) (hds : d ≤ b.stop 40)

include hs hd hds

/-- Where the pointer to the node is put. -/
theorem toNat_back : (getData (ptr b) (setStatus (ptr b) .alloc (setData (ptr b) (UInt64.ofNat d) mem))
    - ptrSize).toNat = d - 8 := by
  have hfits := hs.fits
  have hdata : getData (ptr b) (setStatus (ptr b) .alloc (setData (ptr b) (UInt64.ofNat d) mem))
      = UInt64.ofNat d := by
    show (node (ptr b) _).data = _
    rw [node_setStatus, node_setData]
  have htoNat : (UInt64.ofNat d).toNat = d :=
    UInt64.toNat_ofNat_of_lt' (show d < 2 ^ 64 by omega)
  rw [hdata, UInt64.toNat_sub_of_le, htoNat]
  · rfl
  · rw [UInt64.le_iff_toNat_le, htoNat]
    show 8 ≤ d
    omega

theorem node_markAlloc : node (ptr b) (markAlloc (ptr b) (UInt64.ofNat d) mem)
    = { node (ptr b) mem with data := UInt64.ofNat d, status := MemnodeStatus.alloc.word } := by
  have hpb := hs.ptr_toNat
  have hset : node (ptr b) (setStatus (ptr b) .alloc (setData (ptr b) (UInt64.ofNat d) mem))
      = { node (ptr b) mem with data := UInt64.ofNat d, status := MemnodeStatus.alloc.word } := by
    rw [node_setStatus, node_setData]
  unfold markAlloc
  dsimp only
  rw [toNat_back hs hd hds, ← hset]
  exact node_congr fun i hi => Word.store64_outside _ (by omega)

theorem back_markAlloc :
    Word.load64 (markAlloc (ptr b) (UInt64.ofNat d) mem) (d - 8) = ptr b := by
  unfold markAlloc
  dsimp only
  rw [toNat_back hs hd hds]
  exact Word.load64_store64 _ _ _

/-- A block that is marked as taken. -/
theorem held_markAlloc (hnode : node (ptr b) mem = header b n) :
    Held (markAlloc (ptr b) (UInt64.ofNat d) mem) [{ b with free := false, data := d }] n := by
  refine ⟨?_, fun _ => back_markAlloc hs hd hds, trivial⟩
  show node (ptr b) _ = _
  rw [node_markAlloc hs hd hds, hnode]
  rfl

/-- Nothing is written but the node, and the eight bytes in front of the data. -/
theorem markAlloc_outside {x : Nat} (hx : x < b.addr ∨ b.addr + 32 ≤ x)
    (hx' : x < d - 8 ∨ d ≤ x) : markAlloc (ptr b) (UInt64.ofNat d) mem x = mem x := by
  have hpb := hs.ptr_toNat
  unfold markAlloc
  rw [toNat_back hs hd hds, Word.store64_outside _ (by omega), setStatus_outside (by omega),
    setData_outside (by omega)]

end Mark

section Split

variable (hsb : Sound b) (hsc : Sound c) (hbc : b.addr + 40 ≤ c.addr)

include hsb hsc hbc

theorem splitNode_outside {x : Nat} (hx : x < b.addr ∨ b.addr + 32 ≤ x)
    (hx' : x < c.addr ∨ c.addr + 32 ≤ x) : splitNode (ptr b) (ptr c) mem x = mem x := by
  have hpb := hsb.ptr_toNat
  have hpc := hsc.ptr_toNat
  unfold splitNode
  rw [setStatus_outside (by omega), setLength_outside (by omega), setData_outside (by omega),
    setSeal_outside (by omega), setStatus_outside (by omega), setNext_outside (by omega),
    setLength_outside (by omega), setNext_outside (by omega)]

theorem node_splitNode : node (ptr b) (splitNode (ptr b) (ptr c) mem)
    = { node (ptr b) mem with
        next := ptr c
        length := (ptr c - memnodeData (ptr b)).toUInt32
        status := MemnodeStatus.alloc.word } := by
  have hpb := hsb.ptr_toNat
  have hpc := hsc.ptr_toNat
  have hdis : (ptr b).toNat + 32 ≤ (ptr c).toNat ∨ (ptr c).toNat + 32 ≤ (ptr b).toNat := by omega
  unfold splitNode
  dsimp only
  rw [node_setStatus_other hdis, node_setLength_other hdis, node_setData_other hdis,
    node_setSeal_other hdis, node_setStatus, node_setNext, node_setLength, node_setNext_other hdis]

/-- The node of the new block. -/
theorem node_splitNode_new : node (ptr c) (splitNode (ptr b) (ptr c) mem)
    = ⟨memnodeSeal, getNext (ptr b) mem, (memnodeData (ptr b) + (getLength (ptr b) mem).toUInt64
        - memnodeData (ptr c)).toUInt32, MemnodeStatus.free.word, memnodeData (ptr c)⟩ := by
  have hpb := hsb.ptr_toNat
  have hpc := hsc.ptr_toNat
  have hdis : (ptr c).toNat + 32 ≤ (ptr b).toNat ∨ (ptr b).toNat + 32 ≤ (ptr c).toNat := by omega
  unfold splitNode
  dsimp only
  rw [node_setStatus, node_setLength, node_setData, node_setSeal, node_setStatus_other hdis,
    node_setNext_other hdis, node_setLength_other hdis, node_setNext]

/-- A taken block that is cut in two. -/
theorem held_splitNode (htaken : b.free = false) (hfree : c.free = true)
    (hdata : c.data = c.addr + 40) (hbd : b.data ≤ c.addr) (hstop : c.stop 40 = b.stop 40)
    (hheld : Held mem [b] n) : Held (splitNode (ptr b) (ptr c) mem)
      [{ b with length := c.addr - (b.addr + 40) }, c] n := by
  obtain ⟨hnode, hback, -⟩ := hheld
  have hnext : getNext (ptr b) mem = UInt64.ofNat n := congrArg Node.next hnode
  have hlength : getLength (ptr b) mem = UInt32.ofNat b.length := congrArg Node.length hnode
  have habove := hsb.above
  have hlenb : (ptr c - memnodeData (ptr b)).toUInt32 = UInt32.ofNat (c.addr - (b.addr + 40)) := by
    rw [toUInt32_eq_ofNat, UInt64.toNat_sub_of_le, hsc.ptr_toNat, hsb.toNat_memnodeData]
    rw [UInt64.le_iff_toNat_le, hsc.ptr_toNat, hsb.toNat_memnodeData]
    exact hbc
  have hend : (memnodeData (ptr b) + (UInt32.ofNat b.length).toUInt64).toNat = b.stop 40 := by
    rw [UInt64.toNat_add, hsb.toNat_memnodeData, hsb.toNat_length]
    exact Nat.mod_eq_of_lt hsb.fits
  have hstopc : c.addr + 40 + c.length = b.stop 40 := hstop
  have hlenc : (memnodeData (ptr b) + (UInt32.ofNat b.length).toUInt64
      - memnodeData (ptr c)).toUInt32 = UInt32.ofNat c.length := by
    rw [toUInt32_eq_ofNat, UInt64.toNat_sub_of_le, hend, hsc.toNat_memnodeData]
    · congr 1
      omega
    · rw [UInt64.le_iff_toNat_le, hend, hsc.toNat_memnodeData]
      omega
  have hdatac : memnodeData (ptr c) = UInt64.ofNat c.data := by
    apply UInt64.toNat.inj
    have hfits := hsc.fits
    rw [hsc.toNat_memnodeData, hdata, UInt64.toNat_ofNat_of_lt' (show c.addr + 40 < 2 ^ 64 by omega)]
  refine ⟨?_, fun _ => ?_, ?_, fun hno => ?_, trivial⟩
  · show node (ptr b) _ = _
    rw [node_splitNode hsb hsc hbc, hnode, hlenb]
    show Node.mk _ _ _ MemnodeStatus.alloc.word _ = Node.mk _ _ _ (status b.free).word _
    rw [htaken]
    rfl
  · refine Eq.trans (Word.load64_congr fun i hi => ?_) (hback htaken)
    exact splitNode_outside hsb hsc hbc (by show _ ∨ _; dsimp only; omega) (by dsimp only; omega)
  · rw [node_splitNode_new hsb hsc hbc, hnext, hlength, hlenc, hdatac]
    show Node.mk _ _ _ MemnodeStatus.free.word _ = Node.mk _ _ _ (status c.free).word _
    rw [hfree]
    rfl
  · rw [hfree] at hno
    exact absurd hno (by simp)

end Split

/-! ### One block in the list -/

/-- A block makes way for others that fill its place. -/
theorem Laid.replace (h : Laid a e mem (pre ++ b :: post))
    (hsame : ∀ x, x < b.addr ∨ b.stop 40 ≤ x → mem' x = mem x)
    (ht : Tiles 40 b.addr cs (b.stop 40)) (hs : ∀ c ∈ cs, Sound c)
    (hheld : Held mem' cs (link post 0)) (hlink : link (cs ++ post) 0 = b.addr) :
    Laid a e mem' (pre ++ (cs ++ post)) := by
  obtain ⟨t, htpre, hbt, htpost⟩ := tiles_append.mp h.tiles
  obtain ⟨hpre, hb⟩ := held_append.mp h.held
  have hspre : ∀ c ∈ pre, Sound c := fun c hc => h.sound c (List.mem_append_left _ hc)
  have hspost : ∀ c ∈ post, Sound c := fun c hc => h.sound c (by simp [hc])
  refine ⟨h.start, h.small, ?_, ?_, ?_⟩
  · refine tiles_append.mpr ⟨t, htpre, tiles_append.mpr ⟨b.stop 40, ?_, htpost⟩⟩
    rw [← hbt]
    exact ht
  · intro c hc
    rcases List.mem_append.mp hc with hc | hc
    · exact hspre c hc
    · rcases List.mem_append.mp hc with hc | hc
      · exact hs c hc
      · exact hspost c hc
  · refine held_append.mpr ⟨?_, held_append.mpr ⟨hheld, ?_⟩⟩
    · rw [hlink]
      refine held_congr hspre (fun c hc x ho => hsame x (Or.inl ?_)) hpre
      have hlt := ho.stop (hspre c hc)
      have hle := (htpre.mem hc).2
      omega
    · refine held_congr hspost (fun c hc x ho => hsame x (Or.inr ?_)) hb.2.2
      have hle := (htpost.mem hc).1
      have hcx := ho.1
      omega

/-- The address of the new node, which needs no rounding. -/
theorem newm_eq {size : UInt32} {d : Nat} (hs8 : 8 ∣ size.toNat) (hd : 8 ∣ d)
    (hfits : d + size.toNat < 2 ^ 64) :
    alignAddr ptrSize (UInt64.ofNat d + size.toUInt64) = UInt64.ofNat (d + size.toNat) := by
  have hsum : (UInt64.ofNat d + size.toUInt64).toNat = d + size.toNat := by
    rw [UInt64.toNat_add, UInt64.toNat_ofNat_of_lt' (show d < 2 ^ 64 by omega),
      UInt32.toNat_toUInt64]
    exact Nat.mod_eq_of_lt hfits
  have hself : up (2 ^ 3) (d + size.toNat) = d + size.toNat := up_eq_self (dvd_add hd hs8)
  apply UInt64.toNat.inj
  rw [toNat_alignAddr (k := 3) rfl (by rw [hsum, hself]; exact hfits), hsum, hself,
    UInt64.toNat_ofNat_of_lt' hfits]

section Use

variable {size : UInt32} {ptralign : UInt64} (hk : ptralign.toNat = 2 ^ k) (hk3 : 3 ≤ k)
  (hk32 : k < 32) (hs8 : 8 ∣ size.toNat) (hs : Sound b) (hroom : Room size.toNat (2 ^ k) b)

include hk hs hroom

theorem alignAddr_eq : alignAddr ptralign (memnodeData (ptr b))
    = UInt64.ofNat (up (2 ^ k) (b.addr + 40)) := by
  have hstop := up_add_le_stop hroom
  have hfits := hs.fits
  have hdata := hs.toNat_memnodeData
  have hlt : up (2 ^ k) (b.addr + 40) < 2 ^ 64 := by omega
  apply UInt64.toNat.inj
  rw [toNat_alignAddr hk (by rw [hdata]; exact hlt), hdata, UInt64.toNat_ofNat_of_lt' hlt]

include hk32

/-- The test whether the block is cut in two. -/
theorem cut_iff : (UInt32.ofNat b.length).toUInt64 - realSize size ptralign (memnodeData (ptr b))
      < minblksize ↔ b.length - need size.toNat (2 ^ k) (b.addr + 40) < 64 := by
  have hreal : (realSize size ptralign (memnodeData (ptr b))).toNat
      = need size.toNat (2 ^ k) (b.addr + 40) := by
    rw [toNat_realSize hk hk32, hs.toNat_memnodeData]
  have hle : realSize size ptralign (memnodeData (ptr b)) ≤ (UInt32.ofNat b.length).toUInt64 := by
    rw [UInt64.le_iff_toNat_le, hreal, hs.toNat_length]
    exact hroom.2
  rw [UInt64.lt_iff_toNat_lt, UInt64.toNat_sub_of_le _ _ hle, hreal, hs.toNat_length]
  rfl

include hk3 hs8

/-- **A block that has room is cut as `cut` says**, and only the block is written to. -/
theorem kmallocUse_eq (hnode : node (ptr b) mem = header b n) :
    ∃ mem', kmallocUse size ptralign
        ⟨ptr b, memnodeData (ptr b), realSize size ptralign (memnodeData (ptr b))⟩ mem
        = (UInt64.ofNat (up (2 ^ k) (b.addr + 40)), mem') ∧
      Held mem' (cut size.toNat (2 ^ k) b) n ∧
      ∀ x, x < b.addr ∨ b.stop 40 ≤ x → mem' x = mem x := by
  have hstop := up_add_le_stop hroom
  have hfits := hs.fits
  have hd := le_up (2 ^ k) (b.addr + 40)
  have hstop_eq : b.stop 40 = b.addr + 40 + b.length := rfl
  have hdvd : 8 ∣ up (2 ^ k) (b.addr + 40) :=
    (pow_dvd_pow 2 hk3).trans (dvd_up (Nat.two_pow_pos k) _)
  have hsound := sound_cut hroom hs hs8 (pow_dvd_pow 2 hk3) (Nat.two_pow_pos k)
  unfold kmallocUse
  unfold cut at hsound ⊢
  dsimp only at hsound ⊢
  rw [alignAddr_eq hk hs hroom]
  have hcut_iff := cut_iff hk hk32 hs hroom
  have hcutlt := up_add_lt_stop hroom
  generalize up (2 ^ k) (b.addr + 40) = d at *
  have hmark := held_markAlloc hs hd (by omega) hnode
  have houter : ∀ x, x < b.addr ∨ b.stop 40 ≤ x →
      markAlloc (ptr b) (UInt64.ofNat d) mem x = mem x :=
    fun x hx => markAlloc_outside hs hd (by omega) (by omega) (by omega)
  generalize markAlloc (ptr b) (UInt64.ofNat d) mem = mem₁ at *
  have hdata : getData (ptr b) mem₁ = UInt64.ofNat d := congrArg Node.data hmark.1
  rw [show getLength (ptr b) mem₁ = UInt32.ofNat b.length from congrArg Node.length hmark.1]
  by_cases hcut : b.length - need size.toNat (2 ^ k) (b.addr + 40) < 64
  · rw [if_pos (hcut_iff.mpr hcut), if_pos hcut, hdata]
    exact ⟨mem₁, rfl, hmark, houter⟩
  · rw [if_neg (mt hcut_iff.mp hcut)]
    rw [if_neg hcut] at hsound ⊢
    have hlt : d + size.toNat + 64 ≤ b.stop 40 := hcutlt hcut
    have hsc := hsound _ (List.mem_cons_of_mem _ List.mem_cons_self)
    have hsb : Sound { b with free := false, data := d } :=
      ⟨hs.aligned, hd, by show d ≤ b.stop 40; omega, hs.fits, hs.small⟩
    have hbc : b.addr + 40 ≤ d + size.toNat := by omega
    have hsplit := held_splitNode hsb hsc hbc rfl rfl rfl (by dsimp only; omega)
      (by show d + size.toNat + 40 + (b.stop 40 - (d + size.toNat + 40)) = b.stop 40; omega) hmark
    rw [newm_eq hs8 hdvd (by omega)]
    refine ⟨_, Prod.ext (congrArg Node.data hsplit.1) rfl, hsplit, fun x hx => ?_⟩
    refine (splitNode_outside hsb hsc hbc ?_ ?_).trans (houter x hx)
    · dsimp only
      omega
    · dsimp only
      omega

end Use

/-! ### kmalloc -/

theorem allocate_eq_none {s al : Nat} : allocate s al bs = none ↔ ∀ b ∈ bs, ¬Room s al b := by
  induction bs with
  | nil => simp [allocate]
  | cons b bs ih =>
      by_cases hroom : Room s al b
      · simp [allocate, hroom]
      · simp [allocate, hroom, ih]

/-- The block that is taken, and those in front of it that have no room. -/
theorem allocate_eq_some {s al d : Nat} (h : allocate s al bs = some (d, cs)) :
    ∃ pre b post, bs = pre ++ b :: post ∧ (∀ c ∈ pre, ¬Room s al c) ∧ Room s al b ∧
      d = up al (b.addr + 40) ∧ cs = pre ++ (cut s al b ++ post) := by
  induction bs generalizing cs with
  | nil => simp [allocate] at h
  | cons b bs ih =>
      by_cases hroom : Room s al b
      · simp only [allocate, hroom, if_true, Option.some.injEq, Prod.mk.injEq] at h
        exact ⟨[], b, bs, rfl, by simp, hroom, h.1.symm, h.2.symm⟩
      · simp only [allocate, hroom, if_false, Option.map_eq_some_iff] at h
        obtain ⟨⟨d', cs'⟩, hrest, heq⟩ := h
        obtain ⟨rfl, rfl⟩ := Prod.mk.inj heq
        obtain ⟨pre, c, post, rfl, hpre, hc, hd, rfl⟩ := ih hrest
        refine ⟨b :: pre, c, post, rfl, ?_, hc, hd, rfl⟩
        intro x hx
        rcases List.mem_cons.mp hx with rfl | hx
        · exact hroom
        · exact hpre x hx

section Search

variable {size : UInt32} {ptralign : UInt64} (hk : ptralign.toNat = 2 ^ k) (hk32 : k < 32)

include hk hk32

/-- A turn over a block takes it if it has room, and goes on otherwise. -/
theorem turn_search (hs : Sound b) (hb0 : b.addr ≠ 0) (hnode : node (ptr b) mem = header b n)
    (d r : UInt64) :
    (Room size.toNat (2 ^ k) b → kmallocTurn size ptralign ⟨ptr b, d, r⟩ mem = Part.some
      (.inl ⟨ptr b, memnodeData (ptr b), realSize size ptralign (memnodeData (ptr b))⟩, mem)) ∧
    (¬Room size.toNat (2 ^ k) b → ∃ d' r', kmallocTurn size ptralign ⟨ptr b, d, r⟩ mem
      = Part.some (.inr ⟨UInt64.ofNat n, d', r'⟩, mem)) := by
  have hstatus : getStatus (ptr b) mem = (status b.free).word := congrArg Node.status hnode
  have hnext : getNext (ptr b) mem = UInt64.ofNat n := congrArg Node.next hnode
  have hlength : getLength (ptr b) mem = UInt32.ofNat b.length := congrArg Node.length hnode
  have hless : (UInt32.ofNat b.length).toUInt64 < realSize size ptralign (memnodeData (ptr b))
      ↔ b.length < need size.toNat (2 ^ k) (b.addr + 40) := by
    rw [UInt64.lt_iff_toNat_lt, toNat_realSize hk hk32, hs.toNat_memnodeData, hs.toNat_length]
  unfold kmallocTurn Room
  dsimp only
  rw [if_neg (hs.ptr_ne_zero hb0), hstatus, hnext, hlength]
  cases hfree : b.free with
  | false => exact ⟨fun h => absurd h.1 (by simp), fun _ => ⟨d, r, rfl⟩⟩
  | true =>
      rw [if_neg (by decide)]
      constructor
      · intro h
        rw [if_neg (by rw [hless]; omega)]
      · intro h
        rw [if_pos (by rw [hless]; by_contra hge; exact h ⟨rfl, by omega⟩)]
        exact ⟨_, _, rfl⟩

/-- No block has room, and the search comes to the end of the list. -/
theorem search_none : ∀ {a : Nat} {bs : List Block}, Laid a e mem bs →
    (∀ b ∈ bs, ¬Room size.toNat (2 ^ k) b) → ∀ d r, ∃ d' r',
    Run.loop (kmallocTurn size ptralign) ⟨UInt64.ofNat (link bs 0), d, r⟩ mem
      = Part.some (⟨0, d', r'⟩, mem) := by
  intro a bs
  induction bs generalizing a with
  | nil => intro _ _ d r; exact ⟨d, r, Run.loop_done rfl⟩
  | cons b bs ih =>
      intro h hno d r
      have hb0 : b.addr ≠ 0 := by rw [h.tiles.1]; exact h.start
      obtain ⟨d', r', hturn⟩ := (turn_search hk hk32 (h.sound b (by simp)) hb0 h.held.1
        d r).2 (hno b (by simp))
      obtain ⟨d'', r'', hloop⟩ := ih h.tail (fun c hc => hno c (List.mem_cons_of_mem b hc)) d' r'
      exact ⟨d'', r'', (Run.loop_next hturn).trans hloop⟩

/-- The search stops at the first block that has room. -/
theorem search_some (hroom : Room size.toNat (2 ^ k) b) : ∀ {a : Nat} {pre : List Block},
    Laid a e mem (pre ++ b :: post) → (∀ c ∈ pre, ¬Room size.toNat (2 ^ k) c) → ∀ d r,
    Run.loop (kmallocTurn size ptralign) ⟨UInt64.ofNat (link (pre ++ b :: post) 0), d, r⟩ mem
      = Part.some
        (⟨ptr b, memnodeData (ptr b), realSize size ptralign (memnodeData (ptr b))⟩, mem) := by
  intro a pre
  induction pre generalizing a with
  | nil =>
      intro h _ d r
      have hb0 : b.addr ≠ 0 := by rw [h.tiles.1]; exact h.start
      exact Run.loop_done ((turn_search hk hk32 (h.sound b (by simp)) hb0 h.held.1 d r).1 hroom)
  | cons c pre ih =>
      intro h hno d r
      have hc0 : c.addr ≠ 0 := by rw [h.tiles.1]; exact h.start
      obtain ⟨d', r', hturn⟩ := (turn_search hk hk32 (h.sound c (by simp)) hc0 h.held.1
        d r).2 (hno c (by simp))
      exact (Run.loop_next hturn).trans
        (ih h.tail (fun x hx => hno x (List.mem_cons_of_mem c hx)) d' r')

end Search

/-- Nothing has changed but in free blocks. -/
def Keeps (bs : List Block) (mem mem' : Mem UInt8) : Prop :=
  ∀ x, (∀ b ∈ bs, b.free → x < b.addr ∨ b.stop 40 ≤ x) → mem' x = mem x

section Kmalloc

variable {pool : Mempool} {size align : UInt32} (hroot : pool.root = UInt64.ofNat a)
  (hlaid : Laid a e mem bs) (hne : bs ≠ []) (hk : (ptrAlign align).toNat = 2 ^ k) (hk32 : k < 32)

include hroot hlaid hne hk hk32

/-- **If no block has room then `kmalloc` returns `NULL`.** -/
theorem kmalloc_none (hnone : allocate (roundSize size).toNat (2 ^ k) bs = none) :
    kmalloc pool size align mem = Part.some (0, mem) := by
  have hlink : pool.root = UInt64.ofNat (link bs 0) := by rw [hroot, hlaid.link_eq hne]
  obtain ⟨d, r, hloop⟩ := search_none hk hk32 hlaid (allocate_eq_none.mp hnone) 0 0
  unfold kmalloc
  rw [hlink, Run.bind_eq hloop]
  rfl

/-- **Otherwise it takes the first block that has room.** -/
theorem kmalloc_some {d : Nat} (hk3 : 3 ≤ k) (hs8 : 8 ∣ (roundSize size).toNat)
    (hsome : allocate (roundSize size).toNat (2 ^ k) bs = some (d, cs)) :
    ∃ mem', kmalloc pool size align mem = Part.some (UInt64.ofNat d, mem') ∧
      Laid a e mem' cs ∧ Keeps bs mem mem' := by
  have hlink : pool.root = UInt64.ofNat (link bs 0) := by rw [hroot, hlaid.link_eq hne]
  obtain ⟨pre, b, post, rfl, hpre, hroom, rfl, rfl⟩ := allocate_eq_some hsome
  have hs := hlaid.sound b (by simp)
  have hnode := (held_append.mp hlaid.held).2.1
  have hb0 : b.addr ≠ 0 := by
    have := (hlaid.tiles.mem (b := b) (by simp)).1
    have := hlaid.start
    omega
  have hloop := search_some hk hk32 hroom hlaid hpre 0 0
  obtain ⟨mem', huse, hheld, hout⟩ := kmallocUse_eq hk hk3 hk32 hs8 hs hroom hnode
  refine ⟨mem', ?_, ?_, fun x hx => hout x (hx b (by simp) hroom.1)⟩
  · unfold kmalloc
    rw [hlink, Run.bind_eq hloop, if_neg (hs.ptr_ne_zero hb0), huse]
  · refine hlaid.replace hout (tiles_cut hroom)
      (sound_cut hroom hs hs8 (pow_dvd_pow 2 hk3) (Nat.two_pow_pos k)) hheld ?_
    unfold cut
    dsimp only
    split <;> rfl

/-- What it returns. -/
theorem kmalloc_answer (hk3 : 3 ≤ k) (hs8 : 8 ∣ (roundSize size).toNat) :
    (kmalloc pool size align mem).map (·.1) = Part.some
      (((allocate (roundSize size).toNat (2 ^ k) bs).map (·.1)).elim 0 UInt64.ofNat) := by
  cases hall : allocate (roundSize size).toNat (2 ^ k) bs with
  | none => rw [kmalloc_none hroot hlaid hne hk hk32 hall, Part.map_some]; rfl
  | some q =>
      obtain ⟨mem', hsome, -⟩ := kmalloc_some hroot hlaid hne hk hk32 hk3 hs8 hall
      rw [hsome, Part.map_some]
      rfl

end Kmalloc

/-! ### kfree -/

section Kfree

variable {pool : Mempool} (hroot : pool.root = UInt64.ofNat a) (hbase : pool.base.toNat = a)
  (hend : a + pool.length.toNat = e) (hfits : e < 2 ^ 64)

include hbase hend hfits

/-- A pointer into the pool: its node is found in front of it. -/
theorem kfree_enter (hs : Sound b) (hab : a ≤ b.addr) (hdata : b.data < e)
    (hback : Word.load64 mem (b.data - 8) = ptr b) :
    kfree pool (UInt64.ofNat b.data) mem
      = if getSeal (ptr b) mem ≠ memnodeSeal then Part.some ((), mem)
        else kmemcompact pool (setStatus (ptr b) .free mem) := by
  have habove := hs.above
  have hp : (UInt64.ofNat b.data).toNat = b.data :=
    UInt64.toNat_ofNat_of_lt' (show b.data < 2 ^ 64 by omega)
  have hsub : (UInt64.ofNat b.data - ptrSize).toNat = b.data - 8 := by
    have hle : ptrSize ≤ UInt64.ofNat b.data := by
      rw [UInt64.le_iff_toNat_le, hp]
      show 8 ≤ b.data
      omega
    rw [UInt64.toNat_sub_of_le _ _ hle, hp]
    rfl
  have hin : ¬(UInt64.ofNat b.data < pool.base ∨
      pool.base + pool.length.toUInt64 ≤ UInt64.ofNat b.data) := by
    have hsum : (pool.base + pool.length.toUInt64).toNat = e := by
      rw [UInt64.toNat_add, UInt32.toNat_toUInt64, hbase, hend]
      exact Nat.mod_eq_of_lt hfits
    rw [UInt64.lt_iff_toNat_lt, UInt64.le_iff_toNat_le, hsum, hp, hbase]
    omega
  unfold kfree
  rw [if_neg hin, hsub, hback]

omit hbase hend hfits in
/-- A taken block that is marked as free. -/
theorem Laid.setFree (hlaid : Laid a e mem (pre ++ b :: post)) :
    Laid a e (setStatus (ptr b) .free mem) (pre ++ { b with free := true } :: post) := by
  have hs := hlaid.sound b (by simp)
  have hpb := hs.ptr_toNat
  have hstop : b.stop 40 = b.addr + 40 + b.length := rfl
  refine Laid.replace hlaid (fun x hx => ?_) (show Tiles 40 b.addr [{ b with free := true }] _ from
    ⟨rfl, rfl⟩) ?_ ?_ rfl
  · exact setStatus_outside (by omega) _
  · intro c hc
    rw [List.mem_singleton.mp hc]
    exact ⟨hs.aligned, hs.above, hs.within, hs.fits, hs.small⟩
  · refine ⟨?_, fun hno => absurd hno (by simp), trivial⟩
    show node (ptr b) _ = _
    rw [node_setStatus, (held_append.mp hlaid.held).2.1]
    rfl

include hroot

/-- **`kfree` frees the block and coalesces the list.** -/
theorem kfree_eq (hlaid : Laid a e mem (pre ++ b :: post)) (htaken : b.free = false)
    (hdata : b.data < e) :
    ∃ mem', kfree pool (UInt64.ofNat b.data) mem = Part.some ((), mem') ∧
      Laid a e mem' (coalesce 40 (pre ++ { b with free := true } :: post)) ∧
      Spares (pre ++ { b with free := true } :: post) mem mem' ∧
      Cleared (pre ++ { b with free := true } :: post)
        (coalesce 40 (pre ++ { b with free := true } :: post)) mem' := by
  have hs := hlaid.sound b (by simp)
  have hab := (hlaid.tiles.mem (b := b) (by simp)).1
  obtain ⟨-, hnode, hback, -⟩ := held_append.mp hlaid.held
  have hseal : getSeal (ptr b) mem = memnodeSeal := congrArg Node.seal' hnode
  obtain ⟨mem', hcompact, hlaid', hspare, hclear⟩ :=
    kmemcompact_eq hroot _ hlaid.setFree (by simp)
  refine ⟨mem', ?_, hlaid', fun x hx => ?_, hclear⟩
  · rw [kfree_enter hbase hend hfits hs hab hdata (hback htaken), if_neg (not_not.mpr hseal)]
    exact hcompact
  · have hxb : ¬Own { b with free := true } x := hx _ (by simp) rfl
    rw [hspare x hx]
    refine setStatus_outside ?_ _
    rw [hs.ptr_toNat]
    unfold Own at hxb
    simp only [if_true] at hxb
    omega

end Kfree

/-- Nodes of free blocks are in free blocks. -/
theorem Spares.keeps (h : Spares bs mem mem') (hs : ∀ b ∈ bs, Sound b) : Keeps bs mem mem' := by
  refine fun x hx => h x fun b hb hfree ho => ?_
  have hlt := ho.stop (hs b hb)
  have hbx := ho.1
  have := hx b hb hfree
  omega

end Xell.Malloc
