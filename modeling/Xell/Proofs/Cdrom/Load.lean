/-
Loading a file from a drive that works.

`Reads` is the path of a drive that answers a READ(10) with the sectors of a disc, after some
attempts that it fails and for which it has sense data that asks for another one.  If the drive
`Serves` a disc, that is what it does with every READ(10), after at most nine failures.

The loop reads chunks of 64 sectors and what is left at the end (`nextNum_ofNat`).  Each chunk
is stored as a whole even if an attempt before was broken off (`Reads.readSector`), so that the
chunks add up to one store of the whole extent.
-/
import Xell.Proofs.Cdrom.Player

namespace Xell.Cdrom

variable {σ : Type} {d : Ide σ} {t t' : σ} {l : List (BitVec 32 × BitVec 32)}
  {disc : BitVec 32 → Mem UInt8}

/-! ### Sense data -/

/-- Sense data for which `read_sector` tries again: UNIT ATTENTION, or becoming ready. -/
def AsksAgain (f : Nat → UInt8) : Prop :=
  f 2 = 6 ∨ (f 2 = 2 ∧ f 12 = 4 ∧ f 13 = 1)

/-- What `request_sense` returns for some sense data. -/
def senseCode (f : Nat → UInt8) : BitVec 32 :=
  (f 2).toBitVec.setWidth 32 <<< 16 ||| (f 12).toBitVec.setWidth 32 <<< 8
    ||| (f 13).toBitVec.setWidth 32

/-- The two lower bytes are shifted out. -/
theorem senseCode_shift (f : Nat → UInt8) :
    (senseCode f).sshiftRight 16 = (f 2).toBitVec.setWidth 32 := by
  have h₁₂ : (f 12).toBitVec.setWidth 32 <<< 8 >>> 16 = 0#32 := by
    have := (f 12).toBitVec.isLt
    apply BitVec.eq_of_toNat_eq
    simp only [BitVec.toNat_ushiftRight, BitVec.toNat_shiftLeft, BitVec.toNat_setWidth,
      Nat.shiftRight_eq_div_pow, Nat.shiftLeft_eq, BitVec.toNat_ofNat]
    omega
  have h₁₃ : (f 13).toBitVec.setWidth 32 >>> 16 = 0#32 := by
    have := (f 13).toBitVec.isLt
    apply BitVec.eq_of_toNat_eq
    simp only [BitVec.toNat_ushiftRight, BitVec.toNat_setWidth, Nat.shiftRight_eq_div_pow,
      BitVec.toNat_ofNat]
    omega
  have h₂ : (f 2).toBitVec.setWidth 32 <<< 16 >>> 16 = (f 2).toBitVec.setWidth 32 := by
    have := (f 2).toBitVec.isLt
    apply BitVec.eq_of_toNat_eq
    simp only [BitVec.toNat_ushiftRight, BitVec.toNat_shiftLeft, BitVec.toNat_setWidth,
      Nat.shiftRight_eq_div_pow, Nat.shiftLeft_eq]
    omega
  have hmsb : (senseCode f).msb = false := by
    simp [senseCode, BitVec.msb_eq_getLsbD_last]
  rw [BitVec.sshiftRight_eq_of_msb_false hmsb, senseCode, BitVec.ushiftRight_or_distrib,
    BitVec.ushiftRight_or_distrib, h₁₂, h₁₃, h₂, BitVec.or_zero, BitVec.or_zero]

theorem senseCode_again {f : Nat → UInt8} (h : AsksAgain f) :
    (senseCode f).sshiftRight 16 = 6 ∨ senseCode f = 0x020401 := by
  rcases h with h | ⟨h₂, h₁₂, h₁₃⟩
  · left
    rw [senseCode_shift, h]
    rfl
  · right
    rw [senseCode, h₂, h₁₂, h₁₃]
    rfl

theorem Delivers.requestSense {f : Nat → UInt8} (h : Delivers d sensePacket 6 f t t') :
    requestSense d ⟨t, l⟩ = Part.some (senseCode f, ⟨t', l⟩) := by
  unfold Cdrom.requestSense
  have hrun : Cdrom.atapiPacket d sensePacket (d.uninit t) 0 24 ⟨t, l⟩
      = Part.some ((0, (d.uninit t).store 0 24 f), ⟨t', l⟩) := h.atapiPacket (by decide) (by simp)
  rw [Run.bind_eq rfl, Run.bind_eq hrun, if_neg (by simp)]
  rfl

/-! ### Sectors -/

variable (d disc) in
/-- The drive answers READ(10) for `num` sectors, after some attempts that fail. -/
inductive Reads (lba : BitVec 32) (num : Nat) : Nat → σ → σ → Prop where
  | now {t t' : σ}
      (h : Delivers d (readPacket lba (BitVec.ofNat 32 num)) (512 * num) (extent disc lba) t t') :
      Reads lba num 0 t t'
  | retry {k : Nat} {f : Nat → UInt8} {t t₁ t₂ t' : σ}
      (hfails : Fails d (readPacket lba (BitVec.ofNat 32 num)) (512 * num) t t₁)
      (hsense : Delivers d sensePacket 6 f t₁ t₂) (hagain : AsksAgain f)
      (hrest : Reads lba num k t₂ t') : Reads lba num (k + 1) t t'

/-- As long as `I` holds of the drive, it answers every READ(10) with what is on the disc, after
at most nine failures, and `I` holds again. -/
def Serves (d : Ide σ) (disc : BitVec 32 → Mem UInt8) (I : σ → Prop) : Prop :=
  ∀ t, I t → ∀ lba num, num ≤ 64 → ∃ k ≤ 9, ∃ t', Reads d disc lba num k t t' ∧ I t'

/-- The length that `read_sector` asks for, in words of the data register. -/
theorem readLength (num : Nat) :
    0x800 * BitVec.ofNat 32 num = BitVec.ofNat 32 (4 * (512 * num)) := by
  rw [← Nat.mul_assoc, BitVec.ofNat_mul]
  rfl

/-- An attempt that succeeds. -/
theorem Delivers.readSector {lba num : BitVec 32} {n m : Nat} {f : Nat → UInt8}
    {sector : BitVec 64} {mem : Mem UInt8} (hlen : 0x800 * num = BitVec.ofNat 32 (4 * n))
    (hhalf : ((BitVec.ofNat 32 (4 * n)).sdiv 2).toNat = 2 * n)
    (hroom : sector.toNat + 4 * n ≤ 2 ^ 64)
    (h : Delivers d (readPacket lba num) n f t t') :
    readSector d sector lba num (m + 1) mem ⟨t, l⟩
      = Part.some ((0, mem.store sector.toNat (4 * n) f), ⟨t', l ++ [(lba, num)]⟩) := by
  rw [Cdrom.readSector, Run.bind_eq rfl, hlen, Run.bind_eq (h.atapiPacket hhalf hroom),
    if_neg (by simp)]
  rfl

theorem Reads.readSector {lba : BitVec 32} {num k : Nat} (hnum : num ≤ 64)
    {sector : BitVec 64} (hroom : sector.toNat + 2048 * num ≤ 2 ^ 64)
    (h : Reads d disc lba num k t t') :
    ∀ {m : Nat} {mem : Mem UInt8} {l : List (BitVec 32 × BitVec 32)}, k < m →
      readSector d sector lba (BitVec.ofNat 32 num) m mem ⟨t, l⟩
        = Part.some ((0, mem.store sector.toNat (2048 * num) (extent disc lba)),
            ⟨t', l ++ List.replicate (k + 1) (lba, BitVec.ofNat 32 num)⟩) := by
  have hlen := readLength num
  have hbytes : 2048 * num = 4 * (512 * num) := by omega
  rw [hbytes] at hroom ⊢
  induction h with
  | now h =>
      intro m mem l hm
      obtain ⟨m, rfl⟩ : ∃ m', m = m' + 1 := ⟨m - 1, by omega⟩
      exact h.readSector hlen (sdiv_two (by omega)) hroom
  | @retry k f t t₁ t₂ t' hfails hsense hagain _ ih =>
      intro m mem l hm
      obtain ⟨m, rfl⟩ : ∃ m', m = m' + 1 := ⟨m - 1, by omega⟩
      obtain ⟨r, mem', hrun, hr, hsame⟩ := hfails.atapiPacket (by omega) hroom
      rw [Cdrom.readSector, Run.bind_eq rfl, hlen, Run.bind_eq hrun, if_pos hr,
        Run.bind_eq hsense.requestSense]
      have hrest := @ih m mem' (l ++ [(lba, BitVec.ofNat 32 num)]) (by omega)
      rw [hsame.store_eq, List.append_assoc, List.singleton_append, ← List.replicate_succ]
        at hrest
      by_cases hattention : (senseCode f).sshiftRight 16 = 6
      · rw [if_pos hattention]
        exact hrest
      · have hready := (senseCode_again hagain).resolve_left hattention
        rw [if_neg hattention, if_pos hready]
        exact hrest

/-! ### The chunks -/

/-- The sectors that a file of `s` bytes takes. -/
def sectors (s : Nat) : Nat := (s + 0x7ff) / 0x800

theorem nextNum_ofNat {s : Nat} (hs : s + 0x7ff < 2 ^ 31) :
    nextNum (BitVec.ofNat 32 s) = BitVec.ofNat 32 (min 64 (sectors s)) := by
  have hint : (BitVec.ofNat 32 (s + 0x7ff)).toInt = (s + 0x7ff : Nat) :=
    Signed.toInt_ofNat hs
  have hadd : BitVec.ofNat 32 s + 0x7ff = BitVec.ofNat 32 (s + 0x7ff) :=
    (BitVec.ofNat_add _ _).symm
  have hdiv : ((BitVec.ofNat 32 s + 0x7ff).sdiv 0x800).toInt = (sectors s : Nat) := by
    rw [hadd, Signed.toInt_sdiv_of_nonneg (by decide) (by omega), hint,
      show (0x800 : BitVec 32).toInt = 0x800 from rfl]
    unfold sectors
    omega
  have hnum : (BitVec.ofNat 32 s + 0x7ff).sdiv 0x800 = BitVec.ofNat 32 (sectors s) := by
    apply BitVec.eq_of_toNat_eq
    rw [Signed.toNat_of_toInt hdiv, BitVec.toNat_ofNat, Nat.mod_eq_of_lt]
    unfold sectors
    omega
  have hslt : (64 : BitVec 32).slt ((BitVec.ofNat 32 s + 0x7ff).sdiv 0x800) ↔ 64 < sectors s := by
    rw [BitVec.slt_iff_toInt_lt, hdiv, show (64 : BitVec 32).toInt = 64 from rfl]
    omega
  unfold nextNum
  dsimp only
  by_cases h : 64 < sectors s
  · rw [if_pos (hslt.mpr h), Nat.min_eq_left (by omega)]
    rfl
  · rw [if_neg (mt hslt.mp h), Nat.min_eq_right (by omega), hnum]

/-- After the last chunk nothing is left. -/
theorem left_last {s : Nat} (h : sectors s ≤ 64) :
    (BitVec.ofNat 32 s - BitVec.ofNat 32 (sectors s) * 0x800).sle 0 = true := by
  unfold sectors at h ⊢
  rw [BitVec.sle_iff_toInt_le, BitVec.toInt_eq_toNat_cond]
  simp only [BitVec.toNat_sub, BitVec.toNat_mul, BitVec.toNat_ofNat]
  simp
  omega

/-- Before the last chunk, 64 sectors have been read and something is left. -/
theorem left_more {s : Nat} (hs : s + 0x7ff < 2 ^ 31) (h : 64 < sectors s) :
    BitVec.ofNat 32 s - BitVec.ofNat 32 64 * 0x800 = BitVec.ofNat 32 (s - 131072) ∧
      ¬(BitVec.ofNat 32 (s - 131072)).sle 0 = true := by
  unfold sectors at h
  refine ⟨?_, ?_⟩
  · apply BitVec.eq_of_toNat_eq
    simp
    omega
  · rw [BitVec.sle_iff_toInt_le, Signed.toInt_ofNat (show s - 131072 < 2 ^ 31 by omega),
      show (0 : BitVec 32).toInt = 0 from rfl]
    omega

theorem sectors_more {s : Nat} (h : 64 < sectors s) : sectors s = 64 + sectors (s - 131072) := by
  unfold sectors at h ⊢
  omega

theorem addr_more {addr : BitVec 64} (h : addr.toNat + 2048 * 64 < 2 ^ 64) :
    (addr + (BitVec.ofNat 32 64 * 0x800).signExtend 64).toNat = addr.toNat + 2048 * 64 := by
  have hstep : ((BitVec.ofNat 32 64 * 0x800).signExtend 64).toNat = 2048 * 64 := rfl
  rw [BitVec.toNat_add, hstep]
  omega

section Turns

variable {fileSize lba s : BitVec 32} {mem mem' : Mem UInt8} {addr : BitVec 64} {b b' : Bus σ}

theorem loadLoop_failed {r : Int}
    (hrun : readSector d addr lba (nextNum s) 10 mem b = Part.some ((r, mem'), b')) (hr : r ≠ 0) :
    loadLoop d fileSize mem addr lba s b = Part.some ((-1, mem'), b') := by
  apply Run.loop_done
  rw [loadTurn, Run.bind_eq hrun, if_pos hr]
  rfl

theorem loadLoop_last
    (hrun : readSector d addr lba (nextNum s) 10 mem b = Part.some ((0, mem'), b'))
    (hleft : (s - nextNum s * 0x800).sle 0 = true) :
    loadLoop d fileSize mem addr lba s b = Part.some ((fileSize, mem'), b') := by
  apply Run.loop_done
  rw [loadTurn, Run.bind_eq hrun, if_neg (by simp), if_pos hleft]
  rfl

theorem loadLoop_more
    (hrun : readSector d addr lba (nextNum s) 10 mem b = Part.some ((0, mem'), b'))
    (hleft : ¬(s - nextNum s * 0x800).sle 0 = true) :
    loadLoop d fileSize mem addr lba s b
      = loadLoop d fileSize mem' (addr + (nextNum s * 0x800).signExtend 64) (lba + nextNum s)
          (s - nextNum s * 0x800) b' := by
  apply Run.loop_next
  rw [loadTurn, Run.bind_eq hrun, if_neg (by simp), if_neg hleft]
  rfl

end Turns

/-- The `n` sectors from `lba` on. -/
def sectorRun (lba : BitVec 32) (n : Nat) : List (BitVec 32) :=
  (List.range n).map fun i => lba + BitVec.ofNat 32 i

theorem sectorRun_add (lba : BitVec 32) (n k : Nat) :
    sectorRun lba (n + k) = sectorRun lba n ++ sectorRun (lba + BitVec.ofNat 32 n) k := by
  unfold sectorRun
  rw [List.range_add, List.map_append, List.map_map]
  congr 1
  refine List.map_congr_left fun i _ => ?_
  show lba + BitVec.ofNat 32 (n + i) = lba + BitVec.ofNat 32 n + BitVec.ofNat 32 i
  rw [BitVec.ofNat_add, BitVec.add_assoc]

/-- The extent, taken up after some sectors of it. -/
theorem extent_add (disc : BitVec 32 → Mem UInt8) (lba : BitVec 32) (n : Nat) :
    extent disc (lba + BitVec.ofNat 32 n) = fun i => extent disc lba (2048 * n + i) := by
  funext i
  unfold extent
  rw [Nat.mul_add_div (by omega), Nat.mul_add_mod, BitVec.ofNat_add, BitVec.add_assoc]

variable (d disc) in
/-- The drive goes through a plan of reads.  The other list has the READ(10)s that this takes:
each read of the plan, once for every attempt. -/
inductive Served : List (BitVec 32 × BitVec 32) → List (BitVec 32 × BitVec 32) → σ → σ → Prop where
  | nil {t : σ} : Served [] [] t t
  | cons {lba : BitVec 32} {num k : Nat} {plan reads : List (BitVec 32 × BitVec 32)}
      {t t₁ t' : σ} (hk : k ≤ 9) (hreads : Reads d disc lba num k t t₁)
      (hrest : Served plan reads t₁ t') :
      Served ((lba, BitVec.ofNat 32 num) :: plan)
        (List.replicate (k + 1) (lba, BitVec.ofNat 32 num) ++ reads) t t'

/-- A plan reads `n` sectors from `lba` on in order, at most 64 at a time. -/
structure Covers (plan : List (BitVec 32 × BitVec 32)) (lba : BitVec 32) (n : Nat) : Prop where
  small : ∀ c ∈ plan, c.2.toNat ≤ 64
  inOrder : plan.flatMap (fun c => sectorRun c.1 c.2.toNat) = sectorRun lba n

theorem toNat_ofNat_num {num : Nat} (h : num ≤ 64) : (BitVec.ofNat 32 num).toNat = num := by
  rw [BitVec.toNat_ofNat, Nat.mod_eq_of_lt (by omega)]

theorem covers_last (lba : BitVec 32) {n : Nat} (h : n ≤ 64) :
    Covers [(lba, BitVec.ofNat 32 n)] lba n := by
  have hn := toNat_ofNat_num h
  refine ⟨fun c hc => ?_, ?_⟩
  · obtain rfl := List.mem_singleton.mp hc
    exact hn.le.trans h
  · rw [List.flatMap_singleton, hn]

theorem Covers.cons {plan : List (BitVec 32 × BitVec 32)} {lba : BitVec 32} {n : Nat}
    (h : Covers plan (lba + BitVec.ofNat 32 64) n) :
    Covers ((lba, BitVec.ofNat 32 64) :: plan) lba (64 + n) := by
  refine ⟨fun c hc => ?_, ?_⟩
  · rcases List.mem_cons.mp hc with rfl | hc
    · exact le_rfl
    · exact h.small c hc
  · rw [List.flatMap_cons, h.inOrder, toNat_ofNat_num le_rfl, sectorRun_add]

/-- The loop, by strong induction on how much is left. -/
theorem loadLoop_serves {I : σ → Prop} (hserves : Serves d disc I) (fileSize : BitVec 32)
    (s : Nat) :
    ∀ {t : σ} {mem : Mem UInt8} {addr : BitVec 64} {lba : BitVec 32}
      {l : List (BitVec 32 × BitVec 32)}, s + 0x7ff < 2 ^ 31 → I t →
      addr.toNat + 2048 * sectors s ≤ 2 ^ 64 →
      ∃ t' plan reads,
        loadLoop d fileSize mem addr lba (BitVec.ofNat 32 s) ⟨t, l⟩
          = Part.some ((fileSize, mem.store addr.toNat (2048 * sectors s) (extent disc lba)),
              ⟨t', l ++ reads⟩) ∧
        Served d disc plan reads t t' ∧ Covers plan lba (sectors s) := by
  induction s using Nat.strongRecOn with
  | _ s ih =>
      intro t mem addr lba l hs ht hroom
      have hnum := nextNum_ofNat hs
      by_cases hlast : sectors s ≤ 64
      · rw [Nat.min_eq_right hlast] at hnum
        obtain ⟨k, hk, t', hreads, _⟩ := hserves t ht lba (sectors s) hlast
        have hrun := @Reads.readSector _ _ _ _ _ _ _ _ hlast addr hroom hreads 10 mem l (by omega)
        refine ⟨t', [(lba, BitVec.ofNat 32 (sectors s))], _, ?_, .cons hk hreads .nil,
          covers_last lba hlast⟩
        rw [List.append_nil]
        exact loadLoop_last (by rw [hnum]; exact hrun) (by rw [hnum]; exact left_last hlast)
      · have hmore : 64 < sectors s := by omega
        have hsectors := sectors_more hmore
        rw [Nat.min_eq_left hmore.le] at hnum
        obtain ⟨hleft, hpos⟩ := left_more hs hmore
        obtain ⟨k, hk, t₁, hreads, ht₁⟩ := hserves t ht lba 64 le_rfl
        have hrun := @Reads.readSector _ _ _ _ _ _ _ _ le_rfl addr (by omega) hreads 10 mem l
          (by omega)
        have haddr := @addr_more addr (by omega)
        obtain ⟨t', plan, reads, hloop, hserved, hcovers⟩ :=
          @ih (s - 131072) (by unfold sectors at hmore; omega) t₁
            (mem.store addr.toNat (2048 * 64) (extent disc lba))
            (addr + (BitVec.ofNat 32 64 * 0x800).signExtend 64) (lba + BitVec.ofNat 32 64)
            (l ++ List.replicate (k + 1) (lba, BitVec.ofNat 32 64)) (by omega) ht₁ (by omega)
        refine ⟨t', (lba, BitVec.ofNat 32 64) :: plan, _, ?_, .cons hk hreads hserved, ?_⟩
        · rw [loadLoop_more (by rw [hnum]; exact hrun) (by rw [hnum, hleft]; exact hpos), hnum,
            hleft, hloop, haddr, extent_add, Mem.store_append, hsectors, Nat.mul_add,
            List.append_assoc]
        · rw [hsectors]
          exact hcovers.cons

/--
**A file is loaded as it is on the disc.**  On a drive that serves a disc, for every first sector
and every size up to `LOADER_MAXSIZE`, `iso9660_load_file` ends and returns the size.  It has
asked for the sectors of the extent in order, at most 64 at a time and some of them again if the
drive was not ready, the drive has sent just the words of these, and the bytes of the extent are
in memory from `addr` on, up to the end of the last sector.  Nothing else has changed.
-/
theorem load_exact {I : σ → Prop} (hserves : Serves d disc I) (ht : I t) (mem : Mem UInt8)
    (addr : BitVec 64) (fileSector : BitVec 32) {s : Nat} (hs : s ≤ loaderMaxsize)
    (hroom : addr.toNat + 2048 * sectors s ≤ 2 ^ 64) :
    ∃ t' plan reads,
      iso9660LoadFile d mem addr fileSector (BitVec.ofNat 32 s) ⟨t, []⟩
        = Part.some ((BitVec.ofNat 32 s,
            mem.store addr.toNat (2048 * sectors s) (extent disc fileSector)), ⟨t', reads⟩) ∧
      Served d disc plan reads t t' ∧ Covers plan fileSector (sectors s) := by
  have hsmall : s + 0x7ff < 2 ^ 31 := by
    unfold loaderMaxsize at hs
    omega
  exact loadLoop_serves hserves (BitVec.ofNat 32 s) s hsmall ht hroom

/-! ### A drive that serves a disc -/

open Player in
/-- The player does, if the disc was changed too: it fails once then. -/
theorem player_serves (disc : BitVec 32 → Mem UInt8) :
    Serves (player disc) disc fun _ => True := by
  intro t _ lba num _
  cases hchanged : t.changed && t.opcode != 0x03 with
  | false => exact ⟨0, by omega, _, .now (player_reads lba _ _ hchanged), trivial⟩
  | true =>
      have htakes := @player_takes disc (readPacket lba (BitVec.ofNat 32 num))
        (BitVec.ofNat 32 (4 * (512 * num))) t
      rw [hchanged] at htakes
      have hsense := player_delivers (@player_takes disc sensePacket (BitVec.ofNat 32 (4 * 6))
        (withPacket (readPacket lba (BitVec.ofNat 32 num)) true)) rfl (refuses_sensePacket _)
      rw [answer_sensePacket] at hsense
      have hagain : AsksAgain senseData := .inl rfl
      have hclear : ∀ c : Bool, ({ withPacket sensePacket c with pos := 6 }.changed
          && { withPacket sensePacket c with pos := 6 }.opcode != 0x03) = false := by
        intro c
        have hopcode : { withPacket sensePacket c with pos := 6 }.opcode = 0x03 :=
          opcode_sensePacket c
        rw [hopcode]
        simp
      exact ⟨1, by omega, _, .retry (player_fails htakes (refuses_readPacket _ _ _)) hsense hagain
        (.now (player_reads lba _ _ (hclear _))), trivial⟩

/-- A disc, for its sectors to differ. -/
def striped (lba : BitVec 32) : Mem UInt8 := fun i => UInt8.ofNat (lba.toNat + i)

/-- A file of 74 sectors, in two chunks, on a disc that has just been put in. -/
theorem load_exact_striped :
    ∃ t' plan reads,
      iso9660LoadFile (player striped) (fun _ => 0) loaderRaw 20 (BitVec.ofNat 32 150000)
          ⟨⟨[], 0, true⟩, []⟩
        = Part.some ((BitVec.ofNat 32 150000,
            Mem.store (fun _ => 0) loaderRaw.toNat (2048 * sectors 150000) (extent striped 20)),
            ⟨t', reads⟩) ∧
      Served (player striped) striped plan reads ⟨[], 0, true⟩ t' ∧
      Covers plan 20 (sectors 150000) :=
  load_exact (player_serves striped) trivial (fun _ => 0) loaderRaw 20 (by decide) (by decide)

end Xell.Cdrom
