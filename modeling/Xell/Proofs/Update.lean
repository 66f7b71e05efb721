/-
What `update_xell_flash` writes.

`Told` is what the accesses to its registers tell a controller: which words go into its page
buffer, which block is erased, and where the buffer is programmed.  On a controller that gets done
with what it is told to do, the update is refused or comes to its end, and the data of the pages
are the same on all of them (`updateXellFlash_ends`): 512 pages for the addresses from one megabyte
on, each either 512 bytes from the memory where the file is, or 0xff throughout.  Where a block is,
register 6 says.

A page is copied as a whole if the file reaches into it.  So the bytes that are written are those
of the file and 0xff behind it if the file ends with a page and is no longer than the 512 pages
are.  Otherwise there is memory behind the file that is written too, or a part of the file that is
not written.
-/
import Mathlib.Data.List.GetD
import Xell.Update
import Xell.Proofs.Flash

namespace Xell.Flash

variable {σ : Type} {d : Sfcx σ}

/-! ### What a controller is told -/

/--
What the accesses to its registers tell a controller.  Its page buffer is known as far as it was
filled word by word.  Register 6 says where the sector that was read last is in the flash.
-/
structure Told where
  address : BitVec 32
  data : BitVec 32
  /-- The last two commands. -/
  last : BitVec 32 × BitVec 32
  buffer : Mem (Option UInt8)
  sector : BitVec 32
  /-- The answers of register 6, each behind the sector it is about. -/
  located : List (BitVec 32 × BitVec 32)
  erased : List (BitVec 32)
  programmed : List (BitVec 32 × Mem (Option UInt8))

/-- Byte `i` of a register, from the lowest. -/
def regByte (w : BitVec 32) (i : Nat) : UInt8 := UInt8.ofBitVec ((w >>> (8 * i)).setWidth 8)

/-- A command.  The flash is changed only behind the two that unlock it. -/
def Told.command (t : Told) (c : BitVec 32) : Told :=
  let t' := { t with last := (t.last.2, c) }
  if c = 0 then { t' with address := t.address + 4 }
  else if c = 1 then
    { t' with
      buffer := t.buffer.store t.address.toNat 4 fun i => some (regByte t.data i)
      address := t.address + 4 }
  else if c = 2 ∨ c = 3 then { t' with buffer := fun _ => none, sector := t.address }
  else if c = 4 ∧ t.last = (0x55, 0xAA) then
    { t' with programmed := t.programmed ++ [(t.address, t.buffer)] }
  else if c = 5 ∧ t.last = (0xAA, 0x55) then { t' with erased := t.erased ++ [t.address] }
  else t'

def Told.access (t : Told) : Access → Told
  | .read reg data => if reg = 6 then { t with located := t.located ++ [(t.sector, data)] } else t
  | .write reg data =>
      if reg = addressReg then { t with address := data }
      else if reg = dataReg then { t with data := data }
      else if reg = commandReg then t.command data
      else t

def Told.start : Told := ⟨0, 0, (0, 0), fun _ => none, 0, [], [], []⟩

def Programmer.told (b : Programmer σ) : Told := b.accesses.foldl Told.access Told.start

@[simp] theorem told_access (t : σ) (l : List Access) (a : Access) :
    (Programmer.mk t (l ++ [a])).told = (Programmer.mk t l).told.access a := by
  simp [Programmer.told]

/-! ### Controllers that get done -/

/-- The controller after a poll. -/
def polled (d : Sfcx σ) (t : σ) : σ := (d.readreg statusReg t).2

/-- Whatever happens, some later poll finds the controller idle. -/
def Responsive (d : Sfcx σ) : Prop :=
  ∀ t, ∃ n, (d.readreg statusReg ((polled d)^[n] t)).1 &&& 1 = 0

/-- The programmer after a poll. -/
def Programmer.poll (d : Sfcx σ) (b : Programmer σ) : Programmer σ :=
  ⟨polled d b.sfcx, b.accesses ++ [.read statusReg (d.readreg statusReg b.sfcx).1]⟩

theorem waitIdle_idle {b : Programmer σ} (h : (d.readreg statusReg b.sfcx).1 &&& 1 = 0) :
    waitIdle d b = Part.some ((), b.poll d) := by
  apply Run.loop_done
  rw [waitIdleTurn, Run.bind_eq rfl, if_neg (not_not.mpr h)]
  rfl

theorem waitIdle_busy {b : Programmer σ} (h : ¬(d.readreg statusReg b.sfcx).1 &&& 1 = 0) :
    waitIdle d b = waitIdle d (b.poll d) := by
  apply Run.loop_next
  rw [waitIdleTurn, Run.bind_eq rfl, if_pos h]
  rfl

theorem poll_told (b : Programmer σ) : (b.poll d).told = b.told :=
  told_access _ _ _

theorem waitIdle_ends (h : Responsive d) (b : Programmer σ) :
    Run.Ends (waitIdle d) b fun _ b' => b'.told = b.told := by
  obtain ⟨n, hn⟩ := h b.sfcx
  induction n generalizing b with
  | zero => exact ⟨_, _, waitIdle_idle hn, poll_told b⟩
  | succ n ih =>
      by_cases hidle : (d.readreg statusReg b.sfcx).1 &&& 1 = 0
      · exact ⟨_, _, waitIdle_idle hidle, poll_told b⟩
      · refine .of_eq (waitIdle_busy hidle) ((ih (b.poll d) hn).mono fun _ b' hb' => ?_)
        exact hb'.trans (poll_told b)

/-- Nothing is located, erased or programmed, and no other sector is read. -/
structure Stays (t t' : Told) : Prop where
  sector : t'.sector = t.sector
  located : t'.located = t.located
  erased : t'.erased = t.erased
  programmed : t'.programmed = t.programmed

theorem readWords_ends (data : Mem UInt8) (n : Nat) (b : Programmer σ) :
    Run.Ends ((List.range n).foldlM (readWord d) data) b fun _ b' => Stays b.told b'.told := by
  refine .foldlM_range (I := fun _ _ (b' : Programmer σ) => Stays b.told b'.told) n
    (fun k _ _ b' hb' => ?_) ⟨rfl, rfl, rfl, rfl⟩
  refine .step rfl (.step rfl (.pure ?_))
  simp only [told_access]
  exact ⟨hb'.sector, hb'.located, hb'.erased, hb'.programmed⟩

/-- A sector is read, and nothing else is done to the flash. -/
structure Reads (sector : BitVec 32) (t t' : Told) : Prop where
  sector : t'.sector = sector
  located : t'.located = t.located
  erased : t'.erased = t.erased
  programmed : t'.programmed = t.programmed

theorem readsector_ends (h : Responsive d) (data : Mem UInt8) (sector : BitVec 32) (raw : Bool)
    (b : Programmer σ) :
    Run.Ends (readsector d data sector raw) b fun _ b' => Reads sector b.told b'.told := by
  have hcommand : ∀ t : Told, Reads t.address t (t.command (if raw then 3 else 2)) := by
    intro t
    cases raw
    · exact ⟨rfl, rfl, rfl, rfl⟩
    · exact ⟨rfl, rfl, rfl, rfl⟩
  unfold readsector
  refine .step rfl (.step rfl (.step rfl (.step rfl ?_)))
  refine (waitIdle_ends h _).bind fun _ b₁ h₁ => .step rfl ?_
  refine (readWords_ends data _ _).mono fun _ b₂ h₂ => ?_
  simp only [told_access] at h₁ h₂
  have hread := hcommand { b.told with address := sector }
  have h₁' : b₁.told = ({ b.told with address := sector } : Told).command (if raw then 3 else 2) := h₁
  have h₂' : Stays { b₁.told with address := 0 } b₂.told := h₂
  rw [h₁'] at h₂'
  exact ⟨h₂'.sector.trans hread.sector, h₂'.located.trans hread.located,
    h₂'.erased.trans hread.erased, h₂'.programmed.trans hread.programmed⟩

theorem flashErase_ends (h : Responsive d) (address : BitVec 32) (b : Programmer σ) :
    Run.Ends (flashErase d address) b fun _ b' => b'.told.located = b.told.located ∧
      b'.told.erased = b.told.erased ++ [address] ∧ b'.told.programmed = b.told.programmed := by
  unfold flashErase
  refine .step rfl (.step rfl (.step rfl (.step rfl ?_)))
  refine (waitIdle_ends h _).bind fun _ b₁ h₁ => .step rfl (.step rfl ?_)
  refine (waitIdle_ends h _).bind fun _ b₂ h₂ => .step rfl ?_
  refine (waitIdle_ends h _).bind fun _ b₃ h₃ => .step rfl (.step rfl (.step rfl ?_))
  refine ⟨_, _, rfl, ?_⟩
  simp only [told_access] at h₁ h₂ h₃ ⊢
  have h₁' : b₁.told = { b.told with address := address } := h₁
  have h₂' : b₂.told = { b₁.told with last := (0xAA, 0x55) } := h₂
  have h₃' : b₃.told = b₂.told.command 5 := h₃
  rw [h₂', h₁'] at h₃'
  show b₃.told.located = _ ∧ b₃.told.erased = _ ∧ b₃.told.programmed = _
  rw [h₃']
  exact ⟨rfl, rfl, rfl⟩

/-! ### The page buffer -/

/-- A word reaches the controller lowest byte first, which is its first byte in memory. -/
theorem regByte_loadWord (data : Mem UInt8) (a : Nat) {i : Nat} (hi : i < 4) :
    regByte (bswap32 (loadWord data a)) i = data (a + i) := by
  have hbits : (regByte (bswap32 (loadWord data a)) i).toBitVec = (data (a + i)).toBitVec := by
    apply BitVec.eq_of_getLsbD_eq
    intro k hk
    have hbit := bswap32_loadWord data a (j := 8 * i + k) (by omega)
    unfold pageBit at hbit
    rw [show (8 * a + (8 * i + k)) / 8 = a + i by omega,
      show (8 * a + (8 * i + k)) % 8 = k by omega] at hbit
    unfold regByte
    simp [hk, hbit]
  exact UInt8.toBitVec_inj.mp hbits

/-- The first `k` words of a page have been put into the buffer, and nothing else was done. -/
structure Filled (data : Mem UInt8) (t : Told) (k : Nat) (t' : Told) : Prop where
  address : t'.address = BitVec.ofNat 32 (4 * k)
  buffer : ∀ i < 4 * k, t'.buffer i = some (data i)
  same : Stays t t'

theorem Filled.word {data : Mem UInt8} {t t' : Told} {k : Nat} (h : Filled data t k t')
    (hk : k < 0x210 / 4) :
    Filled data t (k + 1)
      (({ t' with data := bswap32 (loadWord data (4 * k)) } : Told).command 1) := by
  have haddr : t'.address.toNat = 4 * k := by
    rw [h.address, BitVec.toNat_ofNat]
    omega
  refine ⟨?_, fun i hi => ?_, h.same.sector, h.same.located, h.same.erased, h.same.programmed⟩
  · show t'.address + 4 = _
    rw [h.address]
    exact (BitVec.ofNat_add (4 * k) 4).symm
  · show t'.buffer.store t'.address.toNat 4
      (fun i => some (regByte (bswap32 (loadWord data (4 * k))) i)) i = _
    rw [haddr]
    by_cases hlt : i < 4 * k
    · rw [Mem.store_outside _ _ (.inl hlt)]
      exact h.buffer i hlt
    · obtain ⟨j, rfl⟩ := Nat.exists_eq_add_of_le (Nat.not_lt.mp hlt)
      rw [Mem.store_at _ _ _ (by omega), regByte_loadWord data _ (by omega)]

theorem writeWords_ends (data : Mem UInt8) (b : Programmer σ) (haddr : b.told.address = 0) :
    Run.Ends ((List.range (0x210 / 4)).foldlM (writeWord d data) ()) b
      fun _ b' => Filled data b.told (0x210 / 4) b'.told := by
  refine .foldlM_range (I := fun k _ (b' : Programmer σ) => Filled data b.told k b'.told) _
    (fun k hk _ b' hb' => ?_) ⟨haddr, fun i hi => by omega, rfl, rfl, rfl, rfl⟩
  refine .step rfl ⟨_, _, rfl, ?_⟩
  simp only [told_access]
  exact hb'.word hk

/-- One page is programmed. -/
structure Programs (address : BitVec 32) (data : Mem UInt8) (t t' : Told) : Prop where
  located : t'.located = t.located
  erased : t'.erased = t.erased
  page : ∃ page, t'.programmed = t.programmed ++ [(address, page)] ∧
    ∀ i < 0x210, page i = some (data i)

theorem writePage_ends (h : Responsive d) (address : BitVec 32) (data : Mem UInt8)
    (b : Programmer σ) :
    Run.Ends (writePage d address data) b fun _ b' => Programs address data b.told b'.told := by
  unfold writePage
  refine .step rfl (.step rfl (.step rfl (.step rfl ?_)))
  refine (writeWords_ends data _ (told_access _ _ _ ▸ rfl)).bind
    fun _ b₁ h₁ => .step rfl (.step rfl ?_)
  refine (waitIdle_ends h _).bind fun _ b₂ h₂ => .step rfl ?_
  refine (waitIdle_ends h _).bind fun _ b₃ h₃ => .step rfl ?_
  refine (waitIdle_ends h _).bind fun _ b₄ h₄ => .step rfl (.step rfl ?_)
  refine ⟨_, _, rfl, ?_⟩
  simp only [told_access] at h₁ h₂ h₃ h₄ ⊢
  have hsame : Stays b.told b₁.told :=
    ⟨h₁.same.sector, h₁.same.located, h₁.same.erased, h₁.same.programmed⟩
  have h₂' : b₂.told = ({ b₁.told with address := address } : Told).command 0x55 := h₂
  have h₃' : b₃.told = b₂.told.command 0xAA := h₃
  have h₄' : b₄.told = b₃.told.command 4 := h₄
  rw [h₃', h₂'] at h₄'
  show Programs address data b.told b₄.told
  rw [h₄']
  exact ⟨hsame.located, hsame.erased, b₁.told.buffer,
    congrArg (· ++ [(address, b₁.told.buffer)]) hsame.programmed, h₁.buffer⟩

/-! ### Pages -/

/-- The data of the page for the 512 bytes from `a` on. -/
def pageData (xell : Mem UInt8) (fileSize a : Nat) : List UInt8 :=
  if a < fileSize then xell.slice a 0x200 else List.replicate 0x200 0xff

/-- The spare area is written behind the data. -/
theorem updatePage_lt (xell : Mem UInt8) (fileSize addr j physPos eraseblockSize : Nat)
    (block : Mem UInt8) {i : Nat} (hi : i < 0x200) :
    updatePage xell fileSize addr j physPos eraseblockSize block i
      = if addr + j * 0x200 < fileSize then xell (addr + j * 0x200 + i) else 0xff := by
  have hat : ∀ (m : Mem UInt8) (f : Nat → UInt8), m.store 0 0x200 f i = f i := by
    intro m f
    have h := Mem.store_at m 0 f hi
    rwa [Nat.zero_add] at h
  have hbehind : ∀ (m : Mem UInt8) (a n : Nat) (f : Nat → UInt8), 0x200 ≤ a →
      m.store a n f i = m i := fun m a n f ha => Mem.store_outside m f (.inl (by omega))
  unfold updatePage calcecc storeWord
  dsimp only
  rw [hbehind _ _ _ _ (by omega), hbehind _ _ _ _ (by omega), hbehind _ _ _ _ (by omega),
    hbehind _ _ _ _ (by omega), hbehind _ _ _ _ (by omega), hbehind _ _ _ _ (by omega),
    hbehind _ _ _ _ (by omega)]
  split
  · rw [hat]
  · rw [hat]

theorem updatePage_slice (xell : Mem UInt8) (fileSize addr j physPos eraseblockSize : Nat)
    (block : Mem UInt8) :
    (updatePage xell fileSize addr j physPos eraseblockSize block).slice 0 0x200
      = pageData xell fileSize (addr + j * 0x200) := by
  have hbyte : (updatePage xell fileSize addr j physPos eraseblockSize block).slice 0 0x200
      = (List.range 0x200).map fun i =>
          if addr + j * 0x200 < fileSize then xell (addr + j * 0x200 + i) else 0xff := by
    refine List.map_congr_left fun i hi => ?_
    rw [Nat.zero_add]
    exact updatePage_lt xell fileSize addr j physPos eraseblockSize block (List.mem_range.mp hi)
  rw [hbyte]
  unfold pageData
  split
  · rfl
  · rw [List.map_const', List.length_range]

/-- Where an erase block is: where register 6 says, if it knows. -/
def place (l : BitVec 32 × BitVec 32) : BitVec 32 :=
  (if l.2 &&& 0x04000000 = 0 then l.1 else l.2) &&& 0x3fffe00

/-- The places of the first `n` pages of an erase block. -/
def pagePlaces (l : BitVec 32 × BitVec 32) (n : Nat) : List (BitVec 32) :=
  (List.range n).map fun j => place l + BitVec.ofNat 32 (j * 0x200)

/-- The data of the pages that were programmed. -/
def Told.pages (t : Told) : List (List (Option UInt8)) :=
  t.programmed.map fun p => p.2.slice 0 0x200

/-- The data of the first `n` pages of an update. -/
def updatePages (xell : Mem UInt8) (fileSize n : Nat) : List (List UInt8) :=
  (List.range n).map fun k => pageData xell fileSize (k * 0x200)

theorem updatePages_succ (xell : Mem UInt8) (fileSize n : Nat) :
    updatePages xell fileSize (n + 1)
      = updatePages xell fileSize n ++ [pageData xell fileSize (n * 0x200)] := by
  unfold updatePages
  rw [List.range_succ, List.map_append]
  rfl

/-- The first `i` erase blocks have been written, each where it is. -/
structure Updated (xell : Mem UInt8) (fileSize i : Nat) (t : Told) : Prop where
  located : t.located.map Prod.fst
    = (List.range i).map fun k => BitVec.ofNat 32 (k * eraseblockSize + flashOffset)
  erased : t.erased = t.located.map place
  places : t.programmed.map Prod.fst = t.located.flatMap (pagePlaces · 32)
  pages : t.pages = (updatePages xell fileSize (i * 32)).map (·.map some)

/-- The first `j` pages of the block that `l` locates have been written since `t₀`. -/
structure InBlock (xell : Mem UInt8) (fileSize i : Nat) (l : BitVec 32 × BitVec 32) (t₀ : Told)
    (j : Nat) (t : Told) : Prop where
  located : t.located = t₀.located ++ [l]
  erased : t.erased = t₀.erased ++ [place l]
  places : t.programmed.map Prod.fst = t₀.programmed.map Prod.fst ++ pagePlaces l j
  pages : t.pages = (updatePages xell fileSize (i * 32 + j)).map (·.map some)

section Run

variable (xell : Mem UInt8) (fileSize : Nat)

/-- One page more. -/
theorem updateTurn_ends (h : Responsive d) {i j : Nat} {l : BitVec 32 × BitVec 32} {t₀ : Told}
    (block : Mem UInt8) {b : Programmer σ} (hb : InBlock xell fileSize i l t₀ j b.told) :
    Run.Ends (updateTurn d xell fileSize (i * eraseblockSize) (place l) block j) b
      fun _ b' => InBlock xell fileSize i l t₀ (j + 1) b'.told := by
  have haddr : i * eraseblockSize + j * 0x200 = (i * 32 + j) * 0x200 := by
    unfold eraseblockSize
    omega
  unfold updateTurn
  refine (writePage_ends h _ _ b).bind fun _ b₁ h₁ => ?_
  refine (readsector_ends h _ _ _ b₁).mono fun _ b₂ h₂ => ?_
  obtain ⟨page, hprog, hpage⟩ := h₁.page
  have hslice : page.slice 0 0x200
      = (pageData xell fileSize ((i * 32 + j) * 0x200)).map some := by
    rw [← haddr, ← updatePage_slice xell fileSize (i * eraseblockSize) j (place l).toNat
      eraseblockSize block]
    unfold Mem.slice
    rw [List.map_map]
    refine List.map_congr_left fun k hk => ?_
    have := List.mem_range.mp hk
    exact hpage (0 + k) (by omega)
  refine ⟨h₂.located.trans (h₁.located.trans hb.located),
    h₂.erased.trans (h₁.erased.trans hb.erased), ?_, ?_⟩
  · rw [h₂.programmed, hprog, List.map_append, hb.places, List.append_assoc]
    unfold pagePlaces
    rw [List.range_succ, List.map_append]
    rfl
  · have hpages : b₂.told.pages = b.told.pages ++ [page.slice 0 0x200] := by
      unfold Told.pages
      rw [h₂.programmed, hprog, List.map_append, List.map_singleton]
    rw [hpages, hb.pages, ← Nat.add_assoc, updatePages_succ, List.map_append, List.map_singleton,
      hslice]

theorem updateTurns_ends (h : Responsive d) {i : Nat} {l : BitVec 32 × BitVec 32} {t₀ : Told}
    (block : Mem UInt8) {b : Programmer σ} (hb : InBlock xell fileSize i l t₀ 0 b.told) :
    Run.Ends ((List.range (eraseblockSize / 0x200)).foldlM
        (updateTurn d xell fileSize (i * eraseblockSize) (place l)) block) b
      fun _ b' => InBlock xell fileSize i l t₀ 32 b'.told :=
  @Run.Ends.foldlM_range _ _ _ (fun j _ (b : Programmer σ) => InBlock xell fileSize i l t₀ j b.told)
    (eraseblockSize / 0x200) (fun _ _ block _ hb => updateTurn_ends xell fileSize h block hb) block b hb

/-- A block whose pages have all been written is one block more. -/
theorem InBlock.all {i : Nat} {l : BitVec 32 × BitVec 32} {t₀ t : Told}
    (h : InBlock xell fileSize i l t₀ 32 t) (h₀ : Updated xell fileSize i t₀)
    (hl : l.1 = BitVec.ofNat 32 (i * eraseblockSize + flashOffset)) :
    Updated xell fileSize (i + 1) t where
  located := by
    rw [h.located, List.map_append, h₀.located, List.range_succ, List.map_append, List.map_singleton,
      List.map_singleton, hl]
  erased := by rw [h.erased, h.located, List.map_append, h₀.erased, List.map_singleton]
  places := by
    rw [h.places, h.located, List.flatMap_append, h₀.places, List.flatMap_singleton]
  pages := by rw [h.pages, Nat.succ_mul]

theorem updateBlock_ends (h : Responsive d) {i : Nat} {b : Programmer σ}
    (hb : Updated xell fileSize i b.told) :
    Run.Ends (updateBlock d xell fileSize () i) b
      fun _ b' => Updated xell fileSize (i + 1) b'.told := by
  unfold updateBlock
  refine (readsector_ends h _ _ _ b).bind fun block b₁ h₁ => .step rfl ?_
  refine (flashErase_ends h _ _).bind fun _ b₂ h₂ => ?_
  obtain ⟨hlocated, herased, hprogrammed⟩ := h₂
  simp only [told_access] at hlocated herased hprogrammed
  -- what register 6 says of the sector that has been read
  have hl : InBlock xell fileSize i
      (BitVec.ofNat 32 (i * eraseblockSize + flashOffset), (d.readreg 6 b₁.sfcx).1) b.told 0
      b₂.told := by
    refine ⟨?_, ?_, ?_, ?_⟩
    · rw [hlocated]
      show b₁.told.located ++ [(b₁.told.sector, _)] = _
      rw [h₁.located, h₁.sector]
    · rw [herased]
      show b₁.told.erased ++ [_] = _
      rw [h₁.erased]
      rfl
    · rw [hprogrammed]
      show b₁.told.programmed.map Prod.fst = _
      rw [h₁.programmed]
      exact (List.append_nil _).symm
    · have hpages : b₂.told.pages = b.told.pages :=
        congrArg (List.map _) (hprogrammed.trans h₁.programmed)
      rw [hpages, Nat.add_zero]
      exact hb.pages
  exact (updateTurns_ends xell fileSize h block hl).bind fun _ b₃ h₃ =>
    .pure (h₃.all xell fileSize hb rfl)

theorem updateBlocks_ends (h : Responsive d) {b : Programmer σ}
    (hb : Updated xell fileSize 0 b.told) :
    Run.Ends ((List.range (0x40000 / eraseblockSize)).foldlM (updateBlock d xell fileSize) ()) b
      fun _ b' => Updated xell fileSize 16 b'.told :=
  @Run.Ends.foldlM_range _ _ _ (fun i _ (b : Programmer σ) => Updated xell fileSize i b.told)
    (0x40000 / eraseblockSize) (fun _ _ _ _ hb => updateBlock_ends xell fileSize h hb) () b hb

/-- Nothing has been written when the image has been looked at. -/
theorem Reads.updated {sector : BitVec 32} {t t' : Told} (h : Reads sector t t')
    (ht : t.located = [] ∧ t.erased = [] ∧ t.programmed = []) : Updated xell fileSize 0 t' := by
  obtain ⟨hl, he, hp⟩ := ht
  have hlocated := h.located.trans hl
  have herased := h.erased.trans he
  have hprogrammed := h.programmed.trans hp
  refine ⟨by rw [hlocated]; rfl, by rw [herased, hlocated]; rfl,
    by rw [hprogrammed, hlocated]; rfl, ?_⟩
  unfold Told.pages
  rw [hprogrammed]
  rfl

/-- The update is refused, or all of the pages are programmed. -/
theorem updateXellFlash_ends (h : Responsive d) (t : σ) :
    Run.Ends (updateXellFlash d xell fileSize) ⟨t, []⟩ fun r b =>
      r = .refused ∨ (xell.slice 0 4 ≠ elfhdr ∧ Updated xell fileSize 16 b.told) := by
  unfold updateXellFlash
  refine .step rfl (.step rfl (.step rfl ?_))
  split
  · exact .step rfl (.pure (.inl rfl))
  refine (readsector_ends h _ _ _ _).bind fun hdr b hb => ?_
  split
  · exact .pure (.inl rfl)
  split
  · exact .pure (.inl rfl)
  · rename_i helf
    have hstart := hb.updated xell fileSize ⟨rfl, rfl, rfl⟩
    exact (updateBlocks_ends xell fileSize h hstart).bind fun _ b' hb' => .pure (.inr ⟨helf, hb'⟩)

end Run

/-! ### Bytes -/

/-- Byte `x` of all that is written. -/
def pageByte (xell : Mem UInt8) (fileSize x : Nat) : UInt8 :=
  if x / 0x200 * 0x200 < fileSize then xell x else 0xff

theorem pageData_eq (xell : Mem UInt8) (fileSize n : Nat) :
    pageData xell fileSize (n * 0x200)
      = (List.range 0x200).map fun i => pageByte xell fileSize (n * 0x200 + i) := by
  have hpage : ∀ i ∈ List.range 0x200, pageByte xell fileSize (n * 0x200 + i)
      = if n * 0x200 < fileSize then xell (n * 0x200 + i) else 0xff := by
    intro i hi
    have := List.mem_range.mp hi
    unfold pageByte
    rw [show (n * 0x200 + i) / 0x200 = n by omega]
  rw [List.map_congr_left hpage]
  unfold pageData
  split
  · rfl
  · rw [List.map_const', List.length_range]

theorem updatePages_bytes (xell : Mem UInt8) (fileSize n : Nat) :
    (updatePages xell fileSize n).flatten
      = (List.range (n * 0x200)).map (pageByte xell fileSize) := by
  induction n with
  | zero => rfl
  | succ n ih =>
      rw [updatePages_succ, List.flatten_append, ih, List.flatten_singleton, pageData_eq,
        Nat.succ_mul, List.range_add, List.map_append, List.map_map]
      simp only [Function.comp_def]

/-- The file and 0xff, if it ends with a page. -/
theorem bytes_of_pages (xell : Mem UInt8) {fileSize n : Nat} (hpage : 0x200 ∣ fileSize)
    (hle : fileSize ≤ n * 0x200) :
    (List.range (n * 0x200)).map (pageByte xell fileSize)
      = xell.slice 0 fileSize ++ List.replicate (n * 0x200 - fileSize) 0xff := by
  obtain ⟨q, rfl⟩ := hpage
  have hfirst : (List.range (0x200 * q)).map (pageByte xell (0x200 * q))
      = xell.slice 0 (0x200 * q) := by
    refine List.map_congr_left fun x hx => ?_
    have := List.mem_range.mp hx
    unfold pageByte
    rw [if_pos (by omega), Nat.zero_add]
  have hsecond : ∀ k, (List.range k).map (fun i => pageByte xell (0x200 * q) (0x200 * q + i))
      = List.replicate k 0xff := by
    intro k
    rw [List.eq_replicate_iff]
    refine ⟨by rw [List.length_map, List.length_range], fun y hy => ?_⟩
    obtain ⟨i, -, rfl⟩ := List.mem_map.mp hy
    unfold pageByte
    rw [if_neg (by omega)]
  have hsplit : n * 0x200 = 0x200 * q + (n * 0x200 - 0x200 * q) := by omega
  rw [← hfirst, ← hsecond]
  conv_lhs => rw [hsplit, List.range_add, List.map_append, List.map_map]
  rfl

/-! ### Exact updates -/

/-- What a controller was told is to put the file, and 0xff behind it, into the 256 KB from one
megabyte on: it was asked for the sixteen blocks, and each was erased and its pages programmed in
order where it is. -/
structure WritesExactly (file : List UInt8) (t : Told) : Prop where
  located : t.located.map Prod.fst
    = (List.range 16).map fun i => BitVec.ofNat 32 (i * eraseblockSize + flashOffset)
  erased : t.erased = t.located.map place
  places : t.programmed.map Prod.fst = t.located.flatMap (pagePlaces · 32)
  exact : ∃ n, t.pages.flatten = (file ++ List.replicate n 0xff).map some

/-- On every controller that gets done with what it is told, and whatever is in memory behind the
file: the update is refused, or it writes the file. -/
def FlashedExactly (file : List UInt8) : Prop :=
  ∀ (σ : Type) (d : Sfcx σ), Responsive d → ∀ (t : σ) (xell : Mem UInt8),
    xell.slice 0 file.length = file →
    Run.Ends (updateXellFlash d xell file.length) ⟨t, []⟩
      fun r b => r = .refused ∨ WritesExactly file b.told

section Exact

variable {file : List UInt8} {xell : Mem UInt8} {t : Told}

theorem Updated.bytes (h : Updated xell file.length 16 t) :
    t.pages.flatten
      = ((List.range (512 * 0x200)).map (pageByte xell file.length)).map some := by
  rw [h.pages, ← List.map_flatten, updatePages_bytes]

theorem Updated.writesExactly (h : Updated xell file.length 16 t) (hpage : 0x200 ∣ file.length)
    (hle : file.length ≤ 0x40000) (hfile : xell.slice 0 file.length = file) :
    WritesExactly file t := by
  refine ⟨h.located, h.erased, h.places, 512 * 0x200 - file.length, ?_⟩
  rw [h.bytes, bytes_of_pages xell hpage hle, hfile]

/-- A file that starts like an ELF file, in memory. -/
theorem slice_elfhdr (h : elfhdr <+: file) (hfile : xell.slice 0 file.length = file) :
    xell.slice 0 4 = elfhdr := by
  obtain ⟨rest, rfl⟩ := h
  rw [List.length_append, Mem.slice_add] at hfile
  exact (List.append_inj hfile (by rw [Mem.slice_length])).1

theorem flashedExactly_elf (h : elfhdr <+: file) : FlashedExactly file := by
  intro σ d hd t xell hfile
  refine (updateXellFlash_ends xell file.length hd t).mono fun r b hr => ?_
  rcases hr with hr | ⟨helf, -⟩
  · exact .inl hr
  · exact absurd (slice_elfhdr h hfile) helf

theorem flashedExactly_pages (hpage : 0x200 ∣ file.length) (hle : file.length ≤ 0x40000) :
    FlashedExactly file := by
  intro σ d hd t xell hfile
  refine (updateXellFlash_ends xell file.length hd t).mono fun r b hr => ?_
  exact hr.imp_right fun h => h.2.writesExactly hpage hle hfile

end Exact

/-! ### A console with the known image -/

/-- The first page of the image. -/
def zeropairPage : Mem UInt8 :=
  fun i => if 0x10 ≤ i then hackimageVersion.getD (i - 0x10) 0 else 0

/-- A controller that is never busy.  Its state is how many words of the page have been asked
for. -/
def zeropair : Sfcx Nat where
  readreg reg pos :=
    (if reg = 0 then 0x01198010
     else if reg = statusReg then 0x200
     else if reg = dataReg then bswap32 (loadWord zeropairPage (4 * (pos - 1)))
     else 0, pos)
  writereg reg data pos :=
    if reg = addressReg then 0 else if reg = commandReg ∧ data = 0 then pos + 1 else pos

theorem zeropair_status (t : Nat) : (zeropair.readreg statusReg t).1 &&& 1 = 0 := by
  show (0x200 : BitVec 32) &&& 1 = 0
  decide

theorem zeropair_responsive : Responsive zeropair :=
  fun t => ⟨0, zeropair_status t⟩

/-- A word of the page is read. -/
def zeropairWord (q : Mem UInt8 × Programmer Nat) (k : Nat) : Mem UInt8 × Programmer Nat :=
  let w := bswap32 (loadWord zeropairPage (4 * q.2.sfcx))
  (storeWord q.1 (4 * k) (bswap32 w),
    ⟨q.2.sfcx + 1, q.2.accesses ++ [.write commandReg 0] ++ [.read dataReg w]⟩)

theorem zeropair_readWord (data : Mem UInt8) (k : Nat) (b : Programmer Nat) :
    readWord zeropair data k b = Part.some (zeropairWord (data, b) k) := by
  unfold readWord
  rw [Run.bind_eq rfl, Run.bind_eq rfl]
  rfl

/-- What is read does not depend on the accesses before. -/
theorem zeropairWord_fst (ks : List Nat) :
    ∀ (data : Mem UInt8) (pos : Nat) (l l' : List Access),
      (ks.foldl zeropairWord (data, ⟨pos, l⟩)).1 = (ks.foldl zeropairWord (data, ⟨pos, l'⟩)).1 := by
  induction ks with
  | nil => intro data pos l l'; rfl
  | cons k ks ih => intro data pos l l'; exact ih _ _ _ _

/-- The words of the page are read, and the version is found in them. -/
theorem zeropair_words : ((List.range (0x210 / 4)).foldl zeropairWord
    (fun _ => 0, ⟨0, []⟩)).1.slice 0x10 0x1c = hackimageVersion := by
  decide +kernel

theorem zeropair_readsector (l : List Access) :
    ∃ hdr b, readsector zeropair (fun _ => 0) 0 false ⟨0, l⟩ = Part.some (hdr, b) ∧
      hdr.slice 0x10 0x1c = hackimageVersion ∧ Reads 0 (Programmer.mk 0 l).told b.told := by
  obtain ⟨hdr, b, hrun, hreads⟩ :=
    readsector_ends zeropair_responsive (fun _ => 0) 0 false ⟨0, l⟩
  refine ⟨hdr, b, hrun, ?_, hreads⟩
  unfold readsector at hrun
  rw [Run.bind_eq rfl, Run.bind_eq rfl, Run.bind_eq rfl, Run.bind_eq rfl,
    Run.bind_eq (waitIdle_idle (zeropair_status _)), Run.bind_eq rfl,
    Run.foldlM_eq zeropair_readWord (List.range (0x210 / 4))] at hrun
  have hwords := congrArg (fun q => q.1.slice 0x10 0x1c) (Part.some_inj.mp hrun)
  refine hwords.symm.trans (Eq.trans ?_ zeropair_words)
  exact congrArg (Mem.slice · 0x10 0x1c) (zeropairWord_fst _ _ 0 _ _)

/-- The update is not refused. -/
theorem zeropair_done (xell : Mem UInt8) (fileSize : Nat) (helf : xell.slice 0 4 ≠ elfhdr) :
    Run.Ends (updateXellFlash zeropair xell fileSize) ⟨0, []⟩ fun r b =>
      r = .done ∧ Updated xell fileSize 16 b.told := by
  unfold updateXellFlash
  refine .step rfl (.step rfl (.step rfl ?_))
  rw [if_neg (by decide)]
  obtain ⟨hdr, b, hrun, hversion, hb⟩ := zeropair_readsector _
  refine .step hrun ?_
  rw [if_neg (not_not.mpr hversion), if_neg helf]
  exact (updateBlocks_ends xell fileSize zeropair_responsive
    (hb.updated xell fileSize ⟨rfl, rfl, rfl⟩)).bind fun _ b' hb' => .pure ⟨rfl, hb'⟩

section Converse

variable {file : List UInt8}

/-- The file with zeroes behind it. -/
def padded (file : List UInt8) : Mem UInt8 := fun i => file.getD i 0

theorem padded_slice (file : List UInt8) : (padded file).slice 0 file.length = file := by
  unfold Mem.slice
  simp only [Nat.zero_add]
  exact Mem.map_getD file 0

theorem padded_not_elf (h : ¬elfhdr <+: file) : (padded file).slice 0 4 ≠ elfhdr := by
  intro helf
  have hlen : 4 ≤ file.length := by
    by_contra hshort
    have hzero : padded file 3 = 0 := List.getD_eq_default _ _ (by omega)
    have hlast : padded file 3 = 0x46 := congrArg (fun l => l.getD 3 0) helf
    rw [hzero] at hlast
    exact absurd hlast (by decide)
  refine h ⟨(padded file).slice 4 (file.length - 4), ?_⟩
  have hsplit := Mem.slice_add (padded file) 0 4 (file.length - 4)
  rw [Nat.add_sub_cancel' hlen, padded_slice, helf, Nat.zero_add] at hsplit
  exact hsplit.symm

/-- A file that does not end with a page, or is too long, is not what is written. -/
theorem pages_of_bytes {n : Nat}
    (h : (List.range (512 * 0x200)).map (pageByte (padded file) file.length)
      = file ++ List.replicate n 0xff) :
    0x200 ∣ file.length ∧ file.length ≤ 0x40000 := by
  have hlen := congrArg List.length h
  rw [List.length_map, List.length_range, List.length_append, List.length_replicate] at hlen
  refine ⟨?_, by omega⟩
  by_contra hpage
  -- The byte behind the file is written, and it is zero.
  have hlt : file.length < 512 * 0x200 := by omega
  have hzero : pageByte (padded file) file.length file.length = 0 := by
    unfold pageByte
    rw [if_pos (by omega)]
    exact List.getD_eq_default _ _ le_rfl
  have hbyte := congrArg (fun l => l[file.length]?) h
  simp only [List.getElem?_map, List.getElem?_range hlt, Option.map_some, hzero,
    List.getElem?_append_right le_rfl, Nat.sub_self, List.getElem?_replicate,
    show 0 < n by omega, if_true] at hbyte
  exact absurd (Option.some.inj hbyte) (by decide)

theorem of_flashedExactly (h : FlashedExactly file) :
    elfhdr <+: file ∨ (0x200 ∣ file.length ∧ file.length ≤ 0x40000) := by
  by_contra hcond
  rw [not_or] at hcond
  obtain ⟨r, b, hrun, hr, hpages⟩ :=
    zeropair_done (padded file) file.length (padded_not_elf hcond.1)
  obtain ⟨r', b', hrun', hexact⟩ := h Nat zeropair zeropair_responsive 0 (padded file)
    (padded_slice file)
  obtain ⟨rfl, rfl⟩ := Prod.mk.inj (Part.some_inj.mp (hrun.symm.trans hrun'))
  rcases hexact with hrefused | hexact
  · rw [hr] at hrefused
    cases hrefused
  · obtain ⟨n, hbytes⟩ := hexact.exact
    rw [hpages.bytes] at hbytes
    exact hcond.2 (pages_of_bytes (List.map_injective_iff.mpr (Option.some_injective _) hbytes))

end Converse

/--
**When the file is what is flashed.**  For every file, the update is refused or writes just the
file and 0xff behind it, on every controller and whatever is in memory behind the file, exactly if
the file starts like an ELF file, and is refused, or its length is a multiple of a page and at
most 256 KB.
-/
theorem flashedExactly_iff (file : List UInt8) :
    FlashedExactly file ↔
      elfhdr <+: file ∨ (0x200 ∣ file.length ∧ file.length ≤ 0x40000) := by
  constructor
  · exact of_flashedExactly
  · rintro (helf | ⟨hpage, hle⟩)
    · exact flashedExactly_elf helf
    · exact flashedExactly_pages hpage hle

/-- A file of one byte, with zeroes behind it: its page has the zeroes where it should have
0xff. -/
theorem one_byte_flashed :
    ¬FlashedExactly [0x60] ∧
      Run.Ends (updateXellFlash zeropair (padded [0x60]) 1) ⟨0, []⟩ fun r b =>
        r = .done ∧ b.told.pages.head? = some ((0x60 :: List.replicate 511 0).map some) := by
  have hnot_elf : ¬elfhdr <+: [0x60] := by decide
  refine ⟨fun h => ?_, ?_⟩
  · rcases of_flashedExactly h with h | h
    · exact hnot_elf h
    · exact absurd h.1 (by decide)
  · refine (zeropair_done (padded [0x60]) 1 (padded_not_elf hnot_elf)).mono fun r b h => ⟨h.1, ?_⟩
    rw [h.2.pages]
    decide +kernel

end Xell.Flash
