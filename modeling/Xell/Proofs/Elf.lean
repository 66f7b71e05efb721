/-
What `load_elf_image` loads.

The headers are read from the memory that the loop writes to, so the proof is about what stays as
it is.  `WellPlaced` says that the headers and the contents of the sections lie in the file and
that the sections are loaded apart from each other and from the file.  Then no turn of the loop
changes the file, and each turn finds the header that was there at first (`Loaded.shdr_eq`).

What is printed does no harm if every line fits into the buffer of `printf` (`LinesFit`): the line
for a section is as long as its name and 34 or 35 bytes.

If the entries of the header table are put in another order, the same sections are loaded.  The
memory is the same too, unless a section is loaded from the very bytes that have changed their
places.
-/
import Mathlib.Data.List.GetD
import Xell.Elf
import Xell.Proofs.Vsprintf.Format

namespace Xell.Elf

/-! ### Filling and copying -/

theorem memset_eq_store (c : UInt8) (n : Nat) :
    ∀ (a : Nat) (mem : Mem UInt8), memset a c n mem = mem.store a n fun _ => c := by
  induction n with
  | zero => intro a mem; rw [memset, Mem.store_zero]
  | succ n ih =>
      intro a mem
      rw [memset, ih, Mem.update_eq_store mem a fun _ => c, Mem.store_append mem a 1 n fun _ => c,
        Nat.add_comm 1 n]

/-- A copy to lower addresses, or to a place of its own.  It goes upwards, so that what it
overwrites has been read. -/
theorem memcpy_eq_store (n : Nat) :
    ∀ (a b : Nat) (mem : Mem UInt8), a ≤ b ∨ b + n ≤ a →
      memcpy a b n mem = mem.store a n fun i => mem (b + i) := by
  induction n with
  | zero => intro a b mem _; rw [memcpy, Mem.store_zero]
  | succ n ih =>
      intro a b mem h
      -- The cells that are still to be copied lie outside the one that has been written.
      have hrest : ∀ i < n,
          mem.store a 1 (fun i => mem (b + i)) (b + 1 + i) = mem (b + (1 + i)) := by
        intro i hi
        rw [Mem.store_outside mem _ (by omega), Nat.add_assoc]
      have hfirst : Function.update mem a (mem b) = mem.store a 1 fun i => mem (b + i) :=
        Mem.update_eq_store mem a fun i => mem (b + i)
      rw [memcpy, ih _ _ _ (by omega), hfirst, Mem.store_congr _ _ hrest,
        Mem.store_append mem a 1 n fun i => mem (b + i), Nat.add_comm 1 n]

/-! ### Reading headers -/

section Headers

variable {m mem : Mem UInt8} {a b : Nat}

theorem half_congr (h : ∀ k < 2, m (a + k) = mem (b + k)) : half m a = half mem b := by
  unfold half
  rw [h 1 (by omega), show m a = mem b from h 0 (by omega)]

theorem word_congr (h : ∀ k < 4, m (a + k) = mem (b + k)) : word m a = word mem b := by
  unfold word
  rw [h 1 (by omega), h 2 (by omega), h 3 (by omega), show m a = mem b from h 0 (by omega)]

theorem shdrAt_congr (h : ∀ k < shdrSize, m (a + k) = mem (b + k)) :
    shdrAt m a = shdrAt mem b := by
  have hword : ∀ o, o + 4 ≤ shdrSize → word m (a + o) = word mem (b + o) := by
    intro o ho
    apply word_congr
    intro k hk
    rw [Nat.add_assoc, Nat.add_assoc]
    exact h (o + k) (by omega)
  unfold shdrSize at hword
  unfold shdrAt
  rw [show word m a = word mem b from hword 0 (by omega), hword 4 (by omega), hword 8 (by omega),
    hword 12 (by omega), hword 16 (by omega), hword 20 (by omega)]

end Headers

/-! ### The lines that are printed -/

section Lines

open Vsprintf

/-- `%08x`. -/
def hexPiece : Piece := .directive [.zeropad] (some (.number 8)) none none (chr 'x')

/-- `%s`. -/
def strPiece : Piece := .directive [] none none none (chr 's')

def sectionPieces : List Piece :=
  (text "0x").map .char ++ [hexPiece] ++ (text " 0x").map .char ++ [hexPiece]
    ++ (text ", ").map .char ++ [strPiece] ++ (text "ing ").map .char ++ [strPiece]
    ++ (text "...").map .char

theorem hexPiece_run (v : BitVec 64) (args : List Arg) (out : Out) : ∃ s, s.length = 8 ∧
    hexPiece.run (.word v :: args, out) = some (args, out.put s) := by
  refine ⟨_, ?_, rfl⟩
  have hlt := (v.setWidth 32).isLt
  refine zeropad_length (n := 8) (by decide) ?_
  show ((v.setWidth 32).setWidth 64).toNat < 16 ^ 8
  rw [BitVec.toNat_setWidth]
  omega

theorem strPiece_run (s : List UInt8) (args : List Arg) (out : Out) :
    strPiece.run (.str (some s) :: args, out) = some (args, out.put s) := by
  have hconv : convStr ⟨noFlags, -1, -1, none⟩ (some s) = s := by
    have hneg : (-1 - (s.length : Int)).toNat = 0 := by omega
    have hpos : ¬ (s.length : Int) < -1 := by omega
    simp [convStr, noFlags, Vsprintf.pad, hneg, hpos]
  exact congrArg (fun t => some (args, out.put t)) hconv

/-- A line is thirty bytes, and the two strings. -/
theorem sectionLine_length (a b : BitVec 64) (verb name : List UInt8) :
    ∃ line, vsprintf sectionFormat [.word a, .word b, .str (some verb), .str (some name)]
        = some ⟨line, []⟩ ∧ line.length = 30 + verb.length + name.length := by
  have hformat : sectionFormat = format sectionPieces := by decide +kernel
  have hok : ∀ p ∈ sectionPieces, p.Ok := by
    simp [sectionPieces, hexPiece, strPiece, Piece.Ok, text]
    decide
  obtain ⟨s, hs, hfirst⟩ := hexPiece_run a
    [.word b, .str (some verb), .str (some name)] (Out.put ⟨[], []⟩ (text "0x"))
  obtain ⟨t, ht, hsecond⟩ := hexPiece_run b [.str (some verb), .str (some name)]
    (((Out.put ⟨[], []⟩ (text "0x")).put s).put (text " 0x"))
  unfold vsprintf
  rw [hformat, loop_format sectionPieces hok (le_refl _) (_, ⟨[], []⟩)]
  unfold sectionPieces
  simp only [List.foldlM_append, foldlM_chars, List.foldlM_cons, List.foldlM_nil, hfirst, hsecond,
    strPiece_run, Option.bind_eq_bind, Option.bind_some, Option.pure_def, Option.map_some]
  refine ⟨_, rfl, ?_⟩
  have h₁ : (text "0x").length = 2 := by decide
  have h₂ : (text " 0x").length = 3 := by decide
  have h₃ : (text ", ").length = 2 := by decide
  have h₄ : (text "ing ").length = 4 := by decide
  have h₅ : (text "...").length = 3 := by decide
  simp only [Out.put, List.length_append, List.length_nil, h₁, h₂, h₃, h₄, h₅, hs, ht]
  omega

end Lines

/-- A string ends at the first zero. -/
theorem stringAt_length_le {mem : Mem UInt8} {a n : Nat} (hn : n < bufferSize)
    (h : mem (a + n) = 0) : (stringAt mem a).length ≤ n := by
  unfold stringAt
  rw [show bufferSize = n + (bufferSize - n) by omega, Mem.slice_add, List.takeWhile_append]
  have hlen : (mem.slice a n).length = n := Mem.slice_length _ _ _
  have hle := (List.takeWhile_sublist (l := mem.slice a n) (· != 0)).length_le
  split
  · rename_i hall
    obtain ⟨k, hk⟩ : ∃ k, bufferSize - n = k + 1 := ⟨bufferSize - n - 1, by omega⟩
    rw [hk, Mem.slice_succ, List.takeWhile_cons, h]
    simp
  · omega

/-- The line for a section is printed if the name is not too long. -/
theorem printSection_some {mem : Mem UInt8} {tab : Nat} {s : Shdr} {n : Nat}
    (hn : 31 + s.verb.length + n ≤ bufferSize) (h : mem (tab + s.shName + n) = 0) :
    printSection (some tab) s mem = some () := by
  obtain ⟨line, hline, hlen⟩ := sectionLine_length (BitVec.ofNat 64 s.shAddr)
    (BitVec.ofNat 64 s.shSize) s.verb (stringAt mem (tab + s.shName))
  have hle := stringAt_length_le (by omega) h
  unfold printSection printf
  dsimp only
  rw [hline]
  exact if_pos (show line.length + 1 ≤ bufferSize by omega)

/-! ### Files whose sections do not get in each other's way -/

/-- An address in the place where the section is loaded. -/
def Shdr.Covers (s : Shdr) (x : Nat) : Prop :=
  s.allocated = true ∧ s.target ≤ x ∧ x < s.target + s.shSize

/-- Byte `k` of a section. -/
def sectionByte (mem : Mem UInt8) (addr : Nat) (s : Shdr) (k : Nat) : UInt8 :=
  if s.shType = shtNobits then 0 else mem (addr + s.shOffset + k)

/-- A file of `len` bytes at `addr`, with its headers and the contents of its sections inside,
whose sections are loaded apart from each other and from the file. -/
structure WellPlaced (mem : Mem UInt8) (addr len : Nat) : Prop where
  header : ehdrSize ≤ len
  table : eShoff mem addr + eShnum mem addr * shdrSize ≤ len
  contents : ∀ i < eShnum mem addr, (shdr mem addr i).allocated = true →
    (shdr mem addr i).shType ≠ shtNobits →
    (shdr mem addr i).shOffset + (shdr mem addr i).shSize ≤ len
  apart : ∀ i < eShnum mem addr, ∀ j < eShnum mem addr, i ≠ j →
    ∀ x, (shdr mem addr i).Covers x → ¬(shdr mem addr j).Covers x
  outside : ∀ i < eShnum mem addr, ∀ x, (shdr mem addr i).Covers x → x < addr ∨ addr + len ≤ x

/-- The line for each section that is loaded fits into the buffer of `printf`: its name ends in the
file, and soon enough. -/
def LinesFit (mem : Mem UInt8) (addr len : Nat) : Prop :=
  ∀ tab, strtab mem addr = some tab →
    ∀ i < eShnum mem addr, (shdr mem addr i).allocated = true →
      ∃ n, 31 + (shdr mem addr i).verb.length + n ≤ bufferSize ∧
        tab + (shdr mem addr i).shName + n < addr + len ∧
        mem (tab + (shdr mem addr i).shName + n) = 0

theorem strtab_le {mem : Mem UInt8} {addr tab : Nat} (h : strtab mem addr = some tab) :
    addr ≤ tab := by
  unfold strtab at h
  dsimp only at h
  split at h
  · obtain rfl := Option.some.inj h
    exact Nat.le_add_right _ _
  · cases h

/-- The sections before `i` have been loaded, and nothing else has changed. -/
structure Loaded (mem : Mem UInt8) (addr i : Nat) (m : Mem UInt8) : Prop where
  sections : ∀ j < i, ∀ k < (shdr mem addr j).shSize, (shdr mem addr j).allocated = true →
    m ((shdr mem addr j).target + k) = sectionByte mem addr (shdr mem addr j) k
  others : ∀ x, (∀ j < i, ¬(shdr mem addr j).Covers x) → m x = mem x

section Load

variable {mem m : Mem UInt8} {addr len i : Nat}

theorem Loaded.start (mem : Mem UInt8) (addr : Nat) : Loaded mem addr 0 mem :=
  ⟨fun j hj => absurd hj (by omega), fun _ _ => rfl⟩

/-- The file is still there. -/
theorem Loaded.image (hl : Loaded mem addr i m) (h : WellPlaced mem addr len)
    (hi : i ≤ eShnum mem addr) {x : Nat} (hlo : addr ≤ x) (hhi : x < addr + len) :
    m x = mem x := by
  apply hl.others
  intro j hj hcovers
  have := h.outside j (by omega) x hcovers
  omega

theorem Loaded.eEntry_eq (hl : Loaded mem addr i m) (h : WellPlaced mem addr len)
    (hi : i ≤ eShnum mem addr) : eEntry m addr = eEntry mem addr := by
  have hheader := h.header
  unfold ehdrSize at hheader
  exact word_congr fun k hk => hl.image h hi (by omega) (by omega)

theorem Loaded.eShoff_eq (hl : Loaded mem addr i m) (h : WellPlaced mem addr len)
    (hi : i ≤ eShnum mem addr) : eShoff m addr = eShoff mem addr := by
  have hheader := h.header
  unfold ehdrSize at hheader
  exact word_congr fun k hk => hl.image h hi (by omega) (by omega)

theorem Loaded.eShnum_eq (hl : Loaded mem addr i m) (h : WellPlaced mem addr len)
    (hi : i ≤ eShnum mem addr) : eShnum m addr = eShnum mem addr := by
  have hheader := h.header
  unfold ehdrSize at hheader
  exact half_congr fun k hk => hl.image h hi (by omega) (by omega)

theorem Loaded.shdr_eq (hl : Loaded mem addr i m) (h : WellPlaced mem addr len)
    (hi : i < eShnum mem addr) : shdr m addr i = shdr mem addr i := by
  have htable := h.table
  unfold shdr
  rw [hl.eShoff_eq h hi.le]
  apply shdrAt_congr
  intro k hk
  have hentry : i * shdrSize + shdrSize ≤ eShnum mem addr * shdrSize := by
    rw [← Nat.succ_mul]
    exact Nat.mul_le_mul_right _ hi
  exact hl.image h hi.le (by omega) (by omega)

/-- The name of a section is still there, so its line is printed. -/
theorem Loaded.printSection_eq (hl : Loaded mem addr i m) (h : WellPlaced mem addr len)
    (hfit : LinesFit mem addr len) (hi : i < eShnum mem addr)
    (halloc : (shdr mem addr i).allocated = true) :
    printSection (strtab mem addr) (shdr mem addr i) m = some () := by
  cases htab : strtab mem addr with
  | none => rfl
  | some tab =>
      obtain ⟨n, hn, hend, hzero⟩ := hfit tab htab i hi halloc
      have hle := strtab_le htab
      refine printSection_some hn ?_
      rw [hl.image h hi.le (by omega) hend]
      exact hzero

/-- A turn of the loop stores a section. -/
theorem Loaded.loadSection_eq (hl : Loaded mem addr i m) (h : WellPlaced mem addr len)
    (hfit : LinesFit mem addr len) (hi : i < eShnum mem addr)
    (halloc : (shdr mem addr i).allocated = true) :
    loadSection addr (strtab mem addr) i m
      = some (m.store (shdr mem addr i).target (shdr mem addr i).shSize
          (sectionByte mem addr (shdr mem addr i))) := by
  unfold loadSection
  rw [hl.shdr_eq h hi]
  dsimp only
  rw [if_neg (by rw [halloc]; decide), hl.printSection_eq h hfit hi halloc, Option.bind_eq_bind,
    Option.bind_some]
  by_cases hnobits : (shdr mem addr i).shType = shtNobits
  · rw [if_pos hnobits, memset_eq_store]
    congr 1
    apply Mem.store_congr
    intro k _
    unfold sectionByte
    rw [if_pos hnobits]
  · have hcontents := h.contents i hi halloc hnobits
    -- The section is copied out of the file, to outside of it.
    have hout : ∀ x, (shdr mem addr i).target ≤ x →
        x < (shdr mem addr i).target + (shdr mem addr i).shSize → x < addr ∨ addr + len ≤ x :=
      fun x hlo hhi => h.outside i hi x ⟨halloc, hlo, hhi⟩
    have hapart := hout (max (shdr mem addr i).target (addr + (shdr mem addr i).shOffset))
      (le_max_left _ _)
    rw [if_neg hnobits, memcpy_eq_store _ _ _ _ (by omega)]
    congr 1
    apply Mem.store_congr
    intro k hk
    unfold sectionByte
    rw [if_neg hnobits]
    exact hl.image h hi.le (by omega) (by omega)

theorem Loaded.step (hl : Loaded mem addr i m) (h : WellPlaced mem addr len)
    (hfit : LinesFit mem addr len) (hi : i < eShnum mem addr) :
    ∃ m', loadSection addr (strtab mem addr) i m = some m' ∧ Loaded mem addr (i + 1) m' := by
  cases halloc : (shdr mem addr i).allocated with
  | false =>
      have hsame : loadSection addr (strtab mem addr) i m = some m := by
        unfold loadSection
        rw [hl.shdr_eq h hi]
        dsimp only
        rw [if_pos halloc]
      refine ⟨m, hsame, fun j hj k hk hj' => ?_,
        fun x hx => hl.others x fun j hj => hx j (by omega)⟩
      have hji : j ≠ i := by
        rintro rfl
        rw [halloc] at hj'
        cases hj'
      exact hl.sections j (by omega) k hk hj'
  | true =>
      refine ⟨_, hl.loadSection_eq h hfit hi halloc, fun j hj k hk hj' => ?_, fun x hx => ?_⟩
      · by_cases hji : j = i
        · subst hji
          exact Mem.store_at m _ _ hk
        · have hout := h.apart j (by omega) i hi hji ((shdr mem addr j).target + k)
            ⟨hj', by omega, by omega⟩
          have hout' : (shdr mem addr j).target + k < (shdr mem addr i).target ∨
              (shdr mem addr i).target + (shdr mem addr i).shSize
                ≤ (shdr mem addr j).target + k := by
            by_contra hcon
            exact hout ⟨halloc, by omega, by omega⟩
          rw [Mem.store_outside m _ hout']
          exact hl.sections j (by omega) k hk hj'
      · have hout := hx i (by omega)
        have hout' : x < (shdr mem addr i).target ∨
            (shdr mem addr i).target + (shdr mem addr i).shSize ≤ x := by
          by_contra hcon
          exact hout ⟨halloc, by omega, by omega⟩
        rw [Mem.store_outside m _ hout']
        exact hl.others x fun j hj => hx j (by omega)

/-- The whole loop, by induction on how many sections are left. -/
theorem Loaded.run (h : WellPlaced mem addr len) (hfit : LinesFit mem addr len) (n : Nat) :
    ∀ {i : Nat} {m : Mem UInt8}, Loaded mem addr i m → i + n = eShnum mem addr →
      ∃ m', loadSections addr (strtab mem addr) i m = some m' ∧
        Loaded mem addr (eShnum mem addr) m' := by
  induction n with
  | zero =>
      intro i m hl hn
      rw [loadSections, hl.eShnum_eq h (by omega), if_neg (by omega), ← hn]
      exact ⟨m, rfl, hl⟩
  | succ n ih =>
      intro i m hl hn
      obtain ⟨m', hstep, hl'⟩ := hl.step h hfit (by omega)
      rw [loadSections, hl.eShnum_eq h (by omega), if_pos (by omega), hstep, Option.bind_some]
      exact ih hl' (by omega)

theorem loadElfImage_loaded (h : WellPlaced mem addr len) (hfit : LinesFit mem addr len) :
    ∃ m, loadElfImage addr mem = some (eEntry mem addr, m) ∧
      Loaded mem addr (eShnum mem addr) m := by
  obtain ⟨m, hrun, hl⟩ := Loaded.run h hfit _ (Loaded.start mem addr) (Nat.zero_add _)
  refine ⟨m, ?_, hl⟩
  unfold loadElfImage
  rw [hrun, Option.bind_eq_bind, Option.bind_some, hl.eEntry_eq h le_rfl]

end Load

/-! ### Headers in another order -/

/-- The bytes that change their places with the headers: the table, and `e_shstrndx`, which says
where one of the headers is. -/
def Movable (mem : Mem UInt8) (addr x : Nat) : Prop :=
  (addr + eShoff mem addr ≤ x ∧ x < addr + eShoff mem addr + eShnum mem addr * shdrSize) ∨
    (addr + 50 ≤ x ∧ x < addr + ehdrSize)

/-- `mem'` has header `π i` of `mem` as its header `i`. -/
structure Permutes (mem mem' : Mem UInt8) (addr : Nat) (π : Nat → Nat) : Prop where
  bijOn : Set.BijOn π (Set.Iio (eShnum mem addr)) (Set.Iio (eShnum mem addr))
  entries : ∀ i < eShnum mem addr, ∀ k < shdrSize,
    mem' (addr + eShoff mem addr + i * shdrSize + k)
      = mem (addr + eShoff mem addr + π i * shdrSize + k)
  rest : ∀ x, ¬Movable mem addr x → mem' x = mem x

/-- The header table lies behind the ELF header, and no section is loaded from bytes that change
their places with the headers. -/
structure Separate (mem : Mem UInt8) (addr : Nat) : Prop where
  table : ehdrSize ≤ eShoff mem addr
  contents : ∀ i < eShnum mem addr, (shdr mem addr i).allocated = true →
    (shdr mem addr i).shType ≠ shtNobits →
    ∀ k < (shdr mem addr i).shSize, ¬Movable mem addr (addr + (shdr mem addr i).shOffset + k)

namespace Permutes

variable {mem mem' : Mem UInt8} {addr len : Nat} {π : Nat → Nat}

/-- The ELF header is the same, up to `e_shstrndx`. -/
theorem header (hp : Permutes mem mem' addr π) (htable : ehdrSize ≤ eShoff mem addr) {k : Nat}
    (hk : k < 50) : mem' (addr + k) = mem (addr + k) := by
  apply hp.rest
  unfold ehdrSize at htable
  unfold Movable ehdrSize
  omega

theorem eShoff_eq (hp : Permutes mem mem' addr π) (htable : ehdrSize ≤ eShoff mem addr) :
    eShoff mem' addr = eShoff mem addr :=
  word_congr fun k hk => by
    rw [Nat.add_assoc]
    exact hp.header htable (by omega)

theorem eShnum_eq (hp : Permutes mem mem' addr π) (htable : ehdrSize ≤ eShoff mem addr) :
    eShnum mem' addr = eShnum mem addr :=
  half_congr fun k hk => by
    rw [Nat.add_assoc]
    exact hp.header htable (by omega)

theorem shdr_eq (hp : Permutes mem mem' addr π) (htable : ehdrSize ≤ eShoff mem addr) {i : Nat}
    (hi : i < eShnum mem addr) : shdr mem' addr i = shdr mem addr (π i) := by
  unfold shdr
  rw [hp.eShoff_eq htable]
  exact shdrAt_congr fun k hk => hp.entries i hi k hk

theorem lt (hp : Permutes mem mem' addr π) {i : Nat} (hi : i < eShnum mem addr) :
    π i < eShnum mem addr :=
  hp.bijOn.mapsTo hi

theorem wellPlaced (hp : Permutes mem mem' addr π) (htable : ehdrSize ≤ eShoff mem addr)
    (h : WellPlaced mem addr len) : WellPlaced mem' addr len where
  header := h.header
  table := by
    rw [hp.eShoff_eq htable, hp.eShnum_eq htable]
    exact h.table
  contents := by
    rw [hp.eShnum_eq htable]
    intro i hi
    rw [hp.shdr_eq htable hi]
    exact h.contents (π i) (hp.lt hi)
  apart := by
    rw [hp.eShnum_eq htable]
    intro i hi j hj hij
    rw [hp.shdr_eq htable hi, hp.shdr_eq htable hj]
    exact h.apart (π i) (hp.lt hi) (π j) (hp.lt hj) fun heq => hij (hp.bijOn.injOn hi hj heq)
  outside := by
    rw [hp.eShnum_eq htable]
    intro i hi
    rw [hp.shdr_eq htable hi]
    exact h.outside (π i) (hp.lt hi)

/-- The bytes of a section stay where they are. -/
theorem sectionByte_eq (hp : Permutes mem mem' addr π) (hs : Separate mem addr) {i k : Nat}
    (hi : i < eShnum mem addr) (halloc : (shdr mem addr i).allocated = true)
    (hk : k < (shdr mem addr i).shSize) :
    sectionByte mem' addr (shdr mem addr i) k = sectionByte mem addr (shdr mem addr i) k := by
  unfold sectionByte
  by_cases hnobits : (shdr mem addr i).shType = shtNobits
  · rw [if_pos hnobits, if_pos hnobits]
  · rw [if_neg hnobits, if_neg hnobits]
    exact hp.rest _ (hs.contents i hi halloc hnobits k hk)

/-- What the same sections leave, in whatever order they come. -/
theorem loaded_eq (hp : Permutes mem mem' addr π) (hs : Separate mem addr) {m m' : Mem UInt8}
    (hl : Loaded mem addr (eShnum mem addr) m) (hl' : Loaded mem' addr (eShnum mem' addr) m')
    {x : Nat} (hx : ¬Movable mem addr x) : m' x = m x := by
  rw [hp.eShnum_eq hs.table] at hl'
  by_cases hcovered : ∃ i < eShnum mem addr, (shdr mem addr i).Covers x
  · obtain ⟨i, hi, halloc, hlo, hhi⟩ := hcovered
    obtain ⟨j, hj, rfl⟩ := hp.bijOn.surjOn (Set.mem_Iio.mpr hi)
    have hj : j < eShnum mem addr := hj
    obtain ⟨k, rfl⟩ := Nat.exists_eq_add_of_le hlo
    have hk : k < (shdr mem addr (π j)).shSize := by omega
    have hsection := hl'.sections j hj
    rw [hp.shdr_eq hs.table hj] at hsection
    rw [hl.sections (π j) hi k hk halloc, hsection k hk halloc]
    exact hp.sectionByte_eq hs hi halloc hk
  · rw [not_exists] at hcovered
    rw [hl.others x fun i hi hc => hcovered i ⟨hi, hc⟩,
      hl'.others x fun i hi hc => hcovered (π i) ⟨hp.lt hi, by rwa [← hp.shdr_eq hs.table hi]⟩]
    exact hp.rest x hx

end Permutes

/--
**What `load_elf_image` does.**  If the headers and the contents of the sections lie in the file,
the sections are loaded apart from each other and from the file, and the printed lines fit, then
the entry point is returned, each byte of each allocated section is in its place, and nothing else
has changed.  If moreover the header table lies behind the ELF header and no section is loaded from
the table or from `e_shstrndx`, then headers in any other order whose lines fit leave the same
memory, up to the table and `e_shstrndx` themselves.
-/
theorem load_elf_sections {mem : Mem UInt8} {addr len : Nat} (h : WellPlaced mem addr len)
    (hfit : LinesFit mem addr len) :
    ∃ m, loadElfImage addr mem = some (eEntry mem addr, m) ∧
      (∀ i < eShnum mem addr, ∀ k < (shdr mem addr i).shSize,
        (shdr mem addr i).allocated = true →
        m ((shdr mem addr i).target + k) = sectionByte mem addr (shdr mem addr i) k) ∧
      (∀ x, (∀ i < eShnum mem addr, ¬(shdr mem addr i).Covers x) → m x = mem x) ∧
      (∀ x, addr ≤ x → x < addr + len → m x = mem x) ∧
      (Separate mem addr → ∀ mem' π, Permutes mem mem' addr π → LinesFit mem' addr len →
        ∃ m', loadElfImage addr mem' = some (eEntry mem addr, m') ∧
          ∀ x, ¬Movable mem addr x → m' x = m x) := by
  obtain ⟨m, hload, hl⟩ := loadElfImage_loaded h hfit
  refine ⟨m, hload, hl.sections, hl.others, fun x hlo hhi => hl.image h le_rfl hlo hhi, ?_⟩
  intro hs mem' π hp hfit'
  obtain ⟨m', hload', hl'⟩ := loadElfImage_loaded (hp.wellPlaced hs.table h) hfit'
  have hentry : eEntry mem' addr = eEntry mem addr := by
    refine word_congr fun k hk => ?_
    rw [Nat.add_assoc]
    exact hp.header hs.table (by omega)
  rw [hentry] at hload'
  exact ⟨m', hload', fun x hx => hp.loaded_eq hs hl hl' hx⟩

/-! ### Files with two sections -/

section Two

def be32 (n : Nat) : List UInt8 :=
  [UInt8.ofNat (n / 2 ^ 24), UInt8.ofNat (n / 2 ^ 16), UInt8.ofNat (n / 2 ^ 8), UInt8.ofNat n]

/-- A section header. -/
def entry (s : Shdr) : List UInt8 :=
  be32 s.shName ++ be32 s.shType ++ be32 s.shFlags ++ be32 s.shAddr ++ be32 s.shOffset
    ++ be32 s.shSize ++ List.replicate 16 0

/-- A file with two section headers right behind the ELF header, to be run at `0x1000`. -/
def twoSections (e₀ e₁ : List UInt8) (shstrndx : UInt8) (contents : List UInt8) : List UInt8 :=
  List.replicate 24 0 ++ be32 0x1000 ++ be32 0 ++ be32 52 ++ List.replicate 12 0
    ++ [0, 2, 0, shstrndx] ++ e₀ ++ e₁ ++ contents

/-- `LOADER_RAW`. -/
def loaderRaw : Nat := 0x8000000004000000

/-- A file in memory. -/
def inMemory (file : List UInt8) : Mem UInt8 :=
  fun x => if loaderRaw ≤ x then file.getD (x - loaderRaw) 0 else 0

/-- The other of two sections. -/
def other (i : Nat) : Nat := 1 - i

theorem other_bijOn : Set.BijOn other (Set.Iio 2) (Set.Iio 2) := by
  unfold other
  refine ⟨fun i _ => ?_, fun i hi j hj h => ?_, fun i hi => ⟨1 - i, ?_, ?_⟩⟩
  all_goals simp only [Set.mem_Iio] at *
  all_goals omega

theorem inMemory_at (file : List UInt8) (k : Nat) :
    inMemory file (loaderRaw + k) = file.getD k 0 := by
  unfold inMemory
  rw [if_pos (by omega), Nat.add_sub_cancel_left]

theorem twoSections_eq (e₀ e₁ contents : List UInt8) (shstrndx : UInt8) :
    twoSections e₀ e₁ shstrndx contents =
      (List.replicate 24 0 ++ be32 0x1000 ++ be32 0 ++ be32 52 ++ List.replicate 12 0 ++ [0, 2])
        ++ ([0, shstrndx] ++ (e₀ ++ (e₁ ++ contents))) := by
  simp [twoSections]

/-- Up to `e_shstrndx` the ELF header is the same in all of them. -/
theorem twoSections_header (e₀ e₁ e₀' e₁' contents contents' : List UInt8) (i j : UInt8) {k : Nat}
    (hk : k < 50) : (twoSections e₀ e₁ i contents).getD k 0 =
      (twoSections e₀' e₁' j contents').getD k 0 := by
  rw [twoSections_eq, twoSections_eq]
  exact (List.getD_append _ _ _ _ hk).trans (List.getD_append _ _ _ _ hk).symm

/-- The two headers begin at byte 52. -/
theorem twoSections_table (e₀ e₁ contents : List UInt8) (shstrndx : UInt8) (k : Nat) :
    (twoSections e₀ e₁ shstrndx contents).getD (52 + k) 0 =
      (e₀ ++ (e₁ ++ contents)).getD k 0 := by
  rw [twoSections_eq, ← List.append_assoc, List.getD_append_right]
  · exact congrArg (fun n => List.getD _ n 0) (Nat.add_sub_cancel_left 52 k)
  · exact Nat.le_add_right 52 k

/-- Two files with the two headers in different order. -/
theorem permutes_other {e₀ e₁ contents : List UInt8} {i j : UInt8} (h₀ : e₀.length = 40)
    (h₁ : e₁.length = 40)
    (hnum : eShnum (inMemory (twoSections e₀ e₁ i contents)) loaderRaw = 2)
    (hoff : eShoff (inMemory (twoSections e₀ e₁ i contents)) loaderRaw = 52) :
    Permutes (inMemory (twoSections e₀ e₁ i contents))
      (inMemory (twoSections e₁ e₀ j contents)) loaderRaw other where
  bijOn := by
    rw [hnum]
    exact other_bijOn
  entries := by
    rw [hnum, hoff]
    intro n hn k hk
    unfold shdrSize at hk ⊢
    rw [Nat.add_assoc loaderRaw, Nat.add_assoc loaderRaw, Nat.add_assoc loaderRaw,
      Nat.add_assoc loaderRaw, inMemory_at, inMemory_at, Nat.add_assoc 52, Nat.add_assoc 52,
      twoSections_table, twoSections_table]
    interval_cases n
    · rw [List.getD_append _ _ _ _ (by omega),
        List.getD_append_right _ _ _ _ (by unfold other; omega),
        List.getD_append _ _ _ _ (by unfold other; omega), h₀]
      exact congrArg (fun n => e₁.getD n 0) (by unfold other; omega)
    · rw [List.getD_append_right _ _ _ _ (by omega), List.getD_append _ _ _ _ (by omega),
        List.getD_append _ _ _ _ (by unfold other; omega), h₁]
      exact congrArg (fun n => e₀.getD n 0) (by unfold other; omega)
  rest := by
    intro x hx
    unfold Movable at hx
    rw [hnum, hoff] at hx
    unfold shdrSize ehdrSize at hx
    by_cases hlo : loaderRaw ≤ x
    · obtain ⟨k, rfl⟩ := Nat.exists_eq_add_of_le hlo
      rw [inMemory_at, inMemory_at]
      by_cases hk : k < 50
      · exact twoSections_header _ _ _ _ _ _ _ _ hk
      · obtain ⟨n, rfl⟩ := Nat.exists_eq_add_of_le (show 52 ≤ k by omega)
        rw [twoSections_table, twoSections_table, ← List.append_assoc, ← List.append_assoc,
          List.getD_append_right _ _ _ _ (by rw [List.length_append]; omega),
          List.getD_append_right _ _ _ _ (by rw [List.length_append]; omega),
          List.length_append, List.length_append, Nat.add_comm e₁.length]
    · unfold inMemory
      rw [if_neg hlo, if_neg hlo]

/-- The two headers of a file in memory. -/
structure HasTwo (file : List UInt8) (s₀ s₁ : Shdr) : Prop where
  num : eShnum (inMemory file) loaderRaw = 2
  off : eShoff (inMemory file) loaderRaw = 52
  first : shdr (inMemory file) loaderRaw 0 = s₀
  second : shdr (inMemory file) loaderRaw 1 = s₁

/-- One of them. -/
theorem HasTwo.mem {file : List UInt8} {s₀ s₁ : Shdr} (h : HasTwo file s₀ s₁) {i : Nat}
    (hi : i < eShnum (inMemory file) loaderRaw) :
    shdr (inMemory file) loaderRaw i ∈ [s₀, s₁] := by
  rw [h.num] at hi
  interval_cases i
  · simp [h.first]
  · simp [h.second]

theorem HasTwo.wellPlaced {file : List UInt8} {s₀ s₁ : Shdr} {len : Nat}
    (h : HasTwo file s₀ s₁) (hlen : 132 ≤ len)
    (hcontents : ∀ s ∈ [s₀, s₁], s.allocated = true → s.shType ≠ shtNobits →
      s.shOffset + s.shSize ≤ len)
    (hapart : s₀.allocated = true → s₁.allocated = true → s₀.target + s₀.shSize ≤ s₁.target)
    (hbelow : ∀ s ∈ [s₀, s₁], s.allocated = true → s.target + s.shSize ≤ loaderRaw) :
    WellPlaced (inMemory file) loaderRaw len where
  header := by
    unfold ehdrSize
    omega
  table := by
    rw [h.num, h.off]
    unfold shdrSize
    omega
  contents := fun i hi => hcontents _ (h.mem hi)
  apart := by
    rw [h.num]
    intro i hi j hj hij x hx hx'
    interval_cases i <;> interval_cases j
    · exact hij rfl
    · rw [h.first] at hx
      rw [h.second] at hx'
      have := hapart hx.1 hx'.1
      have := hx.2
      have := hx'.2
      omega
    · rw [h.second] at hx
      rw [h.first] at hx'
      have := hapart hx'.1 hx.1
      have := hx.2
      have := hx'.2
      omega
    · exact hij rfl
  outside := by
    intro i hi x hx
    have := hbelow _ (h.mem hi) hx.1
    have := hx.2
    omega

/-- Code, from behind the header table, and the names behind it. -/
def codeSection : Shdr :=
  { shName := 1, shType := 1, shFlags := shfAlloc, shAddr := 0x1000, shOffset := 132, shSize := 4 }

def namesSection : Shdr :=
  { shName := 0, shType := shtStrtab, shFlags := 0, shAddr := 0, shOffset := 136, shSize := 7 }

/-- Four bytes of code, and the name `.text` between two zeroes. -/
def codeContents : List UInt8 :=
  [0x60, 0, 0, 0x48] ++ [0] ++ Vsprintf.text ".text" ++ [0]

def codeFile : List UInt8 := twoSections (entry codeSection) (entry namesSection) 1 codeContents

/-- The same with the headers the other way round. -/
def codeFile' : List UInt8 := twoSections (entry namesSection) (entry codeSection) 0 codeContents

theorem codeFile_two : HasTwo codeFile codeSection namesSection :=
  ⟨by decide, by decide, by decide, by decide⟩

theorem codeFile_two' : HasTwo codeFile' namesSection codeSection :=
  ⟨by decide, by decide, by decide, by decide⟩

theorem codeFile_wellPlaced : WellPlaced (inMemory codeFile) loaderRaw 143 :=
  HasTwo.wellPlaced codeFile_two (by decide) (by decide) (by decide) (by decide)

/-- The name of the code ends at the last byte of the file. -/
theorem HasTwo.linesFit {file : List UInt8} {s₀ s₁ : Shdr} (h : HasTwo file s₀ s₁)
    (htab : strtab (inMemory file) loaderRaw = some (loaderRaw + 136))
    (halloc : ∀ s ∈ [s₀, s₁], s.allocated = true → s = codeSection)
    (hzero : file.getD 142 0 = 0) : LinesFit (inMemory file) loaderRaw 143 := by
  intro tab hsome i hi hloaded
  rw [htab] at hsome
  obtain rfl := Option.some.inj hsome
  rw [halloc _ (h.mem hi) hloaded]
  refine ⟨5, by decide, by decide, ?_⟩
  exact (inMemory_at file 142).trans hzero

theorem codeFile_linesFit : LinesFit (inMemory codeFile) loaderRaw 143 :=
  HasTwo.linesFit codeFile_two (by decide) (by decide) (by decide)

theorem codeFile_linesFit' : LinesFit (inMemory codeFile') loaderRaw 143 :=
  HasTwo.linesFit codeFile_two' (by decide) (by decide) (by decide)

theorem codeFile_separate : Separate (inMemory codeFile) loaderRaw where
  table := (HasTwo.off codeFile_two).ge
  contents := by
    intro i hi halloc hbits k hk
    obtain ⟨hnum, hoff, hfirst, hsecond⟩ := codeFile_two
    unfold Movable
    rw [hnum, hoff]
    rw [hnum] at hi
    interval_cases i
    · rw [hfirst, show codeSection.shOffset = 132 from rfl]
      unfold shdrSize ehdrSize
      omega
    · rw [hsecond] at halloc
      exact absurd halloc (by decide)

theorem codeFile_permutes :
    Permutes (inMemory codeFile) (inMemory codeFile') loaderRaw other :=
  permutes_other rfl rfl (HasTwo.num codeFile_two) (HasTwo.off codeFile_two)

theorem load_elf_sections_code :
    ∃ m, loadElfImage loaderRaw (inMemory codeFile) = some (0x1000, m) ∧
      m 0x8000000000001003 = 0x48 ∧
      ∃ m', loadElfImage loaderRaw (inMemory codeFile') = some (0x1000, m') ∧
        m' 0x8000000000001003 = 0x48 := by
  obtain ⟨m, hload, hsections, -, -, hpermuted⟩ :=
    load_elf_sections codeFile_wellPlaced codeFile_linesFit
  obtain ⟨hnum, hoff, hfirst, -⟩ := codeFile_two
  have hentry : eEntry (inMemory codeFile) loaderRaw = 0x1000 := by decide
  obtain ⟨m', hload', hsame⟩ := hpermuted codeFile_separate _ _ codeFile_permutes codeFile_linesFit'
  have hbyte := hsections 0 (by rw [hnum]; decide) 3
    (by rw [hfirst]; decide) (by rw [hfirst]; decide)
  rw [hfirst] at hbyte
  have hbyte' := hsame 0x8000000000001003 (by
    unfold Movable
    rw [hnum, hoff]
    decide)
  have hvalue : sectionByte (inMemory codeFile) loaderRaw codeSection 3 = 0x48 := by
    decide
  rw [hentry] at hload hload'
  exact ⟨m, hload, hbyte.trans hvalue, m', hload', hbyte'.trans (hbyte.trans hvalue)⟩

/-- A section that is loaded from the header table, where its own name comes first. -/
def tableSection : Shdr :=
  { shName := 1, shType := 1, shFlags := shfAlloc, shAddr := 0x1000, shOffset := 52, shSize := 4 }

def nullSection : Shdr :=
  { shName := 0, shType := 0, shFlags := 0, shAddr := 0, shOffset := 0, shSize := 0 }

def tableFile : List UInt8 := twoSections (entry tableSection) (entry nullSection) 1 []

def tableFile' : List UInt8 := twoSections (entry nullSection) (entry tableSection) 0 []

theorem tableFile_two : HasTwo tableFile tableSection nullSection :=
  ⟨by decide, by decide, by decide, by decide⟩

/-- Without a table of names nothing is printed. -/
theorem linesFit_of_none {mem : Mem UInt8} {addr len : Nat} (h : strtab mem addr = none) :
    LinesFit mem addr len := by
  intro tab htab
  rw [h] at htab
  cases htab

/-- The headers in another order, and a byte that is loaded from them differs. -/
theorem order_matters :
    WellPlaced (inMemory tableFile) loaderRaw 132 ∧
      LinesFit (inMemory tableFile) loaderRaw 132 ∧ LinesFit (inMemory tableFile') loaderRaw 132 ∧
      Permutes (inMemory tableFile) (inMemory tableFile') loaderRaw other ∧
      ∃ e m e' m', loadElfImage loaderRaw (inMemory tableFile) = some (e, m) ∧
        loadElfImage loaderRaw (inMemory tableFile') = some (e', m') ∧
        m 0x8000000000001003 = 1 ∧ m' 0x8000000000001003 = 0 := by
  have htwo := tableFile_two
  have h : WellPlaced (inMemory tableFile) loaderRaw 132 :=
    htwo.wellPlaced (by decide) (by decide) (by decide) (by decide)
  have hp : Permutes (inMemory tableFile) (inMemory tableFile') loaderRaw other :=
    permutes_other rfl rfl htwo.num htwo.off
  have htable : ehdrSize ≤ eShoff (inMemory tableFile) loaderRaw := htwo.off.ge
  have hfit : LinesFit (inMemory tableFile) loaderRaw 132 := linesFit_of_none (by decide)
  have hfit' : LinesFit (inMemory tableFile') loaderRaw 132 := linesFit_of_none (by decide)
  obtain ⟨m, hload, hl⟩ := loadElfImage_loaded h hfit
  obtain ⟨m', hload', hl'⟩ := loadElfImage_loaded (hp.wellPlaced htable h) hfit'
  have hfirst := hl.sections 0 (by rw [htwo.num]; decide) 3
    (by rw [htwo.first]; decide) (by rw [htwo.first]; decide)
  have hshdr : shdr (inMemory tableFile') loaderRaw 1 = tableSection :=
    (hp.shdr_eq htable (by rw [htwo.num]; decide)).trans htwo.first
  have hsecond := hl'.sections 1
    (by rw [hp.eShnum_eq htable, htwo.num]; decide) 3
    (by rw [hshdr]; decide) (by rw [hshdr]; decide)
  rw [htwo.first] at hfirst
  rw [hshdr] at hsecond
  exact ⟨h, hfit, hfit', hp, _, m, _, m', hload, hload', hfirst.trans (by decide),
    hsecond.trans (by decide)⟩

end Two

end Xell.Elf
