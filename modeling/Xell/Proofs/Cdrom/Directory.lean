/-
The walk over a directory finds the first record of a name.

`read_directory` knows where a sector's records end by the zero behind the last of them.  In a
sector that is filled to its last byte there is none, and the code looks at the byte behind the
sector buffer instead (`not_looksUp_of_filled`).  Apart from that it does what a lookup has to
do, for names of every length: `readDirectory_finds`.

The empty name is special.  `read_direntry` compares at least one byte, so that the empty name
stands for the identifier that is a single zero, which is how a directory names itself.
-/
import Mathlib.Data.List.GetD
import Xell.Iso9660

namespace Xell.Cdrom

/-- The identifier that a name stands for. -/
def key (filename : List UInt8) : List UInt8 := if filename = [] then [0] else filename

theorem key_length (filename : List UInt8) :
    (key filename).length =
      if filename.length = 0 then filename.length + 1 else filename.length := by
  cases filename with
  | nil => rfl
  | cons c cs => rfl

theorem key_getD (filename : List UInt8) (i : Nat) :
    (key filename).getD i 0 = filename.getD i 0 := by
  cases filename with
  | nil =>
      cases i with
      | zero => rfl
      | succ i => rfl
  | cons c cs => rfl

/-! ### One record -/

theorem memicmp_spec (mem : Mem UInt8) (name : List UInt8) (len a i : Nat) :
    ((memicmp mem name len a i).1 = true ↔
        ∀ k < len, toupper (mem (a + k)) = toupper (name.getD (i + k) 0)) ∧
      ∀ x ∈ (memicmp mem name len a i).2, a ≤ x ∧ x < a + len := by
  induction len generalizing a i with
  | zero => simp [memicmp]
  | succ len ih =>
      obtain ⟨hiff, hin⟩ := ih (a + 1) (i + 1)
      unfold memicmp
      split
      · rename_i hne
        refine ⟨⟨?_, ?_⟩, ?_⟩
        · intro htrue
          cases htrue
        · intro hall
          exact absurd (hall 0 (Nat.succ_pos _)) hne
        · intro x hx
          rw [List.mem_singleton] at hx
          omega
      · rename_i heq
        rw [not_not] at heq
        dsimp only
        refine ⟨?_, ?_⟩
        · rw [hiff]
          constructor
          · intro hall k hk
            cases k with
            | zero => exact heq
            | succ k =>
                have := hall k (by omega)
                rwa [show a + 1 + k = a + (k + 1) by omega,
                  show i + 1 + k = i + (k + 1) by omega] at this
          · intro hall k hk
            have := hall (k + 1) (by omega)
            rwa [show a + (k + 1) = a + 1 + k by omega,
              show i + (k + 1) = i + 1 + k by omega] at this
        · intro x hx
          rcases List.mem_cons.mp hx with rfl | hx
          · omega
          · have := hin x hx
            omega

theorem identifier_eq_iff (r : Record) (filename : List UInt8) :
    r.identifier.map toupper = (key filename).map toupper ↔
      (r.byte 32).toNat = (key filename).length ∧
        ∀ k < (r.byte 32).toNat, toupper (r.byte (33 + k)) = toupper (filename.getD k 0) := by
  unfold Record.identifier
  constructor
  · intro heq
    have hlen : (r.byte 32).toNat = (key filename).length := by
      simpa using congrArg List.length heq
    refine ⟨hlen, fun k hk => ?_⟩
    have hk' := congrArg (fun l => l[k]?) heq
    rw [← key_getD]
    simpa [Mem.slice, hk, hlen ▸ hk] using hk'
  · rintro ⟨hlen, hall⟩
    refine List.ext_getElem (by simpa using hlen) fun k hk hk' => ?_
    rw [List.length_map, Mem.slice_length] at hk
    have := hall k hk
    rw [← key_getD] at this
    simpa [Mem.slice, hk, hlen ▸ hk] using this

theorem be32_congr {mem mem' : Mem UInt8} {a a' : Nat} (h : ∀ k < 4, mem (a + k) = mem' (a' + k)) :
    be32 mem a = be32 mem' a' := by
  unfold be32
  have h0 := h 0 (by omega)
  rw [Nat.add_zero, Nat.add_zero] at h0
  rw [h0, h 1 (by omega), h 2 (by omega), h 3 (by omega)]

/-- What `read_direntry` makes of a record. -/
theorem readDirentry_record {mem : Mem UInt8} {p : Nat} {r : Record}
    (hr : ∀ k < r.bytes.length, mem (p + k) = r.byte k) (filename : List UInt8) :
    (readDirentry mem p filename).nrb = r.bytes.length ∧
      (r.wanted (key filename) = true → (readDirentry mem p filename).lba = r.lba ∧
        (readDirentry mem p filename).size = r.size) ∧
      (r.wanted (key filename) = false → (readDirentry mem p filename).lba = 0 ∧
        (readDirentry mem p filename).size = 0) ∧
      ∀ x ∈ (readDirentry mem p filename).examined, p ≤ x ∧ x < p + r.bytes.length := by
  have hfits := r.fits
  have hlen := r.length_eq
  change 33 + (r.byte 32).toNat ≤ r.bytes.length at hfits
  have hnl : (mem (p + 32)).toNat = (r.byte 32).toNat := by rw [hr 32 (by omega)]
  have hnrb : (mem p).toNat = r.bytes.length := by
    rw [hlen, ← Nat.add_zero p, hr 0 (by omega)]
    rfl
  have hlba : be32 mem (p + 6) = r.lba := be32_congr fun k hk => by
    rw [Nat.add_assoc, hr (6 + k) (by omega)]
  have hsize : be32 mem (p + 14) = r.size := be32_congr fun k hk => by
    rw [Nat.add_assoc, hr (14 + k) (by omega)]
  have hfields : ∀ x ∈ p :: (List.range' (p + 6) 4 ++ List.range' (p + 14) 4 ++ [p + 25, p + 32]),
      p ≤ x ∧ x < p + r.bytes.length := by
    intro x hx
    simp only [List.mem_cons, List.mem_append, List.mem_range'_1, List.not_mem_nil,
      or_false] at hx
    omega
  obtain ⟨hcmp, hin⟩ := memicmp_spec mem filename (r.byte 32).toNat (p + 33) 0
  have hname := identifier_eq_iff r filename
  have hsame : (memicmp mem filename (r.byte 32).toNat (p + 33) 0).1 = true ↔
      ∀ k < (r.byte 32).toNat, toupper (r.byte (33 + k)) = toupper (filename.getD k 0) := by
    rw [hcmp]
    refine forall_congr' fun k => forall_congr' fun hk => ?_
    rw [Nat.add_assoc, hr (33 + k) (by omega), Nat.zero_add]
  unfold readDirentry Record.wanted
  dsimp only
  rw [hnl, hnrb, hlba, hsize, ← key_length]
  by_cases hlen' : (r.byte 32).toNat = (key filename).length
  swap
  · have hother : ¬ r.identifier.map toupper = (key filename).map toupper :=
      fun heq => hlen' (hname.mp heq).1
    rw [if_pos hlen']
    exact ⟨rfl, by simp [hother], fun _ => ⟨rfl, rfl⟩, hfields⟩
  rw [if_neg (by simpa using hlen')]
  have hall : ∀ x ∈ p :: (List.range' (p + 6) 4 ++ List.range' (p + 14) 4 ++ [p + 25, p + 32]) ++
      (memicmp mem filename (r.byte 32).toNat (p + 33) 0).2, p ≤ x ∧ x < p + r.bytes.length := by
    rw [List.forall_mem_append]
    refine ⟨hfields, fun x hx => ?_⟩
    have := hin x hx
    omega
  by_cases hcmp' : (memicmp mem filename (r.byte 32).toNat (p + 33) 0).1 = true
  · have heq : r.identifier.map toupper = (key filename).map toupper :=
      hname.mpr ⟨hlen', hsame.mp hcmp'⟩
    rw [if_neg (by simp [hcmp'])]
    refine ⟨rfl, fun _ => ⟨rfl, rfl⟩, fun hno => ?_, hall⟩
    simpa [heq] using hno
  · have hother : ¬ r.identifier.map toupper = (key filename).map toupper :=
      fun heq => hcmp' (hsame.mpr (hname.mp heq).2)
    rw [if_pos (by simpa using hcmp')]
    exact ⟨rfl, by simp [hother], fun _ => ⟨rfl, rfl⟩, hall⟩

theorem wanted_ne_zero {r : Record} {name : List UInt8} (hw : r.wanted name = true) :
    r.lba ≠ 0 ∨ r.size ≠ 0 := by
  unfold Record.wanted at hw
  simpa using (Bool.and_eq_true_iff.mp hw).2

/-- Where a sector starts with a zero, there is no record. -/
theorem readDirentry_zero {mem : Mem UInt8} (hz : ∀ k < 33, mem k = 0) (filename : List UInt8) :
    (readDirentry mem 0 filename).nrb = 0 ∧ (readDirentry mem 0 filename).lba = 0 ∧
      (readDirentry mem 0 filename).size = 0 ∧
      ∀ x ∈ (readDirentry mem 0 filename).examined, x < 33 := by
  have hnl : (mem (0 + 32)).toNat ≠
      if filename.length = 0 then filename.length + 1 else filename.length := by
    rw [hz (0 + 32) (by omega)]
    show 0 ≠ _
    split <;> omega
  unfold readDirentry
  dsimp only
  rw [if_pos hnl]
  refine ⟨by rw [hz 0 (by omega)]; rfl, rfl, rfl, ?_⟩
  intro x hx
  simp only [List.mem_cons, List.mem_append, List.mem_range'_1, List.not_mem_nil, or_false] at hx
  omega

/-! ### One sector -/

/-- The records `rs`, back to back from `p` on. -/
def At (mem : Mem UInt8) : Nat → List Record → Prop
  | _, [] => True
  | p, r :: rs => (∀ k < r.bytes.length, mem (p + k) = r.byte k) ∧ At mem (p + r.bytes.length) rs

theorem at_of_bytes {mem : Mem UInt8} {p : Nat} {rs : List Record}
    (h : ∀ j < (sectorBytes rs).length, mem (p + j) = (sectorBytes rs).getD j 0) :
    At mem p rs := by
  induction rs generalizing p with
  | nil => trivial
  | cons r rs ih =>
      have happend : sectorBytes (r :: rs) = r.bytes ++ sectorBytes rs := List.flatMap_cons
      rw [happend, List.length_append] at h
      refine ⟨fun k hk => ?_, ih fun j hj => ?_⟩
      · rw [h k (by omega), List.getD_append _ _ _ _ hk]
        rfl
      · rw [Nat.add_assoc, h _ (by omega), List.getD_append_right _ _ _ _ (by omega),
          Nat.add_sub_cancel_left]

section Steps

variable {drive : Drive} {filename : List UInt8} {n sector p : Nat} {len : Int}
  {mem : Mem UInt8} {l : Lookup}

theorem loop_found (hlen : 0 < len) (hfound : (readDirentry mem p filename).lba ≠ 0 ∨
    (readDirentry mem p filename).size ≠ 0) :
    readDirectoryLoop drive filename (n + 1) sector len p mem l = some ⟨0,
      (readDirentry mem p filename).lba, (readDirentry mem p filename).size,
      l.examined ++ (readDirentry mem p filename).examined⟩ := by
  unfold readDirectoryLoop
  rw [if_neg (by omega)]
  dsimp only
  rw [if_pos hfound]

/-- The end of a turn that has found nothing: the look at the place `q` behind the record. -/
def lookBehind (drive : Drive) (filename : List UInt8) (n sector : Nat) (len : Int) (q : Nat)
    (mem : Mem UInt8) (l : Lookup) : Option Lookup :=
  if mem q = 0 then
    readDirectoryLoop drive filename n (sector + 1) (len - 2048) 0
      (mem.store 0 sectorSize (drive (sector + 1)).2) { l with examined := l.examined ++ [q] }
  else
    readDirectoryLoop drive filename n sector len q mem { l with examined := l.examined ++ [q] }

theorem loop_passed (hlen : 0 < len) (hlba : (readDirentry mem p filename).lba = 0)
    (hsize : (readDirentry mem p filename).size = 0) :
    readDirectoryLoop drive filename (n + 1) sector len p mem l =
      lookBehind drive filename n sector len (p + (readDirentry mem p filename).nrb) mem
        ⟨l.ret, 0, 0, l.examined ++ (readDirentry mem p filename).examined⟩ := by
  conv => lhs; unfold readDirectoryLoop
  rw [if_neg (by omega)]
  dsimp only
  rw [if_neg (by simp [hlba, hsize]), hlba, hsize]
  rfl

end Steps

/-- What has been examined is not forgotten. -/
theorem loop_examined {drive : Drive} {filename : List UInt8} {n sector p : Nat} {len : Int}
    {mem : Mem UInt8} {l l' : Lookup}
    (hr : readDirectoryLoop drive filename n sector len p mem l = some l') {i : Nat}
    (hi : i ∈ l.examined) : i ∈ l'.examined := by
  induction n generalizing sector p len mem l with
  | zero => cases hr
  | succ n ih =>
      unfold readDirectoryLoop at hr
      split at hr
      · cases hr
        exact hi
      · dsimp only at hr
        split at hr
        · cases hr
          exact List.mem_append_left _ hi
        · split at hr
          · exact ih hr (List.mem_append_left _ (List.mem_append_left _ hi))
          · exact ih hr (List.mem_append_left _ (List.mem_append_left _ hi))

theorem Record.length_pos (r : Record) : 33 ≤ r.bytes.length := by
  have := r.fits
  omega

theorem Record.byte_zero_ne (r : Record) : r.byte 0 ≠ 0 := by
  intro hz
  have hpos := r.length_pos
  rw [r.length_eq, show r.bytes.getD 0 0 = 0 from hz] at hpos
  exact absurd hpos (by decide)

theorem At.ne_zero {mem : Mem UInt8} {p : Nat} {r : Record} {rs : List Record}
    (hat : At mem p (r :: rs)) : mem p ≠ 0 := by
  have hfirst := hat.1 0 (by have := r.length_pos; omega)
  rw [Nat.add_zero] at hfirst
  rw [hfirst]
  exact r.byte_zero_ne

theorem sectorBytes_cons (r : Record) (rs : List Record) :
    (sectorBytes (r :: rs)).length = r.bytes.length + (sectorBytes rs).length := by
  rw [show sectorBytes (r :: rs) = r.bytes ++ sectorBytes rs from List.flatMap_cons,
    List.length_append]

section Walk

variable {drive : Drive} {filename : List UInt8} {sector : Nat} {len : Int} {mem : Mem UInt8}

/-- A record that is not wanted is passed; `is` are the places examined on the way. -/
theorem pass_record (drive : Drive) (sector : Nat) {p : Nat} {r : Record}
    (hr : ∀ k < r.bytes.length, mem (p + k) = r.byte k)
    (hfits : p + r.bytes.length ≤ sectorSize) (hno : r.wanted (key filename) = false)
    (hlen : 0 < len) :
    ∃ is, (∀ i ∈ is, i < sectorSize) ∧ ∀ n l,
      readDirectoryLoop drive filename (n + 1) sector len p mem l =
        lookBehind drive filename n sector len (p + r.bytes.length) mem
          ⟨l.ret, 0, 0, l.examined ++ is⟩ := by
  obtain ⟨hnrb, -, hzero, hin⟩ := readDirentry_record hr filename
  obtain ⟨hlba, hsize⟩ := hzero hno
  refine ⟨(readDirentry mem p filename).examined, ?_, fun n l => ?_⟩
  · intro i hi
    have := hin i hi
    omega
  · rw [loop_passed hlen hlba hsize, hnrb]

/-- Behind a record of the sector is the next one. -/
theorem lookBehind_next {n q : Nat} {r : Record} {rs : List Record} (hat : At mem q (r :: rs))
    (l : Lookup) :
    lookBehind drive filename n sector len q mem l =
      readDirectoryLoop drive filename n sector len q mem
        { l with examined := l.examined ++ [q] } :=
  if_neg hat.ne_zero

variable (drive sector) in
/-- The first record of the sector that is wanted is found. -/
theorem walk_found {w : Record} (hlen : 0 < len) :
    ∀ (rs : List Record) (p : Nat) (l : Lookup), At mem p rs →
      p + (sectorBytes rs).length ≤ sectorSize →
      rs.find? (fun r => r.wanted (key filename)) = some w →
      ∃ k is, (∀ i ∈ is, i < sectorSize) ∧ ∀ n,
        readDirectoryLoop drive filename (n + k) sector len p mem l =
          some ⟨0, w.lba, w.size, l.examined ++ is⟩ := by
  intro rs
  induction rs with
  | nil =>
      intro p l _ _ hw
      cases hw
  | cons r rs ih =>
      rintro p l ⟨hr, hat⟩ hfits hw
      rw [sectorBytes_cons] at hfits
      cases hwant : r.wanted (key filename) with
      | true =>
          simp only [List.find?_cons, hwant, Option.some.injEq] at hw
          subst hw
          obtain ⟨-, hfound, -, hin⟩ := readDirentry_record hr filename
          obtain ⟨hlba, hsize⟩ := hfound hwant
          refine ⟨1, (readDirentry mem p filename).examined, ?_, fun n => ?_⟩
          · intro i hi
            have := hin i hi
            omega
          · rw [loop_found hlen (by rw [hlba, hsize]; exact wanted_ne_zero hwant), hlba, hsize]
      | false =>
          simp only [List.find?_cons, hwant] at hw
          cases rs with
          | nil => cases hw
          | cons r' rs =>
              obtain ⟨is, his, hpass⟩ := pass_record drive sector hr (by omega) hwant hlen
              obtain ⟨k, is', his', hloop⟩ := ih (p + r.bytes.length)
                ⟨l.ret, 0, 0, l.examined ++ is ++ [p + r.bytes.length]⟩ hat (by omega) hw
              refine ⟨k + 1, is ++ [p + r.bytes.length] ++ is', ?_, fun n => ?_⟩
              · have hplace : p + r.bytes.length < sectorSize := by
                  rw [sectorBytes_cons] at hfits
                  have := r'.length_pos
                  omega
                simp only [List.forall_mem_append, List.forall_mem_singleton]
                exact ⟨⟨his, hplace⟩, his'⟩
              · rw [← Nat.add_assoc, hpass, lookBehind_next hat, hloop]
                simp

/-- A sector without a wanted record is walked through, up to the look behind its records. -/
theorem walk_passed (hlen : 0 < len) :
    ∀ (rs : List Record) (p : Nat) (l : Lookup), rs ≠ [] → At mem p rs →
      p + (sectorBytes rs).length ≤ sectorSize →
      rs.find? (fun r => r.wanted (key filename)) = none →
      ∃ k is, (∀ i ∈ is, i < sectorSize) ∧ ∀ n,
        readDirectoryLoop drive filename (n + k) sector len p mem l =
          lookBehind drive filename n sector len (p + (sectorBytes rs).length) mem
            ⟨l.ret, 0, 0, l.examined ++ is⟩ := by
  intro rs
  induction rs with
  | nil =>
      intro p l hne
      exact absurd rfl hne
  | cons r rs ih =>
      rintro p l - ⟨hr, hat⟩ hfits hw
      rw [sectorBytes_cons] at hfits ⊢
      have hno : r.wanted (key filename) = false := by
        simpa using List.find?_eq_none.mp hw r List.mem_cons_self
      simp only [List.find?_cons, hno] at hw
      obtain ⟨is, his, hpass⟩ := pass_record drive sector hr (by omega) hno hlen
      cases rs with
      | nil => exact ⟨1, is, his, fun n => hpass n l⟩
      | cons r' rs =>
          have hplace : p + r.bytes.length < sectorSize := by
            rw [sectorBytes_cons] at hfits
            have := r'.length_pos
            omega
          obtain ⟨k, is', his', hloop⟩ := ih (p + r.bytes.length)
            ⟨l.ret, 0, 0, l.examined ++ is ++ [p + r.bytes.length]⟩ (by simp) hat (by omega) hw
          refine ⟨k + 1, is ++ [p + r.bytes.length] ++ is', ?_, fun n => ?_⟩
          · simp only [List.forall_mem_append, List.forall_mem_singleton]
            exact ⟨⟨his, hplace⟩, his'⟩
          · rw [← Nat.add_assoc, hpass, lookBehind_next hat, hloop, Nat.add_assoc]
            simp

/-- The buffer holds a sector of a directory. -/
structure Buffered (mem : Mem UInt8) (rs : List Record) : Prop where
  fits : (sectorBytes rs).length ≤ sectorSize
  holds : ∀ j < sectorSize, mem j = (sectorBytes rs).getD j 0

theorem Buffered.at {rs : List Record} (hb : Buffered mem rs) : At mem 0 rs := by
  refine at_of_bytes fun j hj => ?_
  rw [Nat.zero_add]
  exact hb.holds j (Nat.lt_of_lt_of_le hj hb.fits)

/-- Behind the records of a sector that is not filled is a zero. -/
theorem Buffered.zero {rs : List Record} (hb : Buffered mem rs)
    (hroom : (sectorBytes rs).length < sectorSize) : mem (sectorBytes rs).length = 0 := by
  rw [hb.holds _ hroom, List.getD_eq_default _ _ (Nat.le_refl _)]

variable (drive sector) in
/-- A sector with room behind its records leads to the next one. -/
theorem sector_passed {rs : List Record} (hb : Buffered mem rs)
    (hroom : (sectorBytes rs).length < sectorSize) (hlen : 0 < len)
    (hw : rs.find? (fun r => r.wanted (key filename)) = none) (l : Lookup) :
    ∃ k is, (∀ i ∈ is, i < sectorSize) ∧ ∀ n,
      readDirectoryLoop drive filename (n + k) sector len 0 mem l =
        readDirectoryLoop drive filename n (sector + 1) (len - 2048) 0
          (mem.store 0 sectorSize (drive (sector + 1)).2) ⟨l.ret, 0, 0, l.examined ++ is⟩ := by
  have hwalk : ∃ k is, (∀ i ∈ is, i < sectorSize) ∧ ∀ n,
      readDirectoryLoop drive filename (n + k) sector len 0 mem l =
        lookBehind drive filename n sector len (sectorBytes rs).length mem
          ⟨l.ret, 0, 0, l.examined ++ is⟩ := by
    by_cases hne : rs = []
    · -- the first look at a sector is not guarded, and finds zeroes here
      subst hne
      have hzero : ∀ k < 33, mem k = 0 := by
        intro k hk
        rw [hb.holds k (Nat.lt_trans hk (by decide))]
        rfl
      obtain ⟨hnrb, hlba, hsize, hin⟩ := readDirentry_zero hzero filename
      refine ⟨1, (readDirentry mem 0 filename).examined, ?_, fun n => ?_⟩
      · intro i hi
        exact Nat.lt_trans (hin i hi) (by decide)
      · rw [loop_passed hlen hlba hsize, hnrb]
        rfl
    · obtain ⟨k, is, his, hloop⟩ := walk_passed hlen rs 0 l hne hb.at (by have := hb.fits; omega) hw
      rw [Nat.zero_add] at hloop
      exact ⟨k, is, his, hloop⟩
  obtain ⟨k, is, his, hloop⟩ := hwalk
  refine ⟨k, is ++ [(sectorBytes rs).length], ?_, fun n => ?_⟩
  · simp only [List.forall_mem_append, List.forall_mem_singleton]
    exact ⟨his, hroom⟩
  · rw [hloop]
    unfold lookBehind
    rw [if_pos (hb.zero hroom), List.append_assoc]

variable (drive sector) in
/-- Behind a filled sector the byte after the buffer is looked at. -/
theorem sector_filled {rs : List Record} (hb : Buffered mem rs)
    (hfull : (sectorBytes rs).length = sectorSize) (hlen : 0 < len)
    (hw : rs.find? (fun r => r.wanted (key filename)) = none) (l : Lookup) :
    ∃ k, ∀ n l', readDirectoryLoop drive filename (n + k) sector len 0 mem l = some l' →
      sectorSize ∈ l'.examined := by
  have hne : rs ≠ [] := by
    intro hnil
    rw [hnil] at hfull
    exact absurd hfull (by decide)
  obtain ⟨k, is, -, hloop⟩ := walk_passed hlen rs 0 l hne hb.at (by omega) hw
  rw [Nat.zero_add, hfull] at hloop
  refine ⟨k, fun n l' hr => ?_⟩
  rw [hloop] at hr
  unfold lookBehind at hr
  split at hr
  · exact loop_examined hr (by simp)
  · exact loop_examined hr (by simp)

end Walk

/-! ### The directory -/

/-- No sector that is filled to its last byte is walked to its end: before that, there is the
record that is looked for. -/
def NoneFilled (dir : List (List Record)) (name : List UInt8) : Prop :=
  ∀ pre rs post, dir = pre ++ rs :: post → lookup (pre ++ [rs]) name = none →
    (sectorBytes rs).length ≠ sectorSize

theorem lookup_cons (rs : List Record) (dir : List (List Record)) (name : List UInt8) :
    lookup (rs :: dir) name = (rs.find? fun r => r.wanted name).or (lookup dir name) := by
  unfold lookup
  rw [List.flatten_cons, List.find?_append]

theorem noneFilled_cons (rs : List Record) (dir : List (List Record)) (name : List UInt8) :
    NoneFilled (rs :: dir) name ↔ ((rs.find? fun r => r.wanted name) = none →
      (sectorBytes rs).length ≠ sectorSize ∧ NoneFilled dir name) := by
  constructor
  · intro hnone hw
    refine ⟨hnone [] rs dir rfl ?_, ?_⟩
    · rw [List.nil_append, lookup_cons, hw]
      rfl
    · rintro pre rs' post rfl hlookup
      refine hnone (rs :: pre) rs' post rfl ?_
      rw [List.cons_append, lookup_cons, hw]
      exact hlookup
  · rintro hnone pre rs' post hdir hlookup
    cases pre with
    | nil =>
        obtain ⟨rfl, rfl⟩ : rs = rs' ∧ dir = post := by simpa using hdir
        rw [List.nil_append, lookup_cons] at hlookup
        exact (hnone (Option.or_eq_none_iff.mp hlookup).1).1
    | cons rs'' pre =>
        obtain ⟨rfl, rfl⟩ : rs = rs'' ∧ dir = pre ++ rs' :: post := by simpa using hdir
        rw [List.cons_append, lookup_cons] at hlookup
        obtain ⟨hw, hrest⟩ := Option.or_eq_none_iff.mp hlookup
        exact (hnone hw).2 pre rs' post rfl hrest

theorem OnDisc.tail {drive : Drive} {sector : Nat} {rs : List Record} {dir : List (List Record)}
    (hdisc : OnDisc drive sector (rs :: dir)) : OnDisc drive (sector + 1) dir where
  read := by
    intro i hi
    rw [Nat.add_assoc, Nat.add_comm 1]
    exact hdisc.read (i + 1) (Nat.succ_lt_succ hi)
  fits := fun rs' hrs => hdisc.fits rs' (List.mem_cons_of_mem _ hrs)
  holds := by
    intro i rs' hrs j hj
    rw [Nat.add_assoc, Nat.add_comm 1]
    exact hdisc.holds (i + 1) rs' hrs j hj

theorem OnDisc.buffered {drive : Drive} {sector : Nat} {rs : List Record}
    {dir : List (List Record)} (hdisc : OnDisc drive sector (rs :: dir)) (mem : Mem UInt8) :
    Buffered (mem.store 0 sectorSize (drive sector).2) rs where
  fits := hdisc.fits rs List.mem_cons_self
  holds := by
    intro j hj
    have hstore := mem.store_at 0 (drive sector).2 hj
    rw [Nat.zero_add] at hstore
    rw [hstore]
    exact hdisc.holds 0 rs rfl j hj

theorem Answers.found_here {rs : List Record} {w : Record} {name : List UInt8} {l : Lookup}
    (hw : (rs.find? fun r => r.wanted name) = some w) (hret : l.ret = 0) (hlba : l.lba = w.lba)
    (hsize : l.size = w.size) (dir : List (List Record)) : Answers (rs :: dir) name l where
  found := by
    intro r hr
    rw [lookup_cons, hw, Option.some_or, Option.some.injEq] at hr
    rw [← hr]
    exact ⟨hret, hlba, hsize⟩
  missing := by
    intro hr
    rw [lookup_cons, hw, Option.some_or] at hr
    cases hr

theorem Answers.passed {rs : List Record} {dir : List (List Record)} {name : List UInt8}
    {l : Lookup} (ha : Answers dir name l) (hw : (rs.find? fun r => r.wanted name) = none) :
    Answers (rs :: dir) name l := by
  obtain ⟨hfound, hmissing⟩ := ha
  refine ⟨?_, ?_⟩
  · rw [lookup_cons, hw, Option.none_or]
    exact hfound
  · rw [lookup_cons, hw, Option.none_or]
    exact hmissing

theorem rest_len (rs : List Record) (dir : List (List Record)) :
    (2048 * (rs :: dir).length : Int) - 2048 = 2048 * dir.length := by
  rw [List.length_cons]
  push_cast
  omega

theorem len_pos (rs : List Record) (dir : List (List Record)) :
    (0 : Int) < 2048 * (rs :: dir).length := by
  rw [List.length_cons]
  push_cast
  omega

/-- The loop over a directory, from the start of a sector that has been read. -/
theorem readDirectoryLoop_finds {drive : Drive} {filename : List UInt8} :
    ∀ (dir : List (List Record)) (sector : Nat) (mem : Mem UInt8) (l : Lookup),
      OnDisc drive sector dir → NoneFilled dir (key filename) →
      ∃ N, ∀ n, N ≤ n → ∃ l', readDirectoryLoop drive filename n sector (2048 * dir.length) 0
          (mem.store 0 sectorSize (drive sector).2) l = some l' ∧
        Answers dir (key filename) l' ∧ ∀ i ∈ l'.examined, i ∈ l.examined ∨ i < sectorSize := by
  intro dir
  induction dir with
  | nil =>
      intro sector mem l _ _
      refine ⟨1, fun n hn => ?_⟩
      obtain ⟨n, rfl⟩ := Nat.exists_eq_add_of_le' hn
      refine ⟨{ l with ret := -2 }, rfl, ⟨?_, fun _ => rfl⟩, fun i hi => Or.inl hi⟩
      intro r hr
      cases hr
  | cons rs dir ih =>
      intro sector mem l hdisc hnone
      have hb := hdisc.buffered mem
      have hlen := len_pos rs dir
      rw [noneFilled_cons] at hnone
      cases hw : rs.find? fun r => r.wanted (key filename) with
      | some w =>
          obtain ⟨k, is, his, hloop⟩ := walk_found drive sector hlen rs 0 l hb.at
            (by have := hb.fits; omega) hw
          refine ⟨k, fun n hn => ?_⟩
          obtain ⟨n, rfl⟩ := Nat.exists_eq_add_of_le' hn
          refine ⟨_, hloop n, .found_here hw rfl rfl rfl dir, fun i hi => ?_⟩
          rcases List.mem_append.mp hi with hi | hi
          · exact Or.inl hi
          · exact Or.inr (his i hi)
      | none =>
          obtain ⟨hfull, hrest⟩ := hnone hw
          have hroom : (sectorBytes rs).length < sectorSize := by
            have := hb.fits
            omega
          obtain ⟨k, is, his, hloop⟩ := sector_passed drive sector hb hroom hlen hw l
          obtain ⟨N, hfinds⟩ := ih (sector + 1) (mem.store 0 sectorSize (drive sector).2)
            ⟨l.ret, 0, 0, l.examined ++ is⟩ hdisc.tail hrest
          refine ⟨N + k, fun n hn => ?_⟩
          obtain ⟨n, rfl⟩ : ∃ m, n = m + k := ⟨n - k, by omega⟩
          obtain ⟨l', hr, hanswers, hin⟩ := hfinds n (by omega)
          refine ⟨l', ?_, hanswers.passed hw, fun i hi => ?_⟩
          · rw [hloop, rest_len, hr]
          · rcases hin i hi with hi | hi
            · rcases List.mem_append.mp hi with hi | hi
              · exact Or.inl hi
              · exact Or.inr (his i hi)
            · exact Or.inr hi

/-- The end of a filled sector comes with a look behind the buffer. -/
theorem readDirectoryLoop_filled {drive : Drive} {filename : List UInt8} :
    ∀ (dir : List (List Record)) (sector : Nat) (mem : Mem UInt8) (l : Lookup),
      OnDisc drive sector dir → ¬ NoneFilled dir (key filename) →
      ∃ N, ∀ n, N ≤ n → ∀ l', readDirectoryLoop drive filename n sector (2048 * dir.length) 0
          (mem.store 0 sectorSize (drive sector).2) l = some l' → sectorSize ∈ l'.examined := by
  intro dir
  induction dir with
  | nil =>
      intro sector mem l _ hfilled
      refine absurd ?_ hfilled
      intro pre rs post hdir
      simp at hdir
  | cons rs dir ih =>
      intro sector mem l hdisc hfilled
      have hb := hdisc.buffered mem
      have hlen := len_pos rs dir
      rw [noneFilled_cons, Classical.not_imp] at hfilled
      obtain ⟨hw, hfilled⟩ := hfilled
      by_cases hfull : (sectorBytes rs).length = sectorSize
      · obtain ⟨k, hloop⟩ := sector_filled drive sector hb hfull hlen hw l
        refine ⟨k, fun n hn l' hr => ?_⟩
        obtain ⟨n, rfl⟩ := Nat.exists_eq_add_of_le' hn
        exact hloop n l' hr
      · have hroom : (sectorBytes rs).length < sectorSize := by
          have := hb.fits
          omega
        obtain ⟨k, is, -, hloop⟩ := sector_passed drive sector hb hroom hlen hw l
        obtain ⟨N, hlooked⟩ := ih (sector + 1) (mem.store 0 sectorSize (drive sector).2)
          ⟨l.ret, 0, 0, l.examined ++ is⟩ hdisc.tail fun hnone => hfilled ⟨hfull, hnone⟩
        refine ⟨N + k, fun n hn l' hr => ?_⟩
        obtain ⟨n, rfl⟩ : ∃ m, n = m + k := ⟨n - k, by omega⟩
        rw [hloop, rest_len] at hr
        exact hlooked n (by omega) l' hr

/-- Given turns enough, `read_directory` ends with the right answer, and has examined its buffer
only. -/
def LooksUp (drive : Drive) (mem : Mem UInt8) (sector : Nat) (dir : List (List Record))
    (filename : List UInt8) (lba size : Nat) (name : List UInt8) : Prop :=
  ∃ N, ∀ n, N ≤ n → ∃ l,
    readDirectory drive mem n sector (2048 * dir.length) filename lba size = some l ∧
      Answers dir name l ∧ ∀ i ∈ l.examined, i < sectorSize

theorem readDirectory_eq {drive : Drive} {sector : Nat} {dir : List (List Record)}
    (hdisc : OnDisc drive sector dir) (hne : dir ≠ []) (mem : Mem UInt8) (n : Nat) (len : Int)
    (filename : List UInt8) (lba size : Nat) :
    readDirectory drive mem n sector len filename lba size =
      readDirectoryLoop drive filename n sector len 0
        (mem.store 0 sectorSize (drive sector).2) ⟨0, lba, size, List.range 0x40⟩ := by
  have hread := hdisc.read 0 (List.length_pos_of_ne_nil hne)
  rw [Nat.add_zero] at hread
  unfold readDirectory
  rw [if_neg (by simp [hread])]

/-- Where a filled sector is walked to its end, the buffer is left. -/
theorem not_looksUp_of_filled {drive : Drive} {sector : Nat} {dir : List (List Record)}
    (hdisc : OnDisc drive sector dir) (hne : dir ≠ []) {filename : List UInt8}
    (hfilled : ¬ NoneFilled dir (key filename)) (mem : Mem UInt8) (lba size : Nat)
    (name : List UInt8) : ¬ LooksUp drive mem sector dir filename lba size name := by
  rintro ⟨N, hfinds⟩
  obtain ⟨N', hlooked⟩ := readDirectoryLoop_filled dir sector mem
    ⟨0, lba, size, List.range 0x40⟩ hdisc hfilled
  obtain ⟨l, hr, -, hin⟩ := hfinds (N + N') (by omega)
  rw [readDirectory_eq hdisc hne] at hr
  exact Nat.lt_irrefl _ (hin _ (hlooked (N + N') (by omega) l hr))

/-- **A lookup finds the first record of a name**, in whatever sector of the directory it is, and
says so if there is none, whatever lies behind the sector buffer.  The empty name stands for the
identifier that is a single zero. -/
theorem readDirectory_finds {drive : Drive} {sector : Nat} {dir : List (List Record)}
    (hdisc : OnDisc drive sector dir) (hne : dir ≠ []) {filename : List UInt8}
    (hnone : NoneFilled dir (key filename)) (mem : Mem UInt8) (lba size : Nat) :
    LooksUp drive mem sector dir filename lba size (key filename) := by
  obtain ⟨N, hfinds⟩ := readDirectoryLoop_finds dir sector mem
    ⟨0, lba, size, List.range 0x40⟩ hdisc hnone
  refine ⟨N, fun n hn => ?_⟩
  obtain ⟨l, hr, hanswers, hin⟩ := hfinds n hn
  refine ⟨l, ?_, hanswers, fun i hi => ?_⟩
  · rw [readDirectory_eq hdisc hne]
    exact hr
  · rcases hin i hi with hi | hi
    · exact Nat.lt_trans (List.mem_range.mp hi) (by decide)
    · exact hi

/-! ### Discs -/

/-- A disc with a directory at sector 20. -/
def disc (dir : List (List Record)) : Drive :=
  fun sector => (true, fun j => (sectorBytes (dir.getD (sector - 20) [])).getD j 0)

theorem disc_onDisc {dir : List (List Record)}
    (hfits : ∀ rs ∈ dir, (sectorBytes rs).length ≤ sectorSize) : OnDisc (disc dir) 20 dir where
  read := fun _ _ => rfl
  fits := hfits
  holds := by
    intro i rs hrs j _
    unfold disc
    rw [Nat.add_sub_cancel_left, List.getD_eq_getElem?_getD, hrs]
    rfl

/-- The record by which a directory at sector 18 names itself. -/
def dotRecord : Record where
  bytes := [64, 0, 18, 0, 0, 0, 0, 0, 0, 18, 0, 8, 0, 0, 0, 0, 8, 0] ++ List.replicate 14 0 ++
    [1, 0] ++ List.replicate 30 0
  length_eq := by decide
  fits := by decide

/-- A file `VMLINUX.;1` of 1024 bytes at sector 22. -/
def kernelRecord : Record where
  bytes := [64, 0, 22, 0, 0, 0, 0, 0, 0, 22, 0, 4, 0, 0, 0, 0, 4, 0] ++ List.replicate 14 0 ++
    [10, 0x56, 0x4d, 0x4c, 0x49, 0x4e, 0x55, 0x58, 0x2e, 0x3b, 0x31] ++ List.replicate 21 0
  length_eq := by decide
  fits := by decide

/-- The name `vmlinux.;1`. -/
def kernelName : List UInt8 := [0x76, 0x6d, 0x6c, 0x69, 0x6e, 0x75, 0x78, 0x2e, 0x3b, 0x31]

theorem kernel_found :
    LooksUp (disc [[dotRecord], [kernelRecord]]) (fun _ => 0xff) 20 [[dotRecord], [kernelRecord]]
        kernelName 0 0 (key kernelName) ∧
      (lookup [[dotRecord], [kernelRecord]] (key kernelName)).map Record.lba = some 22 := by
  have hlen : ∀ rs ∈ [[dotRecord], [kernelRecord]], (sectorBytes rs).length = 64 := by decide
  have hdisc : OnDisc (disc [[dotRecord], [kernelRecord]]) 20 [[dotRecord], [kernelRecord]] :=
    disc_onDisc fun rs hrs => by
      rw [hlen rs hrs]
      decide
  refine ⟨readDirectory_finds hdisc (by simp) ?_ (fun _ => 0xff) 0 0, by decide⟩
  intro pre rs post hdir _
  rw [hlen rs (by rw [hdir]; simp)]
  decide

theorem lookup_dots (n : Nat) {name : List UInt8} (hno : dotRecord.wanted name = false) :
    lookup [List.replicate n dotRecord] name = none := by
  unfold lookup
  rw [List.find?_eq_none]
  intro r hr
  rw [List.flatten_singleton] at hr
  rw [List.eq_of_mem_replicate hr, hno]
  decide

/-- The empty name finds the directory itself, which has no empty identifier; and in a sector of
32 records of 64 bytes each, the look for a name that is not there goes on behind the buffer. -/
theorem lookup_otherwise :
    ¬ LooksUp (disc [[dotRecord]]) (fun _ => 0) 20 [[dotRecord]] [] 0 0 [] ∧
      ¬ LooksUp (disc [List.replicate 32 dotRecord]) (fun _ => 0) 20
        [List.replicate 32 dotRecord] kernelName 0 0 kernelName := by
  constructor
  · have hdisc : OnDisc (disc [[dotRecord]]) 20 [[dotRecord]] := disc_onDisc (by decide)
    have hwanted : dotRecord.wanted (key []) = true := by decide
    have hb := hdisc.buffered fun _ => 0
    obtain ⟨k, is, -, hloop⟩ := walk_found (disc [[dotRecord]]) 20 (len_pos [dotRecord] [])
      [dotRecord] 0 ⟨0, 0, 0, List.range 0x40⟩ hb.at (by decide)
      (show [dotRecord].find? (fun r => r.wanted (key [])) = some dotRecord by
        simp only [List.find?_cons, hwanted])
    rintro ⟨N, hfinds⟩
    obtain ⟨l, hr, hanswers, -⟩ := hfinds (N + k) (by omega)
    rw [readDirectory_eq hdisc (by simp), hloop N] at hr
    cases hr
    have hret : (0 : Int) = -2 := hanswers.missing (lookup_dots 1 (by decide))
    exact absurd hret (by decide)
  · have hfull : (sectorBytes (List.replicate 32 dotRecord)).length = sectorSize := by
      decide +kernel
    refine not_looksUp_of_filled (disc_onDisc ?_) (by simp) ?_ _ _ _ _
    · intro rs hrs
      rw [List.mem_singleton.mp hrs]
      exact Nat.le_of_eq hfull
    · intro hnone
      exact hnone [] _ [] rfl (lookup_dots 32 (by decide)) hfull

end Xell.Cdrom
