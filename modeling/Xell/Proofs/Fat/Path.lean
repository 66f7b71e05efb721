/-
Path resolution.

A directory is a stream of 32-byte entries, `entry v c i`, and its entry sequence ends
before the first entry whose byte 0 is zero, or where the stream does.  `Resolves` says
what it means for a path to name something: every component has a matching entry in the
directory the components before it name.

`fat_open` follows that definition with one exception.  The scan of a directory ends in
one of three ways: at a match, at a zero entry, or because nothing of the directory
remains.  The first two leave the component loop when they have to.  The third does not:
the loop goes on with the next component in the *same* directory.  `ResolvesSkipping`
describes what the code accepts, and the two notions differ exactly when a component is
missing from a directory without a zero entry.
-/
import Xell.Boot
import Xell.Proofs.Fat.Extent

namespace Xell.Fat

open Boot (xenonPath)

/-! ### Directories as sequences of entries -/

/-- Entry `i` of the directory at `c`, as `fat_open` finds it in `dir`. -/
def entry (v : Volume) (c i : Nat) : Mem UInt8 :=
  Mem.store (fun _ => 0) 0 0x20 fun k =>
    streamByte v (startLoc v c) (fun _ => 0) (0x20 * i + k)

/-- The directory reaches as far as entry `i`. -/
def Reaches (v : Volume) (c i : Nat) : Prop := (startLoc v c (0x20 * i)).isSome = true

/-- Entry `i` belongs to the entry sequence: no entry up to it starts with a zero. -/
def InDir (v : Volume) (c i : Nat) : Prop := ∀ k ≤ i, Reaches v c k ∧ entry v c k 0 ≠ 0

/-- Some entry starts with a zero. -/
def Terminated (v : Volume) (c : Nat) : Prop := ∃ i, Reaches v c i ∧ entry v c i 0 = 0

/-- Entry `i` is the first of the sequence that matches a component. -/
structure MatchAt (v : Volume) (c : Nat) (name : List UInt8) (more : Bool) (i : Nat) : Prop where
  inDir : InDir v c i
  isMatch : entryMatches name more (entry v c i) = true
  first : ∀ k < i, entryMatches name more (entry v c k) = false

/-- No entry of the sequence matches a component. -/
def Missing (v : Volume) (c : Nat) (name : List UInt8) (more : Bool) : Prop :=
  ∀ i, InDir v c i → entryMatches name more (entry v c i) = false

/-- Whether path text follows the first component. -/
def more (path : List UInt8) : Bool := peek (parseComponent path).2 != 0

/-- `path`, looked up from the directory at `c`, names the entry `e`. -/
inductive Resolves (v : Volume) : Nat → List UInt8 → Mem UInt8 → Prop
  | last {c i : Nat} {path : List UInt8} (hne : peek path ≠ 0) (hmore : more path = false)
      (h : MatchAt v c (parseComponent path).1 false i) : Resolves v c path (entry v c i)
  | sub {c i : Nat} {path : List UInt8} {e : Mem UInt8} (hne : peek path ≠ 0)
      (hmore : more path = true) (h : MatchAt v c (parseComponent path).1 true i)
      (hrest : Resolves v (dirCluster v (entry v c i)) (parseComponent path).2 e) :
      Resolves v c path e

/-- An entry that `fat_open` can enter: a directory in use, and no volume label. -/
structure Enterable (dir : Mem UInt8) : Prop where
  noLabel : dir 0x0b &&& 0x08 = 0
  inUse : dir 0 ≠ 0xe5
  isDir : dir 0x0b &&& 0x10 ≠ 0

/-- The directories of a volume: the root, and what can be entered from one of them. -/
inductive Directory (v : Volume) : Nat → Prop
  | root : Directory v 0
  | sub {c i : Nat} (h : Directory v c) (hin : InDir v c i) (henter : Enterable (entry v c i)) :
      Directory v (dirCluster v (entry v c i))

/-- The sectors of a directory have numbers, and it is finite and shorter than 2^32 bytes. -/
structure DirOK (v : Volume) (c : Nat) : Prop where
  root : isRootArea v c → v.InRange v.rootOffset (0x20 * v.rootEntries)
  fat : ¬ isRootArea v c → ∀ i d, chainAt v i (startCluster v c) = some d →
    v.InRange (v.fatOffset + v.entryBits d / 8) 4
  data : ¬ isRootArea v c → ∀ i d, chainAt v i (startCluster v c) = some d →
    v.InRange (v.clusterOffset d) v.bytesPerCluster
  length : ∃ n < 2 ^ 32, ∀ j, (startLoc v c j).isSome = true ↔ j < n

/-- What path resolution assumes of a volume. -/
structure PathOK (v : Volume) : Prop extends v.OK where
  sectors : 0x200 ∣ v.bytesPerCluster
  dirs : ∀ c, Directory v c → DirOK v c

theorem chainLoc_isSome {v : Volume} {c j : Nat} :
    (chainLoc v c j).isSome = (chainAt v (j / v.bytesPerCluster) c).isSome := by
  unfold chainLoc
  exact Option.isSome_map

/-- A finite directory has no runs that overflow `extent_len`. -/
theorem DirOK.startOK {v : Volume} (hv : v.OK) {c : Nat} (h : DirOK v c) : StartOK v c := by
  unfold StartOK
  split
  · rename_i hroot
    exact h.root hroot
  · rename_i hroot
    refine ⟨h.fat hroot, h.data hroot, fun i n d hrun => ?_⟩
    obtain ⟨L, hL, hsome⟩ := h.length
    cases n with
    | zero => rw [Nat.zero_mul]; decide
    | succ n =>
        -- the last byte of the run is a byte of the directory
        have hdiv : ((i + n) * v.bytesPerCluster + (v.bytesPerCluster - 1)) / v.bytesPerCluster
            = i + n := by
          rw [Nat.add_comm, Nat.add_mul_div_right _ _ hv.cluster_pos,
            Nat.div_eq_of_lt (by have := hv.cluster_pos; omega), Nat.zero_add]
        have hlast : (startLoc v c ((i + n) * v.bytesPerCluster
            + (v.bytesPerCluster - 1))).isSome = true := by
          unfold startLoc
          rw [if_neg hroot, chainLoc_isSome, hdiv, hrun n (Nat.lt_succ_self n)]
          rfl
        have hlt := (hsome _).mp hlast
        have hpos := hv.cluster_pos
        rw [Nat.succ_mul]
        rw [Nat.add_mul] at hlt
        omega

/-- Entries never straddle the end of a directory. -/
theorem startLoc_block {v : Volume} (hv : v.OK) (hsect : 0x200 ∣ v.bytesPerCluster) (c i : Nat)
    {k : Nat} (hk : k < 0x20) :
    (startLoc v c (0x20 * i + k)).isSome = (startLoc v c (0x20 * i)).isSome := by
  unfold startLoc
  by_cases hroot : isRootArea v c
  · rw [if_pos hroot, if_pos hroot]
    by_cases hi : i < v.rootEntries
    · rw [if_pos (by omega), if_pos (by omega)]
      rfl
    · rw [if_neg (by omega), if_neg (by omega)]
  · rw [if_neg hroot, if_neg hroot, chainLoc_isSome, chainLoc_isSome]
    obtain ⟨q, hq⟩ := hsect
    have hqpos : 0 < v.bytesPerCluster := hv.cluster_pos
    have hsplit : v.bytesPerCluster = 0x20 * (0x10 * q) := by omega
    have h1 : (0x20 * i + k) / v.bytesPerCluster = i / (0x10 * q) := by
      rw [hsplit, ← Nat.div_div_eq_div_mul]
      congr 1
      omega
    have h2 : (0x20 * i) / v.bytesPerCluster = i / (0x10 * q) := by
      rw [hsplit, ← Nat.div_div_eq_div_mul]
      congr 1
      omega
    rw [h1, h2]

theorem Reaches.mono {v : Volume} {c i j : Nat} (hij : i ≤ j)
    (h : Reaches v c j) : Reaches v c i := by
  unfold Reaches startLoc at *
  by_cases hroot : isRootArea v c
  · rw [if_pos hroot] at h ⊢
    by_cases hj : 0x20 * j < 0x20 * v.rootEntries
    · rw [if_pos (by omega)]
      rfl
    · rw [if_neg hj] at h
      simp at h
  · rw [if_neg hroot, chainLoc_isSome] at h ⊢
    obtain ⟨d, hd⟩ := Option.isSome_iff_exists.mp h
    exact chainAt_prefix (Nat.div_le_div_right (by omega)) hd

theorem dirCluster_lt (v : Volume) (dir : Mem UInt8) : dirCluster v dir < 2 ^ 32 := by
  have hlo := le16_lt dir 0x1a
  have hhi := le16_lt dir 0x14
  unfold dirCluster
  split
  · refine Nat.or_lt_two_pow (by omega) ?_
    rw [Nat.shiftLeft_eq]
    omega
  · omega

/-! ### One entry of the scan -/

/-- The state stands before entry `i` of the directory at `c`. -/
structure AtEntry (v : Volume) (c i : Nat) (s : State) : Prop where
  ready : Ready v s
  rest : ∀ j, remaining v s j = startLoc v c (0x20 * i + j)

theorem AtEntry.extentLen {v : Volume} {c i : Nat} {s : State} (h : AtEntry v c i s) :
    s.extentLen = 0 ↔ ¬ Reaches v c i := by
  have h0 := h.rest 0
  rw [Nat.add_zero] at h0
  unfold Reaches
  rw [← h0]
  constructor
  · intro hlen
    rw [h.ready.remaining_none hlen]
    simp
  · intro hnone
    by_contra hlen
    refine hnone ?_
    unfold remaining
    rw [if_pos (Nat.pos_of_ne_zero hlen)]
    rfl

/-- What `get_extent` leaves stands before the first entry. -/
theorem getExtent_atEntry {v : Volume} (hv : v.OK) (hfull : ∀ k t, v.dev.answer k t = .full)
    {c : Nat} (hc : c < 2 ^ 32) (hok : StartOK v c) {s : State}
    (hcoh : Coherent v.dev s.cache) : AtEntry v c 0 (getExtent v c s) := by
  obtain ⟨hready, hrem, -⟩ := getExtent_full hv hc hok hcoh fun k _ _ => hfull k
  refine ⟨hready, fun j => ?_⟩
  rw [hrem, Nat.mul_zero, Nat.zero_add]

section Scan

variable {v : Volume} {c : Nat} {name : List UInt8} {m : Bool}

theorem AtEntry.read (hv : PathOK v) (hfull : ∀ k t, v.dev.answer k t = .full) {i : Nat} {s : State}
    (h : AtEntry v c i s) (hr : Reaches v c i) :
    (readExtent v 0 0x20 (fun _ => 0) s).err = 0 ∧
      (readExtent v 0 0x20 (fun _ => 0) s).mem = entry v c i ∧
      AtEntry v c (i + 1) (readExtent v 0 0x20 (fun _ => 0) s).st ∧
      (readExtent v 0 0x20 (fun _ => 0) s).st.fatFileSize = s.fatFileSize := by
  obtain ⟨hiff, hmem, hready, hrem, hsize⟩ := readExtent_full hv.toOK 0 0x20
    (fun _ => 0) h.ready fun k _ _ => hfull k
  have hhas : Has (remaining v s) 0x20 := by
    intro j hj
    rw [h.rest, startLoc_block hv.toOK hv.sectors c i hj]
    exact hr
  refine ⟨hiff.mpr hhas, ?_, ⟨hready, fun j => ?_⟩, hsize⟩
  · rw [hmem]
    exact Mem.store_congr _ _ fun j hj => streamByte_congr (h.rest j) (hhas j hj)
  · rw [hrem, h.rest]
    congr 1
    omega

theorem scan_over {i : Nat} {s : State} (h : AtEntry v c i s) (hr : ¬ Reaches v c i)
    (fuel : Nat) : scan v name m (fuel + 1) s = some (.exhausted, s) := by
  rw [scan, if_pos (h.extentLen.mpr hr)]

theorem scan_entry (hv : PathOK v) (hfull : ∀ k t, v.dev.answer k t = .full) {i : Nat} {s : State}
    (h : AtEntry v c i s) (hr : Reaches v c i) (fuel : Nat) :
    scan v name m (fuel + 1) s =
      (let s' := (readExtent v 0 0x20 (fun _ => 0) s).st
       if entry v c i 0 = 0 then some (.returned (-1), s')
       else if entryMatches name m (entry v c i) then some (.found (entry v c i), s')
       else scan v name m fuel s') := by
  obtain ⟨herr, hmem, -, -⟩ := h.read hv hfull hr
  have hlen : s.extentLen ≠ 0 := fun hz => h.extentLen.mp hz hr
  rw [scan, if_neg hlen]
  dsimp only
  rw [if_neg (by simp [herr]), hmem]

/-- More fuel changes nothing about a scan that ends. -/
theorem scan_mono {r : ScanEnd × State} :
    ∀ {fuel fuel' : Nat} {s : State}, scan v name m fuel s = some r → fuel ≤ fuel' →
      scan v name m fuel' s = some r := by
  intro fuel
  induction fuel with
  | zero => intro fuel' s h _; simp [scan] at h
  | succ fuel ih =>
      intro fuel' s h hle
      obtain ⟨fuel', rfl⟩ : ∃ f, fuel' = f + 1 := ⟨fuel' - 1, by omega⟩
      by_cases hext : s.extentLen = 0
      · rw [scan, if_pos hext] at h ⊢
        exact h
      rw [scan_succ _ hext] at h ⊢
      cases hend : endsAt name m (nextEntry v s) with
      | some e => rwa [hend] at h
      | none =>
          rw [hend] at h
          exact ih h (by omega)

/-! ### The three ways a scan ends -/

/-- What a scan leaves behind, whichever way it ends. -/
def ScanLeaves (v : Volume) (s s' : State) : Prop :=
  Coherent v.dev s'.cache ∧ s'.fatFileSize = s.fatFileSize

theorem scan_found (hv : PathOK v) (hfull : ∀ k t, v.dev.answer k t = .full) {n : Nat}
    (hm : MatchAt v c name m n) :
    ∀ (left i fuel : Nat) (s : State), i + left = n → left < fuel → AtEntry v c i s →
      ∃ s', scan v name m fuel s = some (.found (entry v c n), s') ∧ ScanLeaves v s s' := by
  intro left
  induction left with
  | zero =>
      intro i fuel s hi hfuel h
      obtain rfl : i = n := by omega
      obtain ⟨fuel, rfl⟩ : ∃ f, fuel = f + 1 := ⟨fuel - 1, by omega⟩
      obtain ⟨hr, hz⟩ := hm.inDir i (Nat.le_refl _)
      obtain ⟨-, -, hat, hsize⟩ := h.read hv hfull hr
      refine ⟨_, ?_, hat.ready.coherent, hsize⟩
      rw [scan_entry hv hfull h hr]
      dsimp only
      rw [if_neg hz, if_pos hm.isMatch]
  | succ left ih =>
      intro i fuel s hi hfuel h
      obtain ⟨fuel, rfl⟩ : ∃ f, fuel = f + 1 := ⟨fuel - 1, by omega⟩
      obtain ⟨hr, hz⟩ := hm.inDir i (by omega)
      obtain ⟨-, -, hat, hsize⟩ := h.read hv hfull hr
      obtain ⟨s', hscan, hcoh, hsize'⟩ := ih (i + 1) fuel _ (by omega) (by omega) hat
      refine ⟨s', ?_, hcoh, hsize'.trans hsize⟩
      rw [scan_entry hv hfull h hr]
      dsimp only
      rw [if_neg hz, if_neg (by simp [hm.first i (by omega)])]
      exact hscan

/-- A scan that meets no match ends at the first entry that starts with a zero, or is over
where the directory is. -/
theorem scan_missing (hv : PathOK v) (hfull : ∀ k t, v.dev.answer k t = .full)
    (hmiss : Missing v c name m) {n : Nat} (hn : ¬ Reaches v c n) :
    ∀ (left i fuel : Nat) (s : State), i + left = n → left < fuel → AtEntry v c i s →
      (∀ k < i, Reaches v c k ∧ entry v c k 0 ≠ 0) →
      ∃ r s', scan v name m fuel s = some (r, s') ∧ ScanLeaves v s s' ∧
        ((Terminated v c ∧ r = .returned (-1)) ∨ (¬ Terminated v c ∧ r = .exhausted)) := by
  intro left
  induction left with
  | zero =>
      intro i fuel s hi hfuel h hprev
      obtain rfl : i = n := by omega
      obtain ⟨fuel, rfl⟩ : ∃ f, fuel = f + 1 := ⟨fuel - 1, by omega⟩
      refine ⟨_, _, scan_over h hn fuel, ⟨h.ready.coherent, rfl⟩, Or.inr ⟨?_, rfl⟩⟩
      rintro ⟨k, hk, hz⟩
      by_cases hki : k < i
      · exact (hprev k hki).2 hz
      · exact hn (Reaches.mono (Nat.not_lt.mp hki) hk)
  | succ left ih =>
      intro i fuel s hi hfuel h hprev
      obtain ⟨fuel, rfl⟩ : ∃ f, fuel = f + 1 := ⟨fuel - 1, by omega⟩
      by_cases hr : Reaches v c i
      · obtain ⟨-, -, hat, hsize⟩ := h.read hv hfull hr
        rw [scan_entry hv hfull h hr]
        dsimp only
        by_cases hz : entry v c i 0 = 0
        · rw [if_pos hz]
          exact ⟨_, _, rfl, ⟨hat.ready.coherent, hsize⟩, Or.inl ⟨⟨i, hr, hz⟩, rfl⟩⟩
        · have hin : ∀ k < i + 1, Reaches v c k ∧ entry v c k 0 ≠ 0 := by
            intro k hk
            rcases Nat.lt_succ_iff_lt_or_eq.mp hk with hlt | rfl
            · exact hprev k hlt
            · exact ⟨hr, hz⟩
          have hno := hmiss i fun k hk => hin k (Nat.lt_succ_of_le hk)
          rw [if_neg hz, if_neg (by simp [hno])]
          obtain ⟨r, s', hscan, ⟨hcoh, hsize'⟩, hend⟩ :=
            ih (i + 1) fuel _ (by omega) (by omega) hat hin
          exact ⟨r, s', hscan, ⟨hcoh, hsize'.trans hsize⟩, hend⟩
      · refine ⟨_, _, scan_over h hr fuel, ⟨h.ready.coherent, rfl⟩, Or.inr ⟨?_, rfl⟩⟩
        rintro ⟨k, hk, hz⟩
        by_cases hki : k < i
        · exact (hprev k hki).2 hz
        · exact hr (Reaches.mono (Nat.not_lt.mp hki) hk)

end Scan

/-! ### Components -/

theorem parseField_length (stop : UInt8 → Bool) (limit : Nat) :
    ∀ (path fatName : List UInt8), (parseField stop limit fatName path).2.length ≤ path.length := by
  intro path
  induction path with
  | nil => intro fatName; exact Nat.le_refl _
  | cons ch path ih =>
      intro fatName
      rw [parseField]
      split
      · exact Nat.le_refl _
      · exact Nat.le_trans (ih _) (Nat.le_succ _)

theorem parseField_shorter (stop : UInt8 → Bool) (limit : Nat) {ch : UInt8}
    (path fatName : List UInt8) (hz : ch ≠ 0) (hs : stop ch = false) :
    (parseField stop limit fatName (ch :: path)).2.length ≤ path.length := by
  rw [parseField, if_neg (by simp [hz, hs])]
  exact parseField_length stop limit path _

/-- The path after the part of a component before its dot, and the dot. -/
def afterBase (path : List UInt8) : List UInt8 :=
  let base := parseField (fun c => c == 0x2f || c == 0x2e) 8 [] path
  if peek base.2 = 0x2e then base.2.tail else base.2

theorem afterBase_length (path : List UInt8) : (afterBase path).length ≤ path.length := by
  have hbase := parseField_length (fun c => c == 0x2f || c == 0x2e) 8 path []
  unfold afterBase
  dsimp only
  split
  · rw [List.length_tail]
    omega
  · exact hbase

theorem afterBase_shorter {ch : UInt8} (path : List UInt8) (hz : ch ≠ 0) (hslash : ch ≠ 0x2f) :
    (afterBase (ch :: path)).length ≤ path.length := by
  by_cases hdot : ch = 0x2e
  · subst hdot
    exact Nat.le_refl _
  · unfold afterBase
    dsimp only
    have hbase := parseField_shorter (fun c => c == 0x2f || c == 0x2e) 8 path [] hz
      (by simp [hslash, hdot])
    split
    · rw [List.length_tail]
      omega
    · exact hbase

/-- A component takes at least one character off the path. -/
theorem parseComponent_length {path : List UInt8} (h : peek path ≠ 0) :
    (parseComponent path).2.length < path.length := by
  have hext : (parseComponent path).2.length
      ≤ (afterBase (path.dropWhile (· == 0x2f))).length := parseField_length _ _ _ _
  cases path with
  | nil => exact absurd rfl h
  | cons ch path =>
      by_cases hslash : ch = 0x2f
      · have hskip : (ch :: path).dropWhile (· == 0x2f) = path.dropWhile (· == 0x2f) := by
          rw [List.dropWhile_cons_of_pos (by simp [hslash])]
        have hdrop : (path.dropWhile (· == 0x2f)).length ≤ path.length :=
          List.Sublist.length_le (List.dropWhile_sublist _)
        have hbase := afterBase_length (path.dropWhile (· == 0x2f))
        rw [hskip] at hext
        rw [List.length_cons]
        omega
      · have hkeep : (ch :: path).dropWhile (· == 0x2f) = ch :: path := by
          rw [List.dropWhile_cons_of_neg (by simp [hslash])]
        have hbase := afterBase_shorter path (show ch ≠ 0 from h) hslash
        rw [hkeep] at hext
        rw [List.length_cons]
        omega

theorem more_eq_true {path : List UInt8} :
    more path = true ↔ peek (parseComponent path).2 ≠ 0 := by
  unfold more
  exact bne_iff_ne

theorem more_eq_false {path : List UInt8} :
    more path = false ↔ peek (parseComponent path).2 = 0 := by
  unfold more
  simp

/-- A component with path text after it matches only what can be entered. -/
theorem enterable_of_entryMatches {name : List UInt8} {dir : Mem UInt8}
    (h : entryMatches name true dir = true) : Enterable dir := by
  simp only [entryMatches, Bool.and_eq_true] at h
  obtain ⟨⟨⟨hlabel, huse⟩, hdir⟩, -⟩ := h
  exact ⟨by simpa using hlabel, by simpa using huse, by simpa using hdir⟩

theorem Directory.lt {v : Volume} {c : Nat} (h : Directory v c) : c < 2 ^ 32 := by
  cases h with
  | root => decide
  | sub _ _ _ => exact dirCluster_lt _ _

theorem MatchAt.directory {v : Volume} {c i : Nat} {name : List UInt8} (hd : Directory v c)
    (h : MatchAt v c name true i) : Directory v (dirCluster v (entry v c i)) :=
  hd.sub h.inDir (enterable_of_entryMatches h.isMatch)

/-! ### What a path names is found -/

theorem getExtentLoop_fatFileSize (v : Volume) :
    ∀ (fuel cluster : Nat) (s : State),
      (getExtentLoop v fuel cluster s).fatFileSize = s.fatFileSize := by
  intro fuel
  induction fuel with
  | zero => intro cluster s; rfl
  | succ fuel ih =>
      intro cluster s
      rw [getExtentLoop]
      dsimp only
      split
      · rfl
      · split
        · rfl
        · exact ih _ _

theorem getExtent_fatFileSize (v : Volume) (c : Nat) (s : State) :
    (getExtent v c s).fatFileSize = s.fatFileSize := by
  by_cases hroot : isRootArea v c
  · rw [getExtent_root s hroot]
  by_cases hval : v.valid (startCluster v c)
  · rw [getExtent_chain s hroot hval, getExtentLoop_fatFileSize]
  · rw [getExtent_invalid s hroot hval]

theorem readExtentLoop_fatFileSize (v : Volume) :
    ∀ (fuel data len : Nat) (m : Mem UInt8) (s : State),
      (readExtentLoop v fuel data len m s).st.fatFileSize = s.fatFileSize := by
  intro fuel
  induction fuel with
  | zero => intro data len m s; rfl
  | succ fuel ih =>
      intro data len m s
      have hrefill : ∀ s', (refill v s').fatFileSize = s'.fatFileSize := by
        intro s'
        unfold refill
        split
        · exact getExtent_fatFileSize _ _ _
        · rfl
      rw [readExtentLoop]
      split
      · rfl
      split
      · rfl
      dsimp only
      split
      · rfl
      · rw [ih, hrefill]
        rfl

/-- The rest of `fat_open` once the last component has been matched by `e`. -/
def opened (v : Volume) (e : Mem UInt8) (s : State) : State :=
  getExtent v (dirCluster v e) { s with fatFileSize := le32 e 0x1c }

section Turns

variable {v : Volume} {fuel n c : Nat} {p : List UInt8} {s s' : State}

theorem fatOpenLoop_succ (v : Volume) (fuel n c : Nat) {p : List UInt8} (s : State)
    (hne : peek p ≠ 0) :
    fatOpenLoop v fuel (n + 1) p c s =
      match scan v (parseComponent p).1 (more p) fuel (getExtent v c s) with
      | none => none
      | some (.returned err, s') => some (err, s')
      | some (.exhausted, s') => fatOpenLoop v fuel n (parseComponent p).2 c s'
      | some (.found dir, s') =>
          if peek (parseComponent p).2 = 0 then
            some (0, getExtent v (dirCluster v dir) { s' with fatFileSize := le32 dir 0x1c })
          else fatOpenLoop v fuel n (parseComponent p).2 (dirCluster v dir) s' := by
  rw [fatOpenLoop, if_neg hne]
  rfl

/-- A zero entry ends the search. -/
theorem fatOpenLoop_returned {err : Int} (hne : peek p ≠ 0)
    (hscan : scan v (parseComponent p).1 (more p) fuel (getExtent v c s)
      = some (.returned err, s')) :
    fatOpenLoop v fuel (n + 1) p c s = some (err, s') := by
  rw [fatOpenLoop_succ v fuel n c s hne, hscan]

/-- At the end of the directory the component is left out. -/
theorem fatOpenLoop_exhausted (hne : peek p ≠ 0)
    (hscan : scan v (parseComponent p).1 (more p) fuel (getExtent v c s)
      = some (.exhausted, s')) :
    fatOpenLoop v fuel (n + 1) p c s = fatOpenLoop v fuel n (parseComponent p).2 c s' := by
  rw [fatOpenLoop_succ v fuel n c s hne, hscan]

theorem fatOpenLoop_last {e : Mem UInt8} (hne : peek p ≠ 0) (hmore : more p = false)
    (hscan : scan v (parseComponent p).1 (more p) fuel (getExtent v c s)
      = some (.found e, s')) :
    fatOpenLoop v fuel (n + 1) p c s = some (0, opened v e s') := by
  rw [fatOpenLoop_succ v fuel n c s hne, hscan]
  exact if_pos (more_eq_false.mp hmore)

theorem fatOpenLoop_sub {e : Mem UInt8} (hne : peek p ≠ 0) (hmore : more p = true)
    (hscan : scan v (parseComponent p).1 (more p) fuel (getExtent v c s)
      = some (.found e, s')) :
    fatOpenLoop v fuel (n + 1) p c s
      = fatOpenLoop v fuel n (parseComponent p).2 (dirCluster v e) s' := by
  rw [fatOpenLoop_succ v fuel n c s hne, hscan]
  exact if_neg (more_eq_true.mp hmore)

/-- What a turn of the loop over the components comes to, if it comes to anything. -/
inductive OpenTurn (v : Volume) (fuel n : Nat) (p : List UInt8) (c : Nat) (s : State) :
    Int × State → Prop
  | ended (hend : peek p = 0) : OpenTurn v fuel n p c s (-1, s)
  | returned {err : Int} {s' : State} (hne : peek p ≠ 0)
      (hscan : scan v (parseComponent p).1 (more p) fuel (getExtent v c s)
        = some (.returned err, s')) : OpenTurn v fuel n p c s (err, s')
  | exhausted {s' : State} {r : Int × State} (hne : peek p ≠ 0)
      (hscan : scan v (parseComponent p).1 (more p) fuel (getExtent v c s)
        = some (.exhausted, s'))
      (hrest : fatOpenLoop v fuel n (parseComponent p).2 c s' = some r) : OpenTurn v fuel n p c s r
  | last {e : Mem UInt8} {s' : State} (hne : peek p ≠ 0) (hmore : more p = false)
      (hscan : scan v (parseComponent p).1 (more p) fuel (getExtent v c s)
        = some (.found e, s')) : OpenTurn v fuel n p c s (0, opened v e s')
  | sub {e : Mem UInt8} {s' : State} {r : Int × State} (hne : peek p ≠ 0) (hmore : more p = true)
      (hscan : scan v (parseComponent p).1 (more p) fuel (getExtent v c s)
        = some (.found e, s'))
      (hrest : fatOpenLoop v fuel n (parseComponent p).2 (dirCluster v e) s' = some r) :
      OpenTurn v fuel n p c s r

theorem fatOpenLoop_turn {r : Int × State} (h : fatOpenLoop v fuel (n + 1) p c s = some r) :
    OpenTurn v fuel n p c s r := by
  by_cases hne : peek p = 0
  · rw [fatOpenLoop, if_pos hne] at h
    obtain rfl := Option.some.inj h
    exact .ended hne
  cases hscan : scan v (parseComponent p).1 (more p) fuel (getExtent v c s) with
  | none =>
      rw [fatOpenLoop_succ v fuel n c s hne, hscan] at h
      simp at h
  | some q =>
      obtain ⟨stop, s'⟩ := q
      cases stop with
      | returned err =>
          rw [fatOpenLoop_returned hne hscan] at h
          obtain rfl := Option.some.inj h
          exact .returned hne hscan
      | exhausted =>
          rw [fatOpenLoop_exhausted hne hscan] at h
          exact .exhausted hne hscan h
      | found e =>
          cases hmore : more p with
          | false =>
              rw [fatOpenLoop_last hne hmore hscan] at h
              obtain rfl := Option.some.inj h
              exact .last hne hmore hscan
          | true =>
              rw [fatOpenLoop_sub hne hmore hscan] at h
              exact .sub hne hmore hscan h

theorem OpenTurn.eq {r : Int × State} (h : OpenTurn v fuel n p c s r) :
    fatOpenLoop v fuel (n + 1) p c s = some r := by
  cases h with
  | ended hend => rw [fatOpenLoop, if_pos hend]
  | returned hne hscan => exact fatOpenLoop_returned hne hscan
  | exhausted hne hscan hrest =>
      rw [fatOpenLoop_exhausted hne hscan]
      exact hrest
  | last hne hmore hscan => exact fatOpenLoop_last hne hmore hscan
  | sub hne hmore hscan hrest =>
      rw [fatOpenLoop_sub hne hmore hscan]
      exact hrest

end Turns

theorem fatOpenLoop_resolves {v : Volume} (hv : PathOK v) (hfull : ∀ k t, v.dev.answer k t = .full)
    {c : Nat} {path : List UInt8} {e : Mem UInt8} (hres : Resolves v c path e) :
    Directory v c → ∀ (n : Nat) (s : State), path.length < n → Coherent v.dev s.cache →
      ∃ N, ∀ fuel ≥ N, ∃ s', fatOpenLoop v fuel n path c s = some (0, opened v e s') ∧
        Coherent v.dev s'.cache := by
  induction hres with
  | @last c i path hne hmore hm =>
      intro hd n s hn hcoh
      obtain ⟨n, rfl⟩ : ∃ k, n = k + 1 := ⟨n - 1, by omega⟩
      refine ⟨i + 1, fun fuel hfuel => ?_⟩
      have hat := getExtent_atEntry hv.toOK hfull hd.lt ((hv.dirs c hd).startOK hv.toOK) hcoh
      obtain ⟨s', hscan, hcoh', -⟩ := scan_found hv hfull hm i 0 fuel _ (by omega) (by omega) hat
      rw [← hmore] at hscan
      exact ⟨s', fatOpenLoop_last hne hmore hscan, hcoh'⟩
  | @sub c i path e hne hmore hm hrest ih =>
      intro hd n s hn hcoh
      obtain ⟨n, rfl⟩ : ∃ k, n = k + 1 := ⟨n - 1, by omega⟩
      have hshort := parseComponent_length hne
      have hat := getExtent_atEntry hv.toOK hfull hd.lt ((hv.dirs c hd).startOK hv.toOK) hcoh
      -- The state the scan leaves does not depend on the fuel it was given, beyond enough.
      obtain ⟨s₁, hscan, hcoh₁, -⟩ := scan_found hv hfull hm i 0 (i + 1) _ (by omega)
        (by omega) hat
      obtain ⟨N, hN⟩ := ih (hm.directory hd) n s₁ (by omega) hcoh₁
      refine ⟨max N (i + 1), fun fuel hfuel => ?_⟩
      obtain ⟨s', hloop, hcoh'⟩ := hN fuel (by omega)
      rw [← hmore] at hscan
      refine ⟨s', ?_, hcoh'⟩
      rw [fatOpenLoop_sub hne hmore (scan_mono hscan (by omega))]
      exact hloop

/--
**`fat_open` finds what is there.**  Opening a path whose components all match returns
zero, takes the size from the last entry, and leaves the extent at the start of what that
entry names: wherever its chain can be read at all, that chain is what remains.
-/
theorem fatOpen_finds {v : Volume} (hv : PathOK v) (hfull : ∀ k t, v.dev.answer k t = .full)
    {path : List UInt8} {e : Mem UInt8} (hres : Resolves v 0 path e) {s : State}
    (hcoh : Coherent v.dev s.cache) :
    ∃ N, ∀ fuel ≥ N, ∃ st, fatOpen v fuel path s = some (0, st) ∧
      st.fatFileSize = le32 e 0x1c ∧
      (∃ s', Coherent v.dev s'.cache ∧ st = getExtent v (dirCluster v e) s') ∧
      (StartOK v (dirCluster v e) →
        Ready v st ∧ remaining v st = startLoc v (dirCluster v e)) := by
  obtain ⟨N, hN⟩ := fatOpenLoop_resolves hv hfull hres .root (path.length + 1) s
    (Nat.lt_succ_self _) hcoh
  refine ⟨N, fun fuel hfuel => ?_⟩
  obtain ⟨s', hloop, hcoh'⟩ := hN fuel hfuel
  refine ⟨_, hloop, getExtent_fatFileSize _ _ _,
    ⟨{ s' with fatFileSize := le32 e 0x1c }, hcoh', rfl⟩, fun hstart => ?_⟩
  obtain ⟨hready, hrem, -⟩ := getExtent_full hv.toOK (dirCluster_lt v e) hstart
    (s := { s' with fatFileSize := le32 e 0x1c }) hcoh' fun k _ _ => hfull k
  exact ⟨hready, hrem⟩

theorem DirOK.of_rootArea {v : Volume} {c : Nat} (hroot : isRootArea v c)
    (hr : v.InRange v.rootOffset (0x20 * v.rootEntries)) : DirOK v c where
  root _ := hr
  fat h := absurd hroot h
  data h := absurd hroot h
  length := by
    refine ⟨0x20 * v.rootEntries, by have := v.rootEntries_lt; omega, fun j => ?_⟩
    unfold startLoc
    rw [if_pos hroot]
    split <;> simp_all

theorem stick_terminated : Terminated stick 0 := ⟨1, by unfold Reaches; decide, by decide +kernel⟩

theorem stick_inDir {i : Nat} (h : InDir stick 0 i) : i = 0 := by
  by_contra hi
  exact (h 1 (by omega)).2 (by decide +kernel)

/-- The file of the stick is no directory, so the root is the only one. -/
theorem stick_directory {c : Nat} (h : Directory stick c) : c = 0 := by
  induction h with
  | root => rfl
  | sub _ hin henter ih =>
      subst ih
      obtain rfl := stick_inDir hin
      exact absurd (by decide +kernel) henter.isDir

theorem stick_pathOK : PathOK stick where
  toOK := stick_ok
  sectors := by decide
  dirs c hd := by
    obtain rfl := stick_directory hd
    exact DirOK.of_rootArea (by decide) (by unfold Volume.InRange; decide)

theorem stick_resolves : Resolves stick 0 xenonPath (entry stick 0 0) := by
  refine .last (by decide) (by decide) ⟨fun k hk => ?_, by decide +kernel, by omega⟩
  obtain rfl : k = 0 := by omega
  exact ⟨by unfold Reaches; decide, by decide +kernel⟩

theorem stick_fatOpen_finds :
    ∃ N, ∀ fuel ≥ N, ∃ st, fatOpen stick fuel xenonPath State.fresh = some (0, st) ∧
      st.fatFileSize = 600 ∧ remaining stick st = chainLoc stick 2 := by
  obtain ⟨N, hN⟩ := fatOpen_finds stick_pathOK (fun _ _ => rfl) stick_resolves
    (State.fresh_coherent stick.dev)
  refine ⟨N, fun fuel hfuel => ?_⟩
  obtain ⟨st, hopen, hsize, -, hrest⟩ := hN fuel hfuel
  have hcluster : dirCluster stick (entry stick 0 0) = 2 := by decide +kernel
  have hsize600 : le32 (entry stick 0 0) 0x1c = 600 := by decide +kernel
  rw [hcluster] at hrest
  refine ⟨st, hopen, hsize.trans hsize600, ?_⟩
  exact (hrest (stick_chainOK (by decide))).2

/-! ### What is found is not always what the path names -/

/--
What the component loop accepts.  The flag tells whether a component was skipped: one that
is missing from a directory without a zero entry is left out, and the next one is looked up
in the same directory.
-/
inductive ResolvesSkipping (v : Volume) : Nat → List UInt8 → Bool → Prop
  | last {c i : Nat} {path : List UInt8} (hne : peek path ≠ 0) (hmore : more path = false)
      (h : MatchAt v c (parseComponent path).1 false i) : ResolvesSkipping v c path false
  | sub {c i : Nat} {path : List UInt8} {b : Bool} (hne : peek path ≠ 0)
      (hmore : more path = true) (h : MatchAt v c (parseComponent path).1 true i)
      (hrest : ResolvesSkipping v (dirCluster v (entry v c i)) (parseComponent path).2 b) :
      ResolvesSkipping v c path b
  | skip {c : Nat} {path : List UInt8} {b : Bool} (hne : peek path ≠ 0)
      (hmiss : Missing v c (parseComponent path).1 (more path)) (hterm : ¬ Terminated v c)
      (hrest : ResolvesSkipping v c (parseComponent path).2 b) : ResolvesSkipping v c path true

theorem MatchAt.not_missing {v : Volume} {c i : Nat} {name : List UInt8} {m : Bool}
    (h : MatchAt v c name m i) : ¬ Missing v c name m := by
  intro hmiss
  have := hmiss i h.inDir
  rw [h.isMatch] at this
  simp at this

theorem MatchAt.unique {v : Volume} {c i j : Nat} {name : List UInt8} {m : Bool}
    (hi : MatchAt v c name m i) (hj : MatchAt v c name m j) : i = j := by
  rcases Nat.lt_trichotomy i j with hlt | heq | hgt
  · have := hj.first i hlt
    rw [hi.isMatch] at this
    simp at this
  · exact heq
  · have := hi.first j hgt
    rw [hj.isMatch] at this
    simp at this

theorem MatchAt.exists_of_not_missing {v : Volume} {c : Nat} {name : List UInt8} {m : Bool}
    (h : ¬ Missing v c name m) : ∃ i, MatchAt v c name m i := by
  classical
  have hex : ∃ i, InDir v c i ∧ entryMatches name m (entry v c i) = true := by
    unfold Missing at h
    push Not at h
    obtain ⟨i, hin, hmatch⟩ := h
    exact ⟨i, hin, by simpa using hmatch⟩
  obtain ⟨hin, hmatch⟩ := Nat.find_spec hex
  refine ⟨Nat.find hex, hin, hmatch, fun k hk => ?_⟩
  have hno := Nat.find_min hex hk
  have hkin : InDir v c k := fun j hj => hin j (by omega)
  by_contra hyes
  exact hno ⟨hkin, by simpa using hyes⟩

theorem ResolvesSkipping.peek_ne {v : Volume} {c : Nat} {path : List UInt8} {b : Bool}
    (h : ResolvesSkipping v c path b) : peek path ≠ 0 := by
  cases h with
  | last hne _ _ => exact hne
  | sub hne _ _ _ => exact hne
  | skip hne _ _ _ => exact hne

/-- What becomes of a path whose first component is missing. -/
theorem ResolvesSkipping.missing {v : Volume} {c : Nat} {path : List UInt8} {b : Bool}
    (h : ResolvesSkipping v c path b) (hmiss : Missing v c (parseComponent path).1 (more path)) :
    ¬ Terminated v c ∧ ∃ b', ResolvesSkipping v c (parseComponent path).2 b' := by
  cases h with
  | last _ hmore hm =>
      rw [hmore] at hmiss
      exact absurd hmiss hm.not_missing
  | sub _ hmore hm _ =>
      rw [hmore] at hmiss
      exact absurd hmiss hm.not_missing
  | skip _ _ hterm hrest => exact ⟨hterm, _, hrest⟩

/-- What becomes of a path whose first component is a directory. -/
theorem ResolvesSkipping.matched {v : Volume} {c i : Nat} {path : List UInt8} {b : Bool}
    (h : ResolvesSkipping v c path b) (hmore : more path = true)
    (hm : MatchAt v c (parseComponent path).1 true i) :
    ResolvesSkipping v (dirCluster v (entry v c i)) (parseComponent path).2 b := by
  cases h with
  | last _ hmore' _ =>
      rw [hmore] at hmore'
      simp at hmore'
  | sub _ _ hm' hrest =>
      obtain rfl := hm.unique hm'
      exact hrest
  | skip _ hmiss _ _ =>
      rw [hmore] at hmiss
      exact absurd hmiss hm.not_missing

/-- A path resolves in one way only. -/
theorem ResolvesSkipping.unique {v : Volume} {c : Nat} {path : List UInt8} {b : Bool}
    (h : ResolvesSkipping v c path b) :
    ∀ {b' : Bool}, ResolvesSkipping v c path b' → b = b' := by
  induction h with
  | last hne hmore hm =>
      intro b' h'
      cases h' with
      | last _ _ _ => rfl
      | sub _ hmore' _ _ => rw [hmore] at hmore'; simp at hmore'
      | skip _ hmiss _ _ => rw [hmore] at hmiss; exact absurd hmiss hm.not_missing
  | sub hne hmore hm _ ih =>
      intro b' h'
      cases h' with
      | last _ hmore' _ => rw [hmore] at hmore'; simp at hmore'
      | sub _ _ hm' hrest' =>
          obtain rfl := hm.unique hm'
          exact ih hrest'
      | skip _ hmiss _ _ => rw [hmore] at hmiss; exact absurd hmiss hm.not_missing
  | skip hne hmiss hterm _ ih =>
      intro b' h'
      cases h' with
      | last _ hmore' hm' => rw [hmore'] at hmiss; exact absurd hmiss hm'.not_missing
      | sub _ hmore' hm' _ => rw [hmore'] at hmiss; exact absurd hmiss hm'.not_missing
      | skip _ _ _ _ => rfl

/-- Resolving without skipping is resolving. -/
theorem resolves_iff {v : Volume} {c : Nat} {path : List UInt8} :
    (∃ e, Resolves v c path e) ↔ ResolvesSkipping v c path false := by
  constructor
  · rintro ⟨e, h⟩
    induction h with
    | last hne hmore hm => exact .last hne hmore hm
    | sub hne hmore hm _ ih => exact .sub hne hmore hm ih
  · intro h
    generalize hb : false = b at h
    induction h with
    | last hne hmore hm => exact ⟨_, .last hne hmore hm⟩
    | sub hne hmore hm _ ih =>
        obtain ⟨e, he⟩ := ih hb
        exact ⟨e, .sub hne hmore hm he⟩
    | skip _ _ _ _ _ => simp at hb

/-- **What `fat_open` returns**, on every volume with finite directories. -/
theorem fatOpenLoop_returns {v : Volume} (hv : PathOK v) (hfull : ∀ k t, v.dev.answer k t = .full) :
    ∀ (n : Nat) (path : List UInt8) (c : Nat) (s : State), path.length < n → Directory v c →
      Coherent v.dev s.cache →
      ∃ N, ∀ fuel ≥ N, ∃ err st, fatOpenLoop v fuel n path c s = some (err, st) ∧
        (err = 0 ↔ ∃ b, ResolvesSkipping v c path b) ∧
        (err ≠ 0 → Coherent v.dev st.cache) := by
  intro n
  induction n with
  | zero => intro path c s hn; omega
  | succ n ih =>
      intro path c s hn hd hcoh
      by_cases hne : peek path = 0
      · refine ⟨0, fun fuel _ => ⟨-1, s, ?_, ?_, fun _ => hcoh⟩⟩
        · rw [fatOpenLoop, if_pos hne]
        · simp only [Int.reduceNeg, Int.reduceEq, false_iff, not_exists]
          exact fun b h => h.peek_ne hne
      have hshort := parseComponent_length hne
      have hok := (hv.dirs c hd).startOK hv.toOK
      have hat := getExtent_atEntry hv.toOK hfull hd.lt hok hcoh
      by_cases hmiss : Missing v c (parseComponent path).1 (more path)
      · obtain ⟨L, -, hsome⟩ := (hv.dirs c hd).length
        have hover : ¬ Reaches v c (L + 1) := fun hr => by
          have := (hsome _).mp hr
          omega
        obtain ⟨r, s₁, hscan, ⟨hcoh₁, -⟩, hend⟩ := scan_missing hv hfull hmiss hover (L + 1) 0
          (L + 2) _ (by omega) (by omega) hat (fun k hk => absurd hk (Nat.not_lt_zero k))
        rcases hend with ⟨hterm, rfl⟩ | ⟨hterm, rfl⟩
        · refine ⟨L + 2, fun fuel hfuel => ⟨-1, s₁, ?_, ?_, fun _ => hcoh₁⟩⟩
          · exact fatOpenLoop_returned hne (scan_mono hscan hfuel)
          · simp only [Int.reduceNeg, Int.reduceEq, false_iff, not_exists]
            exact fun b h => (h.missing hmiss).1 hterm
        · obtain ⟨N, hN⟩ := ih (parseComponent path).2 c s₁ (by omega) hd hcoh₁
          refine ⟨max N (L + 2), fun fuel hfuel => ?_⟩
          obtain ⟨err, st, hloop, hiff, hcoh₂⟩ := hN fuel (by omega)
          refine ⟨err, st, ?_, hiff.trans ⟨?_, ?_⟩, hcoh₂⟩
          · rw [fatOpenLoop_exhausted hne (scan_mono hscan (by omega))]
            exact hloop
          · rintro ⟨b, h⟩
            exact ⟨true, .skip hne hmiss hterm h⟩
          · rintro ⟨b, h⟩
            exact (h.missing hmiss).2
      · obtain ⟨i, hm⟩ := MatchAt.exists_of_not_missing hmiss
        obtain ⟨s₁, hscan, hcoh₁, -⟩ := scan_found hv hfull hm i 0 (i + 1) _ (by omega)
          (by omega) hat
        cases hmore : more path with
        | false =>
            refine ⟨i + 1, fun fuel hfuel => ⟨0, opened v (entry v c i) s₁, ?_, ?_,
              fun h => absurd rfl h⟩⟩
            · exact fatOpenLoop_last hne hmore (scan_mono hscan hfuel)
            · simp only [true_iff]
              rw [hmore] at hm
              exact ⟨false, .last hne hmore hm⟩
        | true =>
            have hm' : MatchAt v c (parseComponent path).1 true i := hmore ▸ hm
            obtain ⟨N, hN⟩ := ih (parseComponent path).2 _ s₁ (by omega) (hm'.directory hd) hcoh₁
            refine ⟨max N (i + 1), fun fuel hfuel => ?_⟩
            obtain ⟨err, st, hloop, hiff, hcoh₂⟩ := hN fuel (by omega)
            refine ⟨err, st, ?_, hiff.trans ⟨?_, ?_⟩, hcoh₂⟩
            · rw [fatOpenLoop_sub hne hmore (scan_mono hscan (by omega))]
              exact hloop
            · rintro ⟨b, h⟩
              exact ⟨b, .sub hne hmore hm' h⟩
            · rintro ⟨b, h⟩
              exact ⟨b, h.matched hmore hm'⟩

/-- `fat_open` returns, and returns zero only for a path whose components all match. -/
def OpensOnlyNamed (v : Volume) (path : List UInt8) (s : State) : Prop :=
  ∃ N, ∀ fuel ≥ N, ∃ err st, fatOpen v fuel path s = some (err, st) ∧
    (err = 0 → ∃ e, Resolves v 0 path e)

/--
**When `fat_open` opens only what the path names**: exactly when the path does not resolve
by leaving out a component that is missing from a directory without a zero entry.
-/
theorem fatOpen_named_iff {v : Volume} (hv : PathOK v) (hfull : ∀ k t, v.dev.answer k t = .full)
    (path : List UInt8) {s : State} (hcoh : Coherent v.dev s.cache) :
    OpensOnlyNamed v path s ↔ ¬ ResolvesSkipping v 0 path true := by
  obtain ⟨N, hN⟩ := fatOpenLoop_returns hv hfull (path.length + 1) path 0 s
    (Nat.lt_succ_self _) .root hcoh
  constructor
  · rintro ⟨N', hN'⟩ hskip
    obtain ⟨err, st, hloop, hiff, -⟩ := hN (max N N') (by omega)
    obtain ⟨err', st', hloop', hnamed⟩ := hN' (max N N') (by omega)
    have hsame : (err', st') = (err, st) := Option.some.inj (hloop'.symm.trans hloop)
    have herr : err' = 0 := by
      rw [(Prod.mk.inj hsame).1]
      exact hiff.mpr ⟨true, hskip⟩
    have hclean := resolves_iff.mp (hnamed herr)
    exact absurd (hskip.unique hclean) (by decide)
  · intro hno
    refine ⟨N, fun fuel hfuel => ?_⟩
    obtain ⟨err, st, hloop, hiff, -⟩ := hN fuel hfuel
    refine ⟨err, st, hloop, fun herr => ?_⟩
    obtain ⟨b, hb⟩ := hiff.mp herr
    cases b with
    | false => exact resolves_iff.mpr hb
    | true => exact absurd hb hno

theorem stick_fatOpen_named : OpensOnlyNamed stick xenonPath State.fresh := by
  refine (fatOpen_named_iff stick_pathOK (fun _ _ => rfl) xenonPath
    (State.fresh_coherent stick.dev)).mpr fun h => ?_
  cases h with
  | sub _ hmore _ _ => exact absurd hmore (by decide)
  | skip _ _ hterm _ => exact hterm stick_terminated

/-- The stick with a full root directory: sixteen files in use, and no zero entry. -/
def fullStick : Volume :=
  { stick with
    dev := { stickDev with
      disk := fun a =>
        if 0x400 ≤ a ∧ a < 0x600 then
          (if a < 0x420 then dirEntry xenonElf 0x20 2 600
            else dirEntry (UInt8.ofNat (0x41 + (a - 0x420) / 0x20) :: List.replicate 10 0x20)
              0x20 0 0).getD ((a - 0x400) % 0x20) 0
        else stickDisk a } }

/-- The path `missing/xenon.elf`. -/
def missingPath : List UInt8 := [0x6d, 0x69, 0x73, 0x73, 0x69, 0x6e, 0x67, 0x2f] ++ xenonPath

/-- A file of the full root directory is opened under a directory that does not exist. -/
theorem fullStick_opens_missing :
    (fatOpen fullStick 40 missingPath State.fresh).map Prod.fst = some 0 ∧
      ¬ ∃ e, Resolves fullStick 0 missingPath e := by
  refine ⟨by decide +kernel, ?_⟩
  rintro ⟨e, h⟩
  have hno : ∀ i < 16, entryMatches (parseComponent missingPath).1 true (entry fullStick 0 i)
      = false := by decide +kernel
  have hover : ∀ {i : Nat}, InDir fullStick 0 i → i < 16 := by
    intro i hin
    have hr := (hin i (Nat.le_refl i)).1
    unfold Reaches startLoc at hr
    rw [if_pos (by decide)] at hr
    by_contra hi
    have hnot : ¬ 0x20 * i < 0x20 * fullStick.rootEntries := by
      show ¬ 0x20 * i < 0x20 * 16
      omega
    rw [if_neg hnot] at hr
    simp at hr
  cases h with
  | last _ hmore _ => exact absurd hmore (by decide)
  | sub _ _ hm _ =>
      have hmatch := hm.isMatch
      rw [hno _ (hover hm.inDir)] at hmatch
      simp at hmatch

end Xell.Fat
