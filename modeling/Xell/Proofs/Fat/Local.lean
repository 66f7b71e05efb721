/-
What a run depends on.

A run of the reader depends on how the device answers the reads the run makes, and on no
other answers.  So a run during which the device does not fail is the run on the same
volume with a device that never fails, `Volume.reliable`, and what is known of such
volumes carries over.

The second half counts.  `neededExtent` is the number of the device read after which the
first `p` bytes of a `read_extent` are in place; whatever the device answers from there
on, they stay.
-/
import Xell.Proofs.Fat.Path
import Xell.Proofs.Fat.Reported

namespace Xell.Fat

/-- The volume, on a device that answers otherwise. -/
def Volume.withAnswers (v : Volume) (a : Nat → Target → Answer) : Volume :=
  { v with dev := { v.dev with answer := a } }

/-- The volume, on a device that never fails. -/
def Volume.reliable (v : Volume) : Volume := v.withAnswers fun _ _ => .full

/-- The answers `a` are the device's own for the reads from `lo` to `hi`. -/
def Agrees (v : Volume) (a : Nat → Target → Answer) (lo hi : Nat) : Prop :=
  ∀ k, lo ≤ k → k < hi → a k = v.dev.answer k

theorem Agrees.mono {v : Volume} {a : Nat → Target → Answer} {lo hi lo' hi' : Nat}
    (h : Agrees v a lo hi) (hlo : lo ≤ lo') (hhi : hi' ≤ hi) : Agrees v a lo' hi' :=
  fun k hk hk' => h k (Nat.le_trans hlo hk) (Nat.lt_of_lt_of_le hk' hhi)

/-- Reads answered in full are answered as on the reliable device. -/
theorem Full.agrees {v : Volume} {lo hi : Nat} (h : Full v.dev lo hi) :
    Agrees v (fun _ _ => .full) lo hi := by
  intro k hk hk'
  funext t
  exact (h k hk hk' t).symm

theorem Full.agrees_reliable {v : Volume} {lo hi : Nat} (h : Full v.dev lo hi) :
    Agrees v.reliable v.dev.answer lo hi := by
  intro k hk hk'
  funext t
  exact h k hk hk' t

section Local

variable {v : Volume} {a : Nat → Target → Answer}

theorem Bdev.read_local {k lba num : Nat} {t : Target} (h : a k = v.dev.answer k) :
    (v.withAnswers a).dev.read k t lba num = v.dev.read k t lba num := by
  have hanswer : (v.withAnswers a).dev.answer k = v.dev.answer k := h
  unfold Bdev.read
  rw [hanswer]
  rfl

theorem rawRead_local {sector : Nat} {c : Cache}
    (h : Agrees v a c.calls (rawRead v sector c).2.calls) :
    rawRead (v.withAnswers a) sector c = rawRead v sector c := by
  by_cases hhit : c.current = sector
  · rw [rawRead_hit hhit, rawRead_hit hhit]
  · rw [rawRead_miss hhit] at h
    rw [rawRead_miss hhit, rawRead_miss hhit,
      Bdev.read_local (h c.calls (Nat.le_refl _) (Nat.lt_succ_self _))]

theorem readLoop_local :
    ∀ (fuel data offset len : Nat) (m : Mem UInt8) (c : Cache),
      Agrees v a c.calls (readLoop v fuel data offset len m c).cache.calls →
      readLoop (v.withAnswers a) fuel data offset len m c = readLoop v fuel data offset len m c := by
  intro fuel
  induction fuel with
  | zero => intro data offset len m c _; rfl
  | succ fuel ih =>
      intro data offset len m c h
      by_cases hlen : len = 0
      · subst hlen
        rw [readLoop_zero, readLoop_zero]
      by_cases ha : aligned v data offset len
      · have ha' : aligned (v.withAnswers a) data offset len := ha
        rw [readLoop_direct fuel m c ha] at h ⊢
        rw [readLoop_direct fuel m c ha']
        dsimp only at h ⊢
        have hcall : a c.calls = v.dev.answer c.calls := by
          refine h c.calls (Nat.le_refl _) ?_
          split
          · exact Nat.lt_succ_self _
          · exact readLoop_calls_le v fuel _ _ _ _ { c with calls := c.calls + 1 }
        rw [Bdev.read_local hcall]
        split
        · rfl
        · rename_i hgo
          rw [if_neg hgo] at h
          exact ih _ _ _ _ _ (h.mono (Nat.le_succ _) (Nat.le_refl _))
      · have ha' : ¬ aligned (v.withAnswers a) data offset len := ha
        rw [readLoop_cached fuel m c hlen ha] at h ⊢
        rw [readLoop_cached fuel m c hlen ha']
        dsimp only at h ⊢
        have hraw : Agrees v a c.calls (rawRead v (u32 (offset / 0x200)) c).2.calls := by
          refine h.mono (Nat.le_refl _) ?_
          split
          · exact Nat.le_refl _
          · exact readLoop_calls_le _ _ _ _ _ _ _
        rw [rawRead_local hraw]
        split
        · rfl
        · rename_i hgo
          rw [if_neg hgo] at h
          exact ih _ _ _ _ _ (h.mono (rawRead_calls_le _ _ _) (Nat.le_refl _))

theorem read_local {data offset len : Nat} {m : Mem UInt8} {c : Cache}
    (h : Agrees v a c.calls (read v data offset len m c).cache.calls) :
    read (v.withAnswers a) data offset len m c = read v data offset len m c :=
  readLoop_local len data (u64 (offset + v.partitionStartOffset)) len m c h

theorem getFat_local {cluster : Nat} {c : Cache}
    (h : Agrees v a c.calls (getFat v cluster c).2.calls) :
    getFat (v.withAnswers a) cluster c = getFat v cluster c := by
  rw [getFat_cache] at h
  exact congrArg (fun r : ReadRes => if r.err ≠ 0 then (0, r.cache) else
    ((le32 r.mem 0 >>> (v.entryBits cluster % 8)) &&& fatMask v.fatType &&& 0x0fffffff, r.cache))
    (read_local h)

theorem getExtentLoop_local :
    ∀ (fuel cluster : Nat) (s : State),
      Agrees v a s.cache.calls (getExtentLoop v fuel cluster s).cache.calls →
      getExtentLoop (v.withAnswers a) fuel cluster s = getExtentLoop v fuel cluster s := by
  intro fuel
  induction fuel with
  | zero => intro cluster s _; rfl
  | succ fuel ih =>
      intro cluster s h
      have hgle := getFat_calls_le_loop v fuel cluster s
      have hfat := getFat_local (h.mono (Nat.le_refl _) hgle)
      rw [getExtentLoop] at h ⊢
      rw [getExtentLoop]
      dsimp only at h ⊢
      rw [hfat]
      show (if v.clusters ≤ sub32 (getFat v cluster s.cache).1 2 then _ else _) = _
      split
      · rfl
      rename_i hval
      rw [if_neg hval] at h
      split
      · rfl
      rename_i hrun
      rw [if_neg hrun] at h
      exact ih _ { s with
        extentLen := u32 (s.extentLen + v.bytesPerCluster)
        cache := (getFat v cluster s.cache).2 } (h.mono (getFat_calls_le _ _ _) (Nat.le_refl _))

theorem getExtent_local {cluster : Nat} {s : State}
    (h : Agrees v a s.cache.calls (getExtent v cluster s).cache.calls) :
    getExtent (v.withAnswers a) cluster s = getExtent v cluster s := by
  by_cases hroot : isRootArea v cluster
  · have hroot' : isRootArea (v.withAnswers a) cluster := hroot
    rw [getExtent_root s hroot, getExtent_root s hroot']
    rfl
  have hroot' : ¬ isRootArea (v.withAnswers a) cluster := hroot
  by_cases hval : v.valid (startCluster v cluster)
  · have hval' : (v.withAnswers a).valid (startCluster (v.withAnswers a) cluster) := hval
    rw [getExtent_chain s hroot hval] at h ⊢
    rw [getExtent_chain s hroot' hval']
    exact getExtentLoop_local v.clusters (startCluster v cluster) { s with
      extentOffset := u64 (v.clusterOffset (startCluster v cluster))
      extentLen := 0
      extentNextCluster := 0 } h
  · have hval' : ¬ (v.withAnswers a).valid (startCluster (v.withAnswers a) cluster) := hval
    rw [getExtent_invalid s hroot hval, getExtent_invalid s hroot' hval']

theorem refill_local {s : State} (h : Agrees v a s.cache.calls (refill v s).cache.calls) :
    refill (v.withAnswers a) s = refill v s := by
  unfold refill at h ⊢
  split
  · rename_i hcond
    rw [if_pos hcond] at h
    exact getExtent_local h
  · rfl

theorem readExtentLoop_local :
    ∀ (fuel data len : Nat) (m : Mem UInt8) (s : State),
      Agrees v a s.cache.calls (readExtentLoop v fuel data len m s).st.cache.calls →
      readExtentLoop (v.withAnswers a) fuel data len m s = readExtentLoop v fuel data len m s := by
  intro fuel
  induction fuel with
  | zero => intro data len m s _; rfl
  | succ fuel ih =>
      intro data len m s h
      by_cases hlen : len = 0
      · rw [readExtentLoop, readExtentLoop, if_pos hlen, if_pos hlen]
      by_cases hext : s.extentLen = 0
      · rw [readExtentLoop, readExtentLoop, if_neg hlen, if_neg hlen, if_pos hext, if_pos hext]
      obtain ⟨n, hn⟩ : ∃ n, n = min len s.extentLen := ⟨_, rfl⟩
      have hread : read (v.withAnswers a) data s.extentOffset n m s.cache
          = read v data s.extentOffset n m s.cache :=
        read_local (h.mono (Nat.le_refl _) (read_calls_le_loop fuel data m hlen hext hn))
      rw [readExtentLoop_piece fuel data m hlen hext hn] at h ⊢
      rw [readExtentLoop_piece fuel data m hlen hext hn, hread]
      dsimp only at h ⊢
      split
      · rfl
      rename_i hgo
      rw [if_neg hgo] at h
      have hcalls := read_calls_le v data s.extentOffset n m s.cache
      have hrefill := refill_local
        (s := s.advance n (read v data s.extentOffset n m s.cache).cache)
        (h.mono hcalls (readExtentLoop_calls_le _ _ _ _ _ _))
      rw [hrefill]
      exact ih _ _ _ _ (h.mono (Nat.le_trans hcalls (refill_calls_le v (s.advance _ _)))
        (Nat.le_refl _))

theorem readExtent_local {data len : Nat} {m : Mem UInt8} {s : State}
    (h : Agrees v a s.cache.calls (readExtent v data len m s).st.cache.calls) :
    readExtent (v.withAnswers a) data len m s = readExtent v data len m s :=
  readExtentLoop_local len data len m s h

theorem scan_calls_le {name : List UInt8} {b : Bool} :
    ∀ {fuel : Nat} {s : State} {r : ScanEnd × State}, scan v name b fuel s = some r →
      s.cache.calls ≤ r.2.cache.calls := by
  intro fuel
  induction fuel with
  | zero => intro s r h; simp [scan] at h
  | succ fuel ih =>
      intro s r h
      have hread := nextEntry_calls_le v s
      by_cases hext : s.extentLen = 0
      · rw [scan, if_pos hext] at h
        obtain rfl := Option.some.inj h
        exact Nat.le_refl _
      rw [scan_succ _ hext] at h
      cases hend : endsAt name b (nextEntry v s) with
      | some e =>
          rw [hend] at h
          obtain rfl := Option.some.inj h
          exact hread
      | none =>
          rw [hend] at h
          exact Nat.le_trans hread (ih h)

theorem scan_local {name : List UInt8} {b : Bool} :
    ∀ {fuel : Nat} {s : State} {r : ScanEnd × State}, scan v name b fuel s = some r →
      Agrees v a s.cache.calls r.2.cache.calls →
      scan (v.withAnswers a) name b fuel s = some r := by
  intro fuel
  induction fuel with
  | zero => intro s r h _; simp [scan] at h
  | succ fuel ih =>
      intro s r h hag
      by_cases hext : s.extentLen = 0
      · rw [scan, if_pos hext] at h ⊢
        exact h
      rw [scan_succ _ hext] at h ⊢
      have hnext : (nextEntry v s).st.cache.calls ≤ r.2.cache.calls →
          nextEntry (v.withAnswers a) s = nextEntry v s :=
        fun hle => readExtent_local (hag.mono (Nat.le_refl _) hle)
      cases hend : endsAt name b (nextEntry v s) with
      | some e =>
          rw [hend] at h
          obtain rfl := Option.some.inj h
          rw [hnext (Nat.le_refl _), hend]
          rfl
      | none =>
          rw [hend] at h
          rw [hnext (scan_calls_le h), hend]
          exact ih h (hag.mono (nextEntry_calls_le v s) (Nat.le_refl _))

theorem opened_calls_le (v : Volume) (e : Mem UInt8) (s : State) :
    s.cache.calls ≤ (opened v e s).cache.calls :=
  getExtent_calls_le v _ { s with fatFileSize := le32 e 0x1c }

theorem fatOpenLoop_calls_le {fuel : Nat} :
    ∀ {n : Nat} {name : List UInt8} {cluster : Nat} {s : State} {r : Int × State},
      fatOpenLoop v fuel n name cluster s = some r → s.cache.calls ≤ r.2.cache.calls := by
  intro n
  induction n with
  | zero => intro name cluster s r h; simp [fatOpenLoop] at h
  | succ n ih =>
      intro name cluster s r h
      have hget := getExtent_calls_le v cluster s
      cases fatOpenLoop_turn h with
      | ended _ => exact Nat.le_refl _
      | returned _ hscan => exact Nat.le_trans hget (scan_calls_le hscan)
      | exhausted _ hscan hrest =>
          exact Nat.le_trans hget (Nat.le_trans (scan_calls_le hscan) (ih hrest))
      | last _ _ hscan =>
          exact Nat.le_trans hget (Nat.le_trans (scan_calls_le hscan) (opened_calls_le v _ _))
      | sub _ _ hscan hrest =>
          exact Nat.le_trans hget (Nat.le_trans (scan_calls_le hscan) (ih hrest))

/-- The scan of a directory from its start. -/
theorem scan_start_local {name : List UInt8} {more : Bool} {fuel cluster last : Nat}
    {stop : ScanEnd} {s s' : State}
    (h : scan v name more fuel (getExtent v cluster s) = some (stop, s'))
    (hlast : s'.cache.calls ≤ last) (hag : Agrees v a s.cache.calls last) :
    scan (v.withAnswers a) name more fuel (getExtent (v.withAnswers a) cluster s)
        = some (stop, s') ∧
      Agrees v a s'.cache.calls last := by
  have hget := getExtent_calls_le v cluster s
  have hmid : (getExtent v cluster s).cache.calls ≤ s'.cache.calls := scan_calls_le h
  rw [getExtent_local (hag.mono (Nat.le_refl _) (Nat.le_trans hmid hlast)),
    scan_local h (hag.mono hget hlast)]
  exact ⟨rfl, hag.mono (Nat.le_trans hget hmid) (Nat.le_refl _)⟩

theorem fatOpenLoop_local {fuel : Nat} :
    ∀ {n : Nat} {name : List UInt8} {cluster : Nat} {s : State} {r : Int × State},
      fatOpenLoop v fuel n name cluster s = some r →
      Agrees v a s.cache.calls r.2.cache.calls →
      fatOpenLoop (v.withAnswers a) fuel n name cluster s = some r := by
  intro n
  induction n with
  | zero => intro name cluster s r h _; simp [fatOpenLoop] at h
  | succ n ih =>
      intro name cluster s r h hag
      cases fatOpenLoop_turn h with
      | ended hend => exact OpenTurn.eq (.ended hend)
      | returned hne hscan =>
          exact OpenTurn.eq (.returned hne (scan_start_local hscan (Nat.le_refl _) hag).1)
      | exhausted hne hscan hrest =>
          obtain ⟨hscan', hag'⟩ := scan_start_local hscan (fatOpenLoop_calls_le hrest) hag
          exact OpenTurn.eq (.exhausted hne hscan' (ih hrest hag'))
      | @last e s' hne hmore hscan =>
          obtain ⟨hscan', hag'⟩ := scan_start_local hscan (opened_calls_le v e s') hag
          have hopen : opened (v.withAnswers a) e s' = opened v e s' := getExtent_local hag'
          rw [← hopen]
          exact OpenTurn.eq (.last hne hmore hscan')
      | sub hne hmore hscan hrest =>
          obtain ⟨hscan', hag'⟩ := scan_start_local hscan (fatOpenLoop_calls_le hrest) hag
          exact OpenTurn.eq (.sub hne hmore hscan' (ih hrest hag'))

theorem fatOpen_local {fuel : Nat} {name : List UInt8} {s : State} {r : Int × State}
    (h : fatOpen v fuel name s = some r) (hag : Agrees v a s.cache.calls r.2.cache.calls) :
    fatOpen (v.withAnswers a) fuel name s = some r :=
  fatOpenLoop_local h hag

end Local

/-! ### How many reads the first bytes take -/

/-- How many requests `read` makes until the first `p` bytes are in place. -/
def neededLoop (v : Volume) : Nat → Nat → Nat → Nat → Nat → Nat → Nat
  | 0, _, _, _, _, _ => 0
  | fuel + 1, data, offset, len, current, p =>
      if p = 0 then 0
      else if aligned v data offset len then
        1 + neededLoop v fuel (data + directLen len) (offset + directLen len)
          (len - directLen len) current (p - directLen len)
      else
        (if current = offset / 0x200 then 0 else 1) +
          neededLoop v fuel (data + cachedLen offset len) (offset + cachedLen offset len)
            (len - cachedLen offset len) (offset / 0x200) (p - cachedLen offset len)

def needed (v : Volume) (data offset len current p : Nat) : Nat :=
  neededLoop v len data (offset + v.partitionStartOffset) len current p

/-- The number of the device read after which `read_extent` has its first `p` bytes. -/
def neededExtent (v : Volume) : Nat → Nat → Nat → Mem UInt8 → State → Nat → Nat
  | 0, _, _, _, s, _ => s.cache.calls
  | fuel + 1, data, len, m, s, p =>
      let n := min len s.extentLen
      if p ≤ n then s.cache.calls + needed v data s.extentOffset n s.cache.current p
      else
        let r := read v data s.extentOffset n m s.cache
        neededExtent v fuel (data + n) (len - n) r.mem (refill v (s.advance n r.cache)) (p - n)

theorem needed_reliable (v : Volume) (data offset len current p : Nat) :
    needed v.reliable data offset len current p = needed v data offset len current p := by
  have hloop : ∀ (fuel data offset len current p : Nat),
      neededLoop v.reliable fuel data offset len current p
        = neededLoop v fuel data offset len current p := by
    intro fuel
    induction fuel with
    | zero => intro data offset len current p; rfl
    | succ fuel ih =>
        intro data offset len current p
        rw [neededLoop, neededLoop]
        simp only [ih]
        rfl
  exact hloop _ _ _ _ _ _

theorem neededExtent_calls_le (v : Volume) :
    ∀ (fuel data len : Nat) (m : Mem UInt8) (s : State) (p : Nat),
      s.cache.calls ≤ neededExtent v fuel data len m s p := by
  intro fuel
  induction fuel with
  | zero => intro data len m s p; exact Nat.le_refl _
  | succ fuel ih =>
      intro data len m s p
      rw [neededExtent]
      dsimp only
      split
      · exact Nat.le_add_right _ _
      · exact Nat.le_trans (read_calls_le _ _ _ _ _ _)
          (Nat.le_trans (refill_calls_le v (s.advance _ _)) (ih _ _ _ _ _))

/-- Behind a piece of `n` bytes that is right, the first `p` are if those of the rest are. -/
theorem readLoop_prefix_piece {v : Volume} {fuel data offset len n p : Nat} {m : Mem UInt8}
    {c : Cache}
    (hrest : ∀ i < p - n, (readLoop v fuel (data + n) (offset + n) (len - n)
      (m.store data n fun i => v.dev.disk (offset + i)) c).mem (data + n + i)
        = v.dev.disk (offset + n + i)) {i : Nat} (hi : i < p) :
    (readLoop v fuel (data + n) (offset + n) (len - n)
      (m.store data n fun i => v.dev.disk (offset + i)) c).mem (data + i)
        = v.dev.disk (offset + i) := by
  by_cases hin : i < n
  · rw [readLoop_below _ _ _ _ _ _ _ _ (by omega), Mem.store_at _ _ _ hin]
  · have hlate := hrest (i - n) (by omega)
    have hsub : ∀ a, a + n + (i - n) = a + i := fun a => by omega
    rwa [hsub, hsub] at hlate

/-- **The first bytes of a read are right** once the requests they take are answered in full. -/
theorem readLoop_prefix (v : Volume) :
    ∀ (fuel data offset len : Nat) (m : Mem UInt8) (c : Cache) (p : Nat), len ≤ fuel →
      offset + len ≤ 0x200 * (2 ^ 32 - 1) → p ≤ len → Coherent v.dev c →
      Full v.dev c.calls (c.calls + neededLoop v fuel data offset len c.current p) →
      ∀ i < p, (readLoop v fuel data offset len m c).mem (data + i) = v.dev.disk (offset + i) := by
  intro fuel
  induction fuel with
  | zero =>
      intro data offset len m c p hfuel _ hp _ _ i hi
      omega
  | succ fuel ih =>
      intro data offset len m c p hfuel hoff hp hc hfull i hi
      have hlen : len ≠ 0 := by omega
      rw [neededLoop, if_neg (by omega)] at hfull
      by_cases ha : aligned v data offset len
      · have hle := directLen_le len
        have hpos := directLen_pos ha.2.2
        rw [if_pos ha] at hfull
        have hans := hfull c.calls (Nat.le_refl _) (by omega) .dest
        rw [readLoop_direct_full fuel m c ha hoff hans]
        refine readLoop_prefix_piece (ih _ _ _ _ { c with calls := c.calls + 1 }
          (p - directLen len) (by omega) (by omega) (by omega) hc ?_) hi
        exact hfull.mono (Nat.le_succ _) (by dsimp only; omega)
      · have hle := cachedLen_le offset len
        have hpos := cachedLen_pos offset hlen
        rw [if_neg ha] at hfull
        have hans : c.current ≠ offset / 0x200 → v.dev.answer c.calls .rawBuf = .full := by
          intro hmiss
          rw [if_neg hmiss] at hfull
          exact hfull c.calls (Nat.le_refl _) (by omega) .rawBuf
        obtain ⟨hzero, hcur, hbuf⟩ := rawRead_full hc (by omega) hans
        have hcalls : (rawRead v (offset / 0x200) c).2.calls
            = c.calls + if c.current = offset / 0x200 then 0 else 1 := by
          by_cases hhit : c.current = offset / 0x200
          · rw [rawRead_hit hhit, if_pos hhit]
            rfl
          · rw [rawRead_miss hhit, if_neg hhit]
        rw [readLoop_cached_inRange fuel m c hlen ha hoff, if_neg (by simp [hzero]),
          store_sector m data hbuf]
        refine readLoop_prefix_piece (ih _ _ _ _ _ (p - cachedLen offset len) (by omega) (by omega)
          (by omega) (fun _ i hi => by rw [hcur]; exact hbuf i hi) ?_) hi
        rw [hcur, hcalls, Nat.add_assoc]
        exact hfull.mono (Nat.le_add_right _ _) (Nat.le_refl _)

theorem read_prefix {v : Volume} {data offset len : Nat} {m : Mem UInt8} {c : Cache} {p : Nat}
    (hr : v.InRange offset len) (hp : p ≤ len) (hc : Coherent v.dev c)
    (hfull : Full v.dev c.calls (c.calls + needed v data offset len c.current p)) {i : Nat}
    (hi : i < p) : (read v data offset len m c).mem (data + i) = v.byte (offset + i) := by
  unfold Volume.InRange at hr
  have hu64 : u64 (offset + v.partitionStartOffset) = offset + v.partitionStartOffset := by
    unfold u64
    omega
  unfold read
  rw [hu64, readLoop_prefix v len data _ len m c p (Nat.le_refl _) hr hp hc hfull i hi]
  unfold Volume.byte
  rw [Nat.add_right_comm]

/-- One piece and the extent after it, if the device does not fail until they are there. -/
theorem piece_reliable {v : Volume} {data n last : Nat} {m : Mem UInt8} {s : State}
    (hfull : Full v.dev s.cache.calls last)
    (hlast : (refill v.reliable (s.advance n
      (read v.reliable data s.extentOffset n m s.cache).cache)).cache.calls ≤ last) :
    read v.reliable data s.extentOffset n m s.cache = read v data s.extentOffset n m s.cache ∧
      refill v.reliable (s.advance n (read v data s.extentOffset n m s.cache).cache)
        = refill v (s.advance n (read v data s.extentOffset n m s.cache).cache) := by
  have hmid := refill_calls_le v.reliable
    (s.advance n (read v.reliable data s.extentOffset n m s.cache).cache)
  have hread : read v data s.extentOffset n m s.cache
      = read v.reliable data s.extentOffset n m s.cache :=
    read_local (v := v.reliable) (a := v.dev.answer)
      (hfull.mono (Nat.le_refl _) (Nat.le_trans hmid hlast)).agrees_reliable
  rw [hread]
  refine ⟨rfl, (refill_local (v := v.reliable) (a := v.dev.answer) ?_).symm⟩
  have hcalls := read_calls_le v.reliable data s.extentOffset n m s.cache
  exact (hfull.mono hcalls hlast).agrees_reliable

/--
**The first bytes of `read_extent` are right** if the device does not fail before they are
in place.  What it does afterwards can make `read_extent` fail, or succeed wrongly, but it
does not reach back.
-/
theorem readExtentLoop_prefix {v : Volume} (hv : v.OK) :
    ∀ (fuel data len : Nat) (m : Mem UInt8) (s : State) (p : Nat), len ≤ fuel → p ≤ len →
      Ready v s → Has (remaining v s) p →
      Full v.dev s.cache.calls (neededExtent v.reliable fuel data len m s p) →
      Delivers v (remaining v s) data p (readExtentLoop v fuel data len m s).mem := by
  intro fuel
  induction fuel with
  | zero =>
      intro data len m s p hfuel hp _ _ _ j hj
      omega
  | succ fuel ih =>
      intro data len m s p hfuel hp hs hhas hfull
      by_cases hp0 : p = 0
      · intro j hj
        omega
      have hlen : len ≠ 0 := by omega
      have hext : s.extentLen ≠ 0 := by
        intro hz
        have := hhas 0 (by omega)
        rw [hs.remaining_none hz] at this
        simp at this
      obtain ⟨n, hn⟩ : ∃ n, n = min len s.extentLen := ⟨_, rfl⟩
      have hin : v.InRange s.extentOffset n := (hs.extent hext).shorten (by omega)
      have hfirst : ∀ j < n, remaining v s j = some (s.extentOffset + j) :=
        fun j hj => remaining_extent (by omega)
      rw [neededExtent] at hfull
      rw [readExtentLoop_piece fuel data m hlen hext hn]
      dsimp only at hfull ⊢
      rw [← hn] at hfull
      by_cases hpn : p ≤ n
      · -- all in the current extent: later iterations write behind it
        rw [if_pos hpn, needed_reliable] at hfull
        intro j hj
        refine ⟨_, hfirst j (by omega), ?_⟩
        have hbyte : (read v data s.extentOffset n m s.cache).mem (data + j)
            = v.byte (s.extentOffset + j) :=
          read_prefix hin hpn hs.coherent hfull hj
        split
        · exact hbyte
        · rw [readExtentLoop_below v _ _ _ _ _ (by omega)]
          exact hbyte
      · rw [if_neg hpn] at hfull
        obtain ⟨hread, hrefill⟩ := piece_reliable hfull (neededExtent_calls_le _ _ _ _ _ _ _)
        rw [hread, hrefill] at hfull
        have hcalls := read_calls_le v data s.extentOffset n m s.cache
        have hmid := refill_calls_le v
          (s.advance n (read v data s.extentOffset n m s.cache).cache)
        have hneed := neededExtent_calls_le v.reliable fuel (data + n) (len - n)
          (read v data s.extentOffset n m s.cache).mem
          (refill v (s.advance n (read v data s.extentOffset n m s.cache).cache)) (p - n)
        obtain ⟨herr, hmem, hcoh⟩ := read_full hin hs.coherent
          (hfull.mono (Nat.le_refl _) (Nat.le_trans hmid hneed))
        obtain ⟨hs', hrem, -⟩ := hs.refill hv (by omega) (by omega) hcoh (hfull.mono hcalls hneed)
        have hdel := ih (data + n) (len - n) _ _ (p - n) (by omega) (by omega) hs'
          (fun k hk => by rw [hrem]; exact hhas (n + k) (by omega))
          (hfull.mono (Nat.le_trans hcalls hmid) (Nat.le_refl _))
        rw [if_neg (by simp [herr])]
        rw [hmem] at hdel ⊢
        exact .piece hfirst hrem hdel

end Xell.Fat
