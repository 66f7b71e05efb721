/-
Failures that `read_extent` survives.

The one failure `read` reports is a negative answer to a request for `raw_buf`.  If the
device fails in no other way, `read_extent` may still go wrong in the middle: `get_fat`
turns the reported error into the entry 0, and the chain looks shorter than it is.  That
does no harm to what is delivered, because a shorter chain only makes `read_extent` give
up earlier.  There is one trap left.  `raw_read` notes the sector as cached before it has
read it, so after a failed read of the table the cache pretends to hold that sector; as
long as no data of the file lies in it, nobody looks.

`Sound` is the invariant: what the state will deliver agrees with the true stream as far
as it goes, and the cache is right or pretends to hold a sector of the table.
-/
import Xell.Proofs.Fat.Failure

namespace Xell.Fat

/-- No request for the destination fails, and no request for `raw_buf` is answered by zero. -/
def Harmless (dev : Bdev) (lo hi : Nat) : Prop :=
  ∀ k, lo ≤ k → k < hi → dev.answer k .dest = .full ∧
    (dev.answer k .rawBuf = .full ∨ (dev.answer k .rawBuf).Negative)

theorem Harmless.mono {dev : Bdev} {lo hi lo' hi' : Nat} (h : Harmless dev lo hi)
    (hlo : lo ≤ lo') (hhi : hi' ≤ hi) : Harmless dev lo' hi' :=
  fun k hk hk' => h k (Nat.le_trans hlo hk) (Nat.lt_of_lt_of_le hk' hhi)

/-- The cache is right, unless it pretends to hold a sector of `bad`. -/
def CoherentOff (dev : Bdev) (bad : Nat → Prop) (c : Cache) : Prop :=
  Coherent dev c ∨ bad c.current

/-- What a read leaves when the device fails in no harmful way. -/
def Told (v : Volume) (bad : Nat → Prop) (data offset len : Nat) (m : Mem UInt8)
    (r : ReadRes) : Prop :=
  (r.err = 0 ∧ r.mem = m.store data len (fun i => v.dev.disk (offset + i)) ∧
    CoherentOff v.dev bad r.cache) ∨
  (r.err ≠ 0 ∧ ∃ i < len, r.cache.current = (offset + i) / 0x200)

theorem rawRead_harmless {v : Volume} {bad : Nat → Prop} {sector : Nat} {c : Cache}
    (hc : CoherentOff v.dev bad c) (hbad : ¬ bad sector)
    (hh : Harmless v.dev c.calls (rawRead v sector c).2.calls) :
    ((rawRead v sector c).1 = 0 ∧ Coherent v.dev (rawRead v sector c).2 ∧
      (rawRead v sector c).2.current = sector) ∨
    ((rawRead v sector c).1 ≠ 0 ∧ (rawRead v sector c).2.current = sector) := by
  by_cases hhit : c.current = sector
  · rw [rawRead_hit hhit]
    rcases hc with hcoh | hb
    · exact Or.inl ⟨rfl, hcoh, hhit⟩
    · rw [hhit] at hb
      exact absurd hb hbad
  · have hcall : c.calls < (rawRead v sector c).2.calls := by
      rw [rawRead_miss hhit]
      exact Nat.lt_succ_self _
    rcases (hh c.calls (Nat.le_refl _) hcall).2 with hfull | hneg
    · rw [rawRead_miss hhit, Bdev.read_full hfull]
      exact Or.inl ⟨by simp, fun _ i _ => rfl, rfl⟩
    · have hstop := (rawRead_stops_iff hhit).mpr hneg
      refine Or.inr ⟨hstop, ?_⟩
      rw [rawRead_miss hhit]

/-- A rest that is told is told for the whole, whichever path took the first piece. -/
theorem Told.piece {v : Volume} {bad : Nat → Prop} {data offset len n : Nat} {m : Mem UInt8}
    {r : ReadRes} (hn : n ≤ len)
    (h : Told v bad (data + n) (offset + n) (len - n)
      (m.store data n fun i => v.dev.disk (offset + i)) r) :
    Told v bad data offset len m r := by
  rcases h with ⟨herr, hmem, hcoh⟩ | ⟨herr, i, hi, hcur⟩
  · refine Or.inl ⟨herr, ?_, hcoh⟩
    rw [hmem, Mem.store_rest m data offset v.dev.disk hn]
  · refine Or.inr ⟨herr, n + i, by omega, ?_⟩
    rw [hcur, Nat.add_assoc]

/-- **A read either delivers the disk or says that it did not.** -/
theorem readLoop_harmless (v : Volume) {bad : Nat → Prop} :
    ∀ (fuel data offset len : Nat) (m : Mem UInt8) (c : Cache), len ≤ fuel →
      offset + len ≤ 0x200 * (2 ^ 32 - 1) → CoherentOff v.dev bad c →
      (∀ i < len, ¬ bad ((offset + i) / 0x200)) →
      Harmless v.dev c.calls (readLoop v fuel data offset len m c).cache.calls →
      Told v bad data offset len m (readLoop v fuel data offset len m c) := by
  intro fuel
  induction fuel with
  | zero =>
      intro data offset len m c hlen _ hc _ _
      obtain rfl : len = 0 := by omega
      exact Or.inl ⟨rfl, (Mem.store_zero m data _).symm, hc⟩
  | succ fuel ih =>
      intro data offset len m c hfuel hoff hc hbad hh
      by_cases hlen : len = 0
      · subst hlen
        rw [readLoop_zero]
        exact Or.inl ⟨rfl, (Mem.store_zero m data _).symm, hc⟩
      by_cases ha : aligned v data offset len
      · have hle := directLen_le len
        have hpos := directLen_pos ha.2.2
        rw [readLoop_direct_inRange fuel m c ha hoff] at hh ⊢
        have hans : v.dev.answer c.calls .dest = .full := by
          refine (hh c.calls (Nat.le_refl _) ?_).1
          split
          · exact Nat.lt_succ_self _
          · exact readLoop_calls_le v fuel _ _ _ _ { c with calls := c.calls + 1 }
        rw [← readLoop_direct_inRange fuel m c ha hoff,
          readLoop_direct_full fuel m c ha hoff hans] at hh ⊢
        refine Told.piece hle (ih _ _ _ _ { c with calls := c.calls + 1 } (by omega) (by omega) hc
          (fun i hi => ?_) (hh.mono (Nat.le_succ _) (Nat.le_refl _)))
        rw [Nat.add_assoc]
        exact hbad _ (by omega)
      · have hle := cachedLen_le offset len
        have hpos := cachedLen_pos offset hlen
        rw [readLoop_cached_inRange fuel m c hlen ha hoff] at hh ⊢
        have hraw : Harmless v.dev c.calls (rawRead v (offset / 0x200) c).2.calls := by
          refine hh.mono (Nat.le_refl _) ?_
          split
          · exact Nat.le_refl _
          · exact readLoop_calls_le _ _ _ _ _ _ _
        have hfirst : ¬ bad (offset / 0x200) := hbad 0 (by omega)
        rcases rawRead_harmless hc hfirst hraw with
          ⟨hzero, hcoh, hcur⟩ | ⟨hne, hcur⟩
        · have hbuf : ∀ i < 0x200, (rawRead v (offset / 0x200) c).2.rawBuf i
              = v.dev.disk (0x200 * (offset / 0x200) + i) := by
            intro i hi
            rw [hcoh (by rw [hcur]; omega) i hi, hcur]
          rw [if_neg (by simp [hzero]), store_sector m data hbuf] at hh ⊢
          refine Told.piece hle (ih _ _ _ _ _ (by omega) (by omega) (Or.inl hcoh)
            (fun i hi => ?_) (hh.mono (rawRead_calls_le _ _ _) (Nat.le_refl _)))
          rw [Nat.add_assoc]
          exact hbad _ (by omega)
        · rw [if_pos hne]
          exact Or.inr ⟨hne, 0, by omega, hcur⟩

/-- The sector of a position in the partition. -/
def Volume.sector (v : Volume) (a : Nat) : Nat := (a + v.partitionStartOffset) / 0x200

theorem read_harmless {v : Volume} {bad : Nat → Prop} {data offset len : Nat} {m : Mem UInt8}
    {c : Cache} (hr : v.InRange offset len) (hc : CoherentOff v.dev bad c)
    (hbad : ∀ i < len, ¬ bad (v.sector (offset + i)))
    (hh : Harmless v.dev c.calls (read v data offset len m c).cache.calls) :
    ((read v data offset len m c).err = 0 ∧
      (read v data offset len m c).mem = m.store data len (fun i => v.byte (offset + i)) ∧
      CoherentOff v.dev bad (read v data offset len m c).cache) ∨
    ((read v data offset len m c).err ≠ 0 ∧
      ∃ i < len, (read v data offset len m c).cache.current = v.sector (offset + i)) := by
  unfold Volume.InRange at hr
  have hu64 : u64 (offset + v.partitionStartOffset) = offset + v.partitionStartOffset := by
    unfold u64
    omega
  unfold read at hh ⊢
  rw [hu64] at hh ⊢
  unfold Volume.sector at hbad ⊢
  rcases readLoop_harmless v len data _ len m c (Nat.le_refl _) hr hc
    (fun i hi => by rw [Nat.add_right_comm]; exact hbad i hi) hh with
    ⟨herr, hmem, hcoh⟩ | ⟨herr, i, hi, hcur⟩
  · refine Or.inl ⟨herr, ?_, hcoh⟩
    rw [hmem]
    refine Mem.store_congr m data fun i _ => ?_
    unfold Volume.byte
    rw [Nat.add_right_comm]
  · exact Or.inr ⟨herr, i, hi, by rw [hcur, Nat.add_right_comm]⟩

/-! ### A chain that looks shorter than it is -/

/-- The sectors `get_fat` reads for the clusters of a chain. -/
def FatSector (v : Volume) (c sector : Nat) : Prop :=
  ∃ i d, chainAt v i c = some d ∧
    ∃ b < 4, sector = v.sector (v.fatOffset + v.entryBits d / 8 + b)

theorem FatSector.of_suffix {v : Volume} {c i d sector : Nat} (hd : chainAt v i c = some d)
    (h : FatSector v d sector) : FatSector v c sector := by
  obtain ⟨j, e, he, b, hb, hs⟩ := h
  exact ⟨i + j, e, by rw [chainAt_add j hd]; exact he, b, hb, hs⟩

theorem getFat_harmless {v : Volume} {cluster : Nat} {c : Cache} (hval : v.valid cluster)
    (hr : v.InRange (v.fatOffset + v.entryBits cluster / 8) 4) (hc : Coherent v.dev c)
    (hh : Harmless v.dev c.calls (getFat v cluster c).2.calls) :
    ((getFat v cluster c).1 = v.fatEntry cluster ∧ Coherent v.dev (getFat v cluster c).2) ∨
    ((getFat v cluster c).1 = 0 ∧ FatSector v cluster (getFat v cluster c).2.current) := by
  have hu64 : u64 (v.fatOffset + v.entryBits cluster / 8)
      = v.fatOffset + v.entryBits cluster / 8 := by
    unfold Volume.InRange at hr
    unfold u64
    omega
  rw [getFat_cache, hu64] at hh ⊢
  have hoff : CoherentOff v.dev (fun _ => False) c := Or.inl hc
  rcases read_harmless hr hoff (fun i _ h => h) hh with
    ⟨herr, hmem, hcoh⟩ | ⟨herr, b, hb, hcur⟩
  · refine Or.inl ⟨?_, hcoh.resolve_right fun h => h⟩
    have hval : le32 (read v 0 (v.fatOffset + v.entryBits cluster / 8) 4 (fun _ => 0) c).mem 0
        = le32 (fun i => v.byte (v.fatOffset + v.entryBits cluster / 8 + i)) 0 := by
      refine le32_congr fun i hi => ?_
      rw [hmem, Mem.store_at _ _ _ hi, Nat.zero_add]
    rw [getFat_eq]
    dsimp only
    rw [hu64, if_neg (by simp [herr]), hval]
    rfl
  · refine Or.inr ⟨?_, 0, cluster, chainAt_zero hval, b, hb, hcur⟩
    rw [getFat_eq]
    dsimp only
    rw [hu64, if_pos herr]

/-- What the loop of `get_extent` finds: a run, perhaps cut short. -/
structure CutRun (v : Volume) (d n : Nat) (s : State) : Prop where
  pos : 0 < n
  consecutive : ∀ k < n, chainAt v k d = some (d + k)
  after : s.extentNextCluster ≠ 0 →
    chainAt v n d = some s.extentNextCluster ∧ Coherent v.dev s.cache
  cache : CoherentOff v.dev (FatSector v d) s.cache

section CutRun

variable {v : Volume} {d n : Nat} {s : State}

theorem CutRun.one (hd : v.valid d)
    (hafter : s.extentNextCluster ≠ 0 →
      chainAt v 1 d = some s.extentNextCluster ∧ Coherent v.dev s.cache)
    (hcache : CoherentOff v.dev (FatSector v d) s.cache) : CutRun v d 1 s :=
  ⟨Nat.one_pos, consecutive_one hd, hafter, hcache⟩

theorem CutRun.cons (hd : v.valid d) (he : v.fatEntry d = d + 1) (hval : v.valid (d + 1))
    (h : CutRun v (d + 1) n s) : CutRun v d (n + 1) s where
  pos := Nat.succ_pos n
  consecutive := consecutive_cons hd he h.consecutive
  after hne := by
    rw [chainAt_succ hd, he]
    exact h.after hne
  cache := by
    have hsecond : chainAt v 1 d = some (d + 1) := by
      rw [chainAt_succ hd, he, chainAt_zero hval]
    exact h.cache.imp_right fun hoff => hoff.of_suffix hsecond

end CutRun

theorem getExtentLoop_harmless {v : Volume} (hv : v.OK) :
    ∀ (fuel d : Nat) (s : State), v.valid d → d < 2 ^ 32 → v.clusters + 2 ≤ d + fuel →
      ChainOK v d → Coherent v.dev s.cache → s.extentNextCluster = 0 →
      Harmless v.dev s.cache.calls (getExtentLoop v fuel d s).cache.calls →
      ∃ n, CutRun v d n (getExtentLoop v fuel d s) ∧
        (getExtentLoop v fuel d s).extentLen = u32 (s.extentLen + n * v.bytesPerCluster) ∧
        (getExtentLoop v fuel d s).extentOffset = s.extentOffset := by
  intro fuel
  induction fuel with
  | zero =>
      intro d s hd hlt hfuel
      have := (hv.valid_iff hlt).mp hd
      omega
  | succ fuel ih =>
      intro d s hd hlt hfuel hok hc hnext hh
      have hdr := (hv.valid_iff hlt).mp hd
      have hsmall := hv.clusters_lt
      have hentry := v.fatEntry_lt d
      have hgle := getFat_calls_le_loop v fuel d s
      rcases getFat_harmless hd (hok.fat 0 d (chainAt_zero hd)) hc
        (hh.mono (Nat.le_refl _) hgle) with ⟨hg, hcoh⟩ | ⟨hg, hsector⟩
      · by_cases hval : v.valid (v.fatEntry d)
        · have hrange := (hv.valid_iff (by omega)).mp hval
          have hu : u32 (d + 1) = d + 1 := Nat.mod_eq_of_lt (by omega)
          by_cases hstep : v.fatEntry d = d + 1
          · rw [hstep] at hval hg
            have hsecond : chainAt v 1 d = some (d + 1) := by
              rw [chainAt_succ hd, hstep, chainAt_zero hval]
            rw [getExtentLoop_next (by rw [hg]; exact hval) (by rw [hg, hu]), hg] at hh ⊢
            obtain ⟨n, hrun, hlen, hoff⟩ := ih (d + 1) (s.grown v (getFat v d s.cache).2) hval
              (by omega) (by omega) (hok.suffix hsecond) hcoh hnext
              (hh.mono (getFat_calls_le _ _ _) (Nat.le_refl _))
            exact ⟨n + 1, hrun.cons hd hstep hval, hlen.trans (u32_add_mul _ _ _), hoff⟩
          · rw [getExtentLoop_break (by rw [hg]; exact hval) (by rw [hg, hu]; exact hstep), hg]
            refine ⟨1, .one hd (fun _ => ⟨?_, hcoh⟩) (Or.inl hcoh), by rw [Nat.one_mul]; rfl, rfl⟩
            rw [chainAt_succ hd, chainAt_zero hval]
        · rw [getExtentLoop_last (by rw [hg]; exact hval)]
          exact ⟨1, .one hd (fun hne => absurd hnext hne) (Or.inl hcoh), by rw [Nat.one_mul]; rfl,
            rfl⟩
      · -- the entry could not be read: the run ends here
        have hcut : ¬v.valid 0 := by
          unfold Volume.valid sub32
          omega
        rw [getExtentLoop_last (by rw [hg]; exact hcut)]
        exact ⟨1, .one hd (fun hne => absurd hnext hne) (Or.inr hsector), by rw [Nat.one_mul]; rfl,
          rfl⟩

/--
What holds of the state while `read_extent` goes on.  What the state will deliver agrees
with the stream `loc` as far as it goes, and the cache is right or pretends to hold a sector
of `bad`.  While there is a next cluster, no read of the table has failed.
-/
structure Sound (v : Volume) (bad : Nat → Prop) (loc : Nat → Option Nat) (s : State) : Prop where
  agree : ∀ j a, remaining v s j = some a → loc j = some a
  cache : CoherentOff v.dev bad s.cache
  extent : s.extentLen ≠ 0 → v.InRange s.extentOffset s.extentLen
  next : s.extentNextCluster ≠ 0 →
    (s.extentLen ≠ 0 ∧ s.extentNextCluster < 2 ^ 32 ∧ ChainOK v s.extentNextCluster) ∧
      Coherent v.dev s.cache ∧ ∀ sector, FatSector v s.extentNextCluster sector → bad sector

/-- The sectors of the table that reading on may have to look at. -/
def TableSector (v : Volume) (s : State) (sector : Nat) : Prop :=
  s.extentNextCluster ≠ 0 ∧ FatSector v s.extentNextCluster sector

theorem Ready.sound {v : Volume} {s : State} (h : Ready v s) :
    Sound v (TableSector v s) (remaining v s) s where
  agree _ _ ha := ha
  cache := Or.inl h.coherent
  extent := h.extent
  next hne := ⟨h.next hne, h.coherent, fun _ hs => ⟨hne, hs⟩⟩

/-- `get_extent` on the next cluster, when reads of the table may fail. -/
theorem getExtent_harmless {v : Volume} (hv : v.OK) {c : Nat} (hne : c ≠ 0) (hc : c < 2 ^ 32)
    (hok : ChainOK v c) {s : State} (hcoh : Coherent v.dev s.cache)
    (hh : Harmless v.dev s.cache.calls (getExtent v c s).cache.calls) :
    Sound v (FatSector v c) (chainLoc v c) (getExtent v c s) := by
  have hroot : ¬ isRootArea v c := fun h => hne h.1
  have hstart : startCluster v c = c := if_neg hne
  by_cases hval : v.valid (startCluster v c)
  · rw [getExtent_chain s hroot hval, hstart] at hh ⊢
    rw [hstart] at hval
    have hrange := (hv.valid_iff hc).mp hval
    obtain ⟨n, hrun, hlen, hoff⟩ := getExtentLoop_harmless hv v.clusters c { s with
        extentOffset := u64 (v.clusterOffset c)
        extentLen := 0
        extentNextCluster := 0 } hval hc (by omega) hok hcoh rfl hh
    generalize getExtentLoop v v.clusters c _ = s' at hrun hlen hoff ⊢
    have hbytes := hok.run 0 n c fun k hk => by
      rw [Nat.zero_add]
      exact hrun.consecutive k hk
    have hlen' : s'.extentLen = n * v.bytesPerCluster := by
      rw [hlen, Nat.zero_add, u32, Nat.mod_eq_of_lt hbytes]
    have hin := inRange_run hv.clusters_lt hc hok.data hrun.pos hrun.consecutive
    have hoff' : s'.extentOffset = v.clusterOffset c := by
      rw [hoff]
      unfold Volume.InRange at hin
      exact Nat.mod_eq_of_lt (by omega)
    have hpos : 0 < n * v.bytesPerCluster := Nat.mul_pos hrun.pos hv.cluster_pos
    refine ⟨fun j a ha => ?_, hrun.cache, fun _ => ?_, fun hnext => ?_⟩
    · unfold remaining at ha
      rw [hlen', hoff'] at ha
      by_cases hj : j < n * v.bytesPerCluster
      · rw [if_pos hj] at ha
        rw [chainLoc_run hv.clusters_lt hc hrun.consecutive hj, ha]
      · rw [if_neg hj] at ha
        by_cases hnext : s'.extentNextCluster = 0
        · rw [if_pos hnext] at ha
          simp at ha
        · rw [if_neg hnext] at ha
          rw [chainLoc_add hv (hrun.after hnext).1 (Nat.not_lt.mp hj), ha]
    · rw [hoff', hlen']
      exact hin
    · obtain ⟨hafter, hcoh'⟩ := hrun.after hnext
      obtain ⟨k, rfl⟩ := Nat.exists_eq_succ_of_ne_zero hrun.pos.ne'
      have := chainAt_succ_lt hafter
      exact ⟨⟨by omega, by omega, hok.suffix hafter⟩, hcoh', fun _ h => h.of_suffix hafter⟩
  · rw [getExtent_invalid s hroot hval]
    refine ⟨fun j a ha => ?_, Or.inl hcoh, fun h => absurd rfl h, fun h => absurd rfl h⟩
    simp [remaining] at ha

theorem Sound.mono {v : Volume} {bad bad' : Nat → Prop} {loc loc' : Nat → Option Nat} {s : State}
    (h : Sound v bad loc s) (hbad : ∀ sector, bad sector → bad' sector)
    (hloc : ∀ j a, loc j = some a → loc' j = some a) : Sound v bad' loc' s where
  agree j a ha := hloc j a (h.agree j a ha)
  cache := h.cache.imp_right (hbad _)
  extent := h.extent
  next hne := ⟨(h.next hne).1, (h.next hne).2.1, fun _ hs => hbad _ ((h.next hne).2.2 _ hs)⟩

/-- What is left of the extent comes first. -/
theorem Sound.first {v : Volume} {bad : Nat → Prop} {loc : Nat → Option Nat} {s : State}
    (h : Sound v bad loc s) {j : Nat} (hj : j < s.extentLen) :
    loc j = some (s.extentOffset + j) :=
  h.agree j _ (remaining_extent hj)

/-- A piece of the extent that is read without an error is in its place, and the cache is as
right as it was. -/
theorem Sound.read {v : Volume} {bad : Nat → Prop} {loc : Nat → Option Nat} {s : State}
    (h : Sound v bad loc s) {data n : Nat} {m : Mem UInt8} (hpos : 0 < n) (hn : n ≤ s.extentLen)
    (hapart : ∀ j < n, ∀ a, loc j = some a → ¬ bad (v.sector a))
    (hh : Harmless v.dev s.cache.calls (read v data s.extentOffset n m s.cache).cache.calls)
    (herr : (read v data s.extentOffset n m s.cache).err = 0) :
    (read v data s.extentOffset n m s.cache).mem
        = m.store data n (fun i => v.byte (s.extentOffset + i)) ∧
      CoherentOff v.dev bad (read v data s.extentOffset n m s.cache).cache ∧
      (s.extentNextCluster ≠ 0 →
        Coherent v.dev (read v data s.extentOffset n m s.cache).cache) := by
  have hin : v.InRange s.extentOffset n := (h.extent (by omega)).shorten hn
  -- once with the sectors the cache may lie about, and once without
  have hpiece := read_harmless hin h.cache
    (fun i hi => hapart i hi _ (h.first (by omega))) hh
  obtain ⟨-, hmem, hcoh⟩ := hpiece.resolve_right fun hne => hne.1 herr
  refine ⟨hmem, hcoh, fun hne => ?_⟩
  have hoff : CoherentOff v.dev (fun _ => False) s.cache := Or.inl (h.next hne).2.1
  have hclean := read_harmless hin hoff (fun _ _ hfalse => hfalse) hh
  obtain ⟨-, -, hcoh'⟩ := hclean.resolve_right fun hne' => hne'.1 herr
  exact hcoh'.resolve_right fun hfalse => hfalse

/-- One piece of the extent is read, and the next extent is fetched if that was all of it. -/
theorem Sound.refill {v : Volume} (hv : v.OK) {bad : Nat → Prop} {loc : Nat → Option Nat}
    {s : State} (h : Sound v bad loc s) {n : Nat} (hpos : 0 < n) (hn : n ≤ s.extentLen)
    {c : Cache} (hc : CoherentOff v.dev bad c)
    (hnext : s.extentNextCluster ≠ 0 → Coherent v.dev c)
    (hh : Harmless v.dev c.calls (refill v (s.advance n c)).cache.calls) :
    Sound v bad (fun j => loc (n + j)) (refill v (s.advance n c)) := by
  have hin := h.extent (by omega)
  have hoff : (s.advance n c).extentOffset = s.extentOffset + n := by
    unfold Volume.InRange at hin
    exact Nat.mod_eq_of_lt (by omega)
  by_cases hcond : (s.advance n c).extentLen = 0 ∧ (s.advance n c).extentNextCluster ≠ 0
  · have hrefill : Fat.refill v (s.advance n c)
        = getExtent v s.extentNextCluster (s.advance n c) := by
      unfold Fat.refill
      rw [if_pos hcond]
      rfl
    obtain ⟨hlen, hne⟩ := hcond
    have hne' : s.extentNextCluster ≠ 0 := hne
    have hlen' : s.extentLen - n = 0 := hlen
    obtain ⟨⟨-, hlt, hok⟩, -, hsub⟩ := h.next hne'
    rw [hrefill] at hh ⊢
    refine (getExtent_harmless hv hne' hlt hok (hnext hne') hh).mono hsub fun j a ha => ?_
    refine h.agree (n + j) a ?_
    unfold remaining
    rw [if_neg (by omega), if_neg hne', show n + j - s.extentLen = j by omega, ha]
  · have hrefill : Fat.refill v (s.advance n c) = s.advance n c := by
      unfold Fat.refill
      rw [if_neg hcond]
    rw [hrefill]
    refine ⟨fun j a ha => h.agree (n + j) a ?_, hc, fun hne => ?_, fun hne => ?_⟩
    · unfold remaining at ha ⊢
      rw [hoff] at ha
      have ha' : (if j < s.extentLen - n then some (s.extentOffset + n + j)
          else if s.extentNextCluster = 0 then none
          else chainLoc v s.extentNextCluster (j - (s.extentLen - n))) = some a := ha
      by_cases hj : j < s.extentLen - n
      · rw [if_pos hj] at ha'
        rw [if_pos (by omega), ← Nat.add_assoc, ha']
      · rw [if_neg hj] at ha'
        rw [if_neg (by omega), show n + j - s.extentLen = j - (s.extentLen - n) by omega, ha']
    · have hne' : s.extentLen - n ≠ 0 := hne
      unfold Volume.InRange at hin ⊢
      rw [hoff]
      show s.extentOffset + n + v.partitionStartOffset + (s.extentLen - n) ≤ _
      omega
    · obtain ⟨⟨-, hlt, hok⟩, -, hsub⟩ := h.next hne
      exact ⟨⟨fun hz => hcond ⟨hz, hne⟩, hlt, hok⟩, hnext hne, hsub⟩

/-! ### What `read_extent` delivers when it reports success -/

/-- `read_extent` stored the bytes of the stream, all of them there. -/
def Delivers (v : Volume) (loc : Nat → Option Nat) (data len : Nat) (mem : Mem UInt8) : Prop :=
  ∀ j < len, ∃ a, loc j = some a ∧ mem (data + j) = v.byte a

theorem readExtentLoop_below (v : Volume) :
    ∀ (fuel data len : Nat) (m : Mem UInt8) (s : State) {x : Nat}, x < data →
      (readExtentLoop v fuel data len m s).mem x = m x := by
  intro fuel
  induction fuel with
  | zero => intro data len m s x _; rfl
  | succ fuel ih =>
      intro data len m s x hx
      have hread : ∀ n, (read v data s.extentOffset n m s.cache).mem x = m x :=
        fun n => readLoop_below v _ _ _ _ _ _ _ hx
      rw [readExtentLoop]
      split
      · rfl
      split
      · rfl
      dsimp only
      split
      · exact hread _
      · rw [ih _ _ _ _ (by omega), hread]

/-- A piece that was stored stays when the loop goes on behind it. -/
theorem Delivers.piece {v : Volume} {loc loc' : Nat → Option Nat} {fuel data n len offset p : Nat}
    {m : Mem UInt8} {s : State} (hfirst : ∀ j < n, loc j = some (offset + j))
    (hrest : ∀ j, loc' j = loc (n + j))
    (h : Delivers v loc' (data + n) (p - n) (readExtentLoop v fuel (data + n) len
      (m.store data n fun i => v.byte (offset + i)) s).mem) :
    Delivers v loc data p (readExtentLoop v fuel (data + n) len
      (m.store data n fun i => v.byte (offset + i)) s).mem := by
  intro j hj
  by_cases hjn : j < n
  · refine ⟨_, hfirst j hjn, ?_⟩
    rw [readExtentLoop_below v _ _ _ _ _ (by omega), Mem.store_at _ _ _ hjn]
  · obtain ⟨a, ha, hbyte⟩ := h (j - n) (by omega)
    rw [hrest, Nat.add_sub_cancel' (Nat.not_lt.mp hjn)] at ha
    refine ⟨a, ha, ?_⟩
    rw [← hbyte]
    congr 1
    omega

/-- **Success means the data**, if the device fails in no harmful way and no data lies in a
sector the table was read from. -/
theorem readExtentLoop_harmless {v : Volume} (hv : v.OK) {bad : Nat → Prop} :
    ∀ (fuel data len : Nat) (m : Mem UInt8) (s : State) (loc : Nat → Option Nat), len ≤ fuel →
      Sound v bad loc s → (∀ j < len, ∀ a, loc j = some a → ¬ bad (v.sector a)) →
      Harmless v.dev s.cache.calls (readExtentLoop v fuel data len m s).st.cache.calls →
      (readExtentLoop v fuel data len m s).err = 0 →
      Delivers v loc data len (readExtentLoop v fuel data len m s).mem := by
  intro fuel
  induction fuel with
  | zero =>
      intro data len m s loc hfuel _ _ _ _ j hj
      omega
  | succ fuel ih =>
      intro data len m s loc hfuel hs hapart hh herr
      by_cases hlen : len = 0
      · intro j hj
        omega
      by_cases hext : s.extentLen = 0
      · rw [readExtentLoop, if_neg hlen, if_pos hext] at herr
        simp at herr
      obtain ⟨n, hn⟩ : ∃ n, n = min len s.extentLen := ⟨_, rfl⟩
      have hreadle := read_calls_le_loop (v := v) fuel data m hlen hext hn
      rw [readExtentLoop_piece fuel data m hlen hext hn] at hh hreadle herr ⊢
      dsimp only at hh hreadle herr ⊢
      by_cases hr : (read v data s.extentOffset n m s.cache).err ≠ 0
      · rw [if_pos hr] at herr
        exact absurd herr hr
      rw [if_neg hr] at hh hreadle herr ⊢
      obtain ⟨hmem, hcoh, hclean⟩ := hs.read (by omega) (by omega)
        (fun j hj => hapart j (by omega)) (hh.mono (Nat.le_refl _) hreadle) (not_not.mp hr)
      have hcalls := read_calls_le v data s.extentOffset n m s.cache
      have hs' := hs.refill hv (by omega) (by omega) hcoh hclean
        (hh.mono hcalls (readExtentLoop_calls_le _ _ _ _ _ _))
      have hdel := ih (data + n) (len - n) _ _ _ (by omega) hs'
        (fun j hj a ha => hapart (n + j) (by omega) a ha)
        (hh.mono (Nat.le_trans hcalls (refill_calls_le v (s.advance n _))) (Nat.le_refl _)) herr
      rw [hmem] at hdel ⊢
      exact .piece (fun j hj => hs.first (by omega)) (fun _ => rfl) hdel

/-- No byte to be delivered lies in a sector of the table that reading on may look at. -/
def Apart (v : Volume) (s : State) (len : Nat) : Prop :=
  ∀ j < len, ∀ a, remaining v s j = some a → ¬ TableSector v s (v.sector a)

theorem readExtent_harmless {v : Volume} (hv : v.OK) {data len : Nat} {m : Mem UInt8} {s : State}
    (hs : Ready v s) (hapart : Apart v s len)
    (hh : Harmless v.dev s.cache.calls (readExtent v data len m s).st.cache.calls)
    (herr : (readExtent v data len m s).err = 0) :
    Delivers v (remaining v s) data len (readExtent v data len m s).mem :=
  readExtentLoop_harmless hv len data len m s _ (Nat.le_refl _) hs.sound hapart hh herr

/-- What is stored of a stream that is long enough is the stream. -/
theorem Takes.delivers {v : Volume} {data len : Nat} {m : Mem UInt8} {s : State} {r : ExtentRes}
    (h : Takes v s data len m r) (herr : r.err = 0) :
    Delivers v (remaining v s) data len r.mem := by
  obtain ⟨hiff, hmem, -⟩ := h
  have hhas := hiff.mp herr
  intro j hj
  obtain ⟨a, ha⟩ := Option.isSome_iff_exists.mp (hhas j hj)
  refine ⟨a, ha, ?_⟩
  rw [hmem, Mem.store_at _ _ _ hj]
  unfold streamByte
  rw [ha]
  rfl

/-- What a call of `read_extent` needs of the device: every request is answered in full, or the
failures do no harm and the data lies apart from the table. -/
def Served (v : Volume) (s : State) (len : Nat) (r : ExtentRes) : Prop :=
  Full v.dev s.cache.calls r.st.cache.calls ∨
    Apart v s len ∧ Harmless v.dev s.cache.calls r.st.cache.calls

theorem readExtent_served {v : Volume} (hv : v.OK) {data len : Nat} {m : Mem UInt8} {s : State}
    (hs : Ready v s) (hserved : Served v s len (readExtent v data len m s))
    (herr : (readExtent v data len m s).err = 0) :
    Delivers v (remaining v s) data len (readExtent v data len m s).mem := by
  rcases hserved with hfull | ⟨hapart, hh⟩
  · exact (readExtent_full hv data len m hs hfull).delivers herr
  · exact readExtent_harmless hv hs hapart hh herr

/-- `ReadTrue` for `read_extent`. -/
def ExtentTrue (v : Volume) (data len : Nat) (s : State) : Prop :=
  ∀ (junk : Nat → Mem UInt8) (m : Mem UInt8),
    (readExtent (v.withJunk junk) data len m s).err = 0 →
      Delivers v (remaining v s) data len (readExtent (v.withJunk junk) data len m s).mem

/-- As long as the current extent lasts, `read_extent` is one `read`. -/
theorem readExtent_within {v : Volume} (data : Nat) {len : Nat} (m : Mem UInt8) {s : State}
    (hlen : len ≤ s.extentLen) :
    (readExtent v data len m s).err = (read v data s.extentOffset len m s.cache).err ∧
      (readExtent v data len m s).mem = (read v data s.extentOffset len m s.cache).mem := by
  unfold readExtent
  cases len with
  | zero => exact ⟨rfl, rfl⟩
  | succ k =>
      rw [readExtentLoop, if_neg (by omega), if_neg (by omega), Nat.min_eq_left hlen]
      dsimp only
      split
      · exact ⟨rfl, rfl⟩
      · rename_i hzero
        rw [Nat.sub_self]
        have hstop : ∀ fuel d m' s', readExtentLoop v fuel d 0 m' s' = ⟨0, m', s'⟩ := by
          intro fuel d m' s'
          cases fuel <;> simp [readExtentLoop]
        rw [hstop]
        exact ⟨(not_not.mp hzero).symm, rfl⟩

theorem extentTrue_iff_readTrue {v : Volume} {data len : Nat} {s : State}
    (hlen : len ≤ s.extentLen) :
    ExtentTrue v data len s ↔ ReadTrue v data s.extentOffset len s.cache := by
  have hloc : ∀ j < len, remaining v s j = some (s.extentOffset + j) := by
    intro j hj
    unfold remaining
    rw [if_pos (by omega)]
  unfold ExtentTrue ReadTrue Delivers
  refine forall_congr' fun junk => forall_congr' fun m => ?_
  obtain ⟨herr, hmem⟩ := readExtent_within (v := v.withJunk junk) data m hlen
  rw [herr, hmem]
  refine imp_congr_right fun _ => forall_congr' fun j => imp_congr_right fun hj => ?_
  rw [hloc j hj]
  simp

/--
**When success means the data.**  For `read`, exactly when all its requests are answered in
full or a negative answer to a request for `raw_buf` stops it; and the same for `read_extent`
and `fat_read` within the current extent.  Beyond it they have to look into the table: there
it is enough that all requests are answered in full, or that negative answers to requests for
`raw_buf` are the only failures the device shows and the table shares no sector with the data.
-/
theorem success_means_data (v : Volume) :
    (∀ (data offset len : Nat) (c : Cache), v.InRange offset len → Coherent v.dev c →
      (ReadTrue v data offset len c
        ↔ AllFull v.dev c.calls (requests v data offset len c.current) ∨
          Aborts v.dev c.calls (requests v data offset len c.current))) ∧
    (∀ (data len : Nat) (s : State), Ready v s → len ≤ s.extentLen →
      (ExtentTrue v data len s
        ↔ AllFull v.dev s.cache.calls (requests v data s.extentOffset len s.cache.current) ∨
          Aborts v.dev s.cache.calls (requests v data s.extentOffset len s.cache.current))) ∧
    (v.OK →
      (∀ (data len : Nat) (m : Mem UInt8) (s : State), Ready v s →
        Served v s len (readExtent v data len m s) → (readExtent v data len m s).err = 0 →
        Delivers v (remaining v s) data len (readExtent v data len m s).mem) ∧
      (∀ (data len : Nat) (m : Mem UInt8) (s : State), Ready v s →
        Served v s len (fatRead v data len m s) → (fatRead v data len m s).err = 0 →
        Delivers v (remaining v s) data len (fatRead v data len m s).mem)) := by
  refine ⟨fun _ _ _ _ hr hc => read_true_iff hr hc, fun data len s hs hlen => ?_, fun hv =>
    ⟨fun data len m s hs hserved herr => ?_, fun data len m s hs hserved herr => ?_⟩⟩
  · rw [extentTrue_iff_readTrue hlen]
    by_cases hext : s.extentLen = 0
    · obtain rfl : len = 0 := by omega
      exact ⟨fun _ => Or.inl (allFull_nil _ _), fun _ _ _ _ i hi => absurd hi (Nat.not_lt_zero i)⟩
    · exact read_true_iff ((hs.extent hext).shorten hlen) hs.coherent
  · exact readExtent_served hv hs hserved herr
  · exact readExtent_served hv hs hserved herr

/-- A read of the stick's first cluster, and a load of its whole file. -/
theorem stick_success_means_data :
    ReadTrue stick 0 0x600 0x200 State.fresh.cache ∧
      Delivers stick (chainLoc stick 2) 0 600
        (fatRead stick 0 600 (fun _ => 0) (getExtent stick 2 State.fresh)).mem := by
  obtain ⟨hready, hrem, -⟩ := getExtent_full stick_ok (c := 2) (by decide)
    (stick_chainOK (by decide)) (State.fresh_coherent stick.dev) fun _ _ _ _ => rfl
  have hnext : (getExtent stick 2 State.fresh).extentNextCluster = 0 := by decide +kernel
  obtain ⟨hread, -, hlong⟩ := success_means_data stick
  obtain ⟨-, hload⟩ := hlong stick_ok
  refine ⟨(hread _ _ _ _ (by unfold Volume.InRange; decide) (State.fresh_coherent stick.dev)).mpr
    (Or.inl fun _ _ _ => rfl), ?_⟩
  have hstream : remaining stick (getExtent stick 2 State.fresh) = chainLoc stick 2 := hrem
  rw [← hstream]
  exact hload 0 600 _ _ hready
    (Or.inr ⟨fun _ _ _ _ h => h.1 hnext, fun _ _ _ => ⟨rfl, Or.inl rfl⟩⟩) (by decide +kernel)

theorem minusOne_range : (-2 : Int) ^ 31 ≤ -1 ∧ (-1 : Int) ≤ 0 := by decide

/-- The stick on a device that answers every read by `-1` and transfers nothing. -/
def deadStick : Volume :=
  { stick with dev := { stickDev with answer := fun _ _ => .failed (-1) minusOne_range } }

/-- An aligned read of a sector from the dead stick returns zero, without the data. -/
theorem deadStick_read_succeeds :
    Coherent deadStick.dev State.fresh.cache ∧
      (read deadStick 0 0x600 0x200 (fun _ => 0) State.fresh.cache).err = 0 ∧
      (read deadStick 0 0x600 0x200 (fun _ => 0) State.fresh.cache).mem 0
        ≠ deadStick.byte 0x600 :=
  ⟨State.fresh_coherent deadStick.dev, by decide +kernel, by decide +kernel⟩

end Xell.Fat
