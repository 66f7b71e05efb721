/-
What an opened file exposes.

A file owns the clusters of its chain and nothing else, and a file of no bytes owns none:
its entry has zero where others have the number of the first cluster.  `get_extent` takes
zero as the name of the root directory, which is what a `..` entry means by it.

`Within` is the invariant: the current extent lies in clusters of the chain, and the
next cluster is one of them.  Every step of `read_extent` keeps it, so that whatever is
read lies in the file, unless the start cluster is zero.  Then it is the root directory
that is read, and there is always some of it, since it is where the file was found.

Nothing is assumed of the image but that the file's clusters have sector numbers.  The
table is followed as its format says, so that a chain counts only as far as `get_fat`
finds its entries.
-/
import Xell.Proofs.Fat.Entry

namespace Xell.Fat

open Boot (xenonPath)

/-! ### The clusters of a file -/

/-- The cluster at place `i` of the chain from `c`, by the table itself. -/
def ownAt (v : Volume) : Nat → Nat → Option Nat
  | 0, c => if 2 ≤ c ∧ c < v.clusters + 2 then some c else none
  | i + 1, c =>
      if 2 ≤ c ∧ c < v.clusters + 2 then ownAt v i (tableEntry v.table v.fatType c) else none

/-- A position of the partition lies in a cluster. -/
def Volume.InCluster (v : Volume) (d p : Nat) : Prop :=
  v.clusterOffset d ≤ p ∧ p < v.clusterOffset d + v.bytesPerCluster

/-- A position lies in a cluster of the file that starts at `c`. -/
def Owns (v : Volume) (c p : Nat) : Prop := ∃ i d, ownAt v i c = some d ∧ v.InCluster d p

/--
All that later calls of `fat_read` deliver with result zero lies in clusters of the file.
For a file without clusters that means that nothing is delivered.
-/
def ExposesOwn (v : Volume) (c : Nat) (s : State) : Prop :=
  ∀ (calls : List (Nat × Nat)) (m : Mem UInt8), ∀ r ∈ readExtents v calls m s, r.1 = 0 →
    ∃ places : List Nat, r.2 = places.map v.byte ∧ ∀ p ∈ places, Owns v c p

/-- The file's sectors have numbers, and its entries are found. -/
structure FileOK (v : Volume) (c : Nat) : Prop where
  fat : ∀ i d, ownAt v i c = some d → v.InRange (v.fatOffset + d * v.fatType.bits / 8) 4
  data : ∀ i d, ownAt v i c = some d → v.InRange (v.clusterOffset d) v.bytesPerCluster
  entries : ∀ i d, ownAt v i c = some d → d * v.fatType.bits < 2 ^ 32

variable {v : Volume}

theorem ownAt_of_not (i : Nat) {c : Nat} (h : ¬ (2 ≤ c ∧ c < v.clusters + 2)) :
    ownAt v i c = none := by
  cases i with
  | zero => rw [ownAt, if_neg h]
  | succ i => rw [ownAt, if_neg h]

theorem ownAt_range :
    ∀ {i c d : Nat}, ownAt v i c = some d → 2 ≤ d ∧ d < v.clusters + 2 := by
  intro i
  induction i with
  | zero =>
      intro c d h
      rw [ownAt] at h
      split at h
      · rename_i hval
        cases h
        exact hval
      · simp at h
  | succ i ih =>
      intro c d h
      rw [ownAt] at h
      split at h
      · exact ih h
      · simp at h

/-- Every file of a volume will do if the whole of the volume does. -/
theorem FileOK.of_volume (hsmall : (v.clusters + 2) * v.fatType.bits < 2 ^ 32)
    (hfat : v.InRange v.fatOffset (2 ^ 29 + 4))
    (hdata : v.InRange v.dataOffset (v.bytesPerCluster * v.clusters)) (c : Nat) : FileOK v c := by
  have hbits : ∀ d, d < v.clusters + 2 → d * v.fatType.bits < 2 ^ 32 := fun d hd =>
    Nat.lt_of_le_of_lt (Nat.mul_le_mul_right _ (Nat.le_of_lt hd)) hsmall
  refine ⟨fun i d hd => ?_, fun i d hd => ?_, fun i d hd => hbits d (ownAt_range hd).2⟩
  · have := hbits d (ownAt_range hd).2
    unfold Volume.InRange at hfat ⊢
    omega
  · obtain ⟨hlo, hhi⟩ := ownAt_range hd
    have hlt := v.clusters_lt
    have hsub : sub32 d 2 + 1 ≤ v.clusters := by
      unfold sub32
      omega
    have hmul := Nat.mul_le_mul_left v.bytesPerCluster hsub
    rw [Nat.mul_add, Nat.mul_one] at hmul
    unfold Volume.InRange at hdata ⊢
    unfold Volume.clusterOffset
    omega

theorem Volume.seen_inRange {a i n : Nat} (h : v.InRange a n) (hi : i < n) :
    v.seen (a + i) = v.byte (a + i) := by
  unfold Volume.InRange at h
  unfold Volume.seen Volume.byte
  rw [Bdev.seen_eq, Nat.mod_eq_of_lt (by omega)]

theorem fatEntry_eq {c : Nat} (hbits : c * v.fatType.bits < 2 ^ 32)
    (hr : v.InRange (v.fatOffset + c * v.fatType.bits / 8) 4) :
    v.fatEntry c = tableEntry v.table v.fatType c := by
  have hu : u32 (c * v.fatType.bits) = c * v.fatType.bits := Nat.mod_eq_of_lt hbits
  rw [← decode_entry v.table v.fatType hbits]
  unfold Volume.fatEntry Volume.entryBits
  congr 3
  refine le32_congr fun i hi => ?_
  rw [hu, Nat.zero_add, ← Volume.seen_inRange hr hi, Nat.add_assoc]
  rfl

/-- Where the entries are found, `get_fat` goes along the file's own chain. -/
theorem chainAt_own (hn : v.clusters + 2 < 2 ^ 32) :
    ∀ (i c : Nat), c < 2 ^ 32 → FileOK v c → chainAt v i c = ownAt v i c := by
  intro i
  induction i with
  | zero =>
      intro c hc _
      rw [chainAt, ownAt]
      simp only [Volume.valid_iff hn hc]
  | succ i ih =>
      intro c hc hok
      rw [chainAt, ownAt]
      simp only [Volume.valid_iff hn hc]
      by_cases hval : 2 ≤ c ∧ c < v.clusters + 2
      · have hself : ownAt v 0 c = some c := by rw [ownAt, if_pos hval]
        have hentry := fatEntry_eq (hok.entries 0 c hself) (hok.fat 0 c hself)
        have hrest : ∀ {j e}, ownAt v j (v.fatEntry c) = some e → ownAt v (j + 1) c = some e := by
          intro j e he
          rw [ownAt, if_pos hval, ← hentry]
          exact he
        rw [if_pos hval, if_pos hval, ← hentry]
        refine ih _ (by have := v.fatEntry_lt c; omega) ⟨?_, ?_, ?_⟩
        · exact fun j e he => hok.fat (j + 1) e (hrest he)
        · exact fun j e he => hok.data (j + 1) e (hrest he)
        · exact fun j e he => hok.entries (j + 1) e (hrest he)
      · rw [if_neg hval, if_neg hval]

/-! ### Reading stays within the chain -/

/-- A position lies in a cluster that `get_fat` leads to. -/
def OnChain (v : Volume) (c p : Nat) : Prop := ∃ i d, chainAt v i c = some d ∧ v.InCluster d p

structure Within (v : Volume) (c : Nat) (s : State) : Prop where
  coherent : Coherent v.dev s.cache
  range : s.extentLen ≠ 0 → v.InRange s.extentOffset s.extentLen
  extent : ∀ j < s.extentLen, OnChain v c (s.extentOffset + j)
  next : s.extentNextCluster ≠ 0 → ∃ i, chainAt v i c = some s.extentNextCluster

section Within

variable {c : Nat} (hn : v.clusters + 2 < 2 ^ 32) (hfull : ∀ k t, v.dev.answer k t = .full)
  (hc : c < 2 ^ 32) (hfat : EntriesOK v c)
  (hdata : ∀ i d, chainAt v i c = some d → v.InRange (v.clusterOffset d) v.bytesPerCluster)

include hn hfull hc hfat hdata

/-- An extent may be cut short where its length wraps, but it does not leave the chain. -/
theorem getExtent_within {i d : Nat} (hd : chainAt v i c = some d) {s : State}
    (hcoh : Coherent v.dev s.cache) : Within v c (getExtent v d s) := by
  have hdlt : d < 2 ^ 32 := by
    cases i with
    | zero =>
        rw [chainAt_zero (valid_of_chainAt hd), Option.some.injEq] at hd
        omega
    | succ i =>
        have := chainAt_succ_lt hd
        omega
  have hval := chainAt_valid hd
  have hrange := (Volume.valid_iff hn hdlt).mp hval
  have hroot : ¬ isRootArea v d := fun h => by
    have := h.1
    omega
  have hstart : startCluster v d = d := if_neg (by omega)
  rw [getExtent_chain s hroot (by rwa [hstart]), hstart]
  obtain ⟨n, hrun, -, hlen, hoff, -, hcoh'⟩ := getExtentLoop_run hn v.clusters d { s with
      extentOffset := u64 (v.clusterOffset d)
      extentLen := 0
      extentNextCluster := 0 } hval hdlt (by omega) (hfat.suffix hd) hcoh rfl fun k _ _ => hfull k
  generalize getExtentLoop v v.clusters _ _ = s' at hrun hlen hoff hcoh' ⊢
  have hplace : ∀ k < n, chainAt v (i + k) c = some (d + k) := by
    intro k hk
    rw [chainAt_add k hd]
    exact hrun.consecutive k hk
  have hin := inRange_run hn hdlt (fun j e he => hdata (i + j) e (by rw [chainAt_add j hd]; exact he))
    hrun.pos hrun.consecutive
  have hle : s'.extentLen ≤ n * v.bytesPerCluster := by
    rw [hlen, Nat.zero_add]
    exact Nat.mod_le _ _
  have hoff' : s'.extentOffset = v.clusterOffset d := by
    rw [hoff]
    unfold Volume.InRange at hin
    exact Nat.mod_eq_of_lt (by omega)
  refine ⟨hcoh', fun _ => ?_, fun j hj => ?_, fun hnext => ?_⟩
  · rw [hoff']
    exact hin.shorten hle
  · have hk : j / v.bytesPerCluster < n := Nat.div_lt_of_lt_mul (by rw [Nat.mul_comm]; omega)
    have hpos : 0 < v.bytesPerCluster := by
      refine Nat.pos_of_ne_zero fun hz => ?_
      rw [hz, Nat.mul_zero] at hle
      omega
    refine ⟨_, _, hplace _ hk, ?_⟩
    unfold Volume.InCluster
    rw [clusterOffset_run hn hdlt hrun.consecutive hk, hoff']
    have hdiv := Nat.div_add_mod j v.bytesPerCluster
    have hmod := Nat.mod_lt j hpos
    omega
  · have hafter := hrun.after
    rw [if_neg hnext] at hafter
    exact ⟨i + n, by rw [chainAt_add n hd]; exact hafter⟩

/-- One piece off the extent, and the next extent where that was all of it. -/
theorem Within.refill {s : State} (h : Within v c s) {n : Nat} (hle : n ≤ s.extentLen) {ca : Cache}
    (hca : Coherent v.dev ca) : Within v c (refill v (s.advance n ca)) := by
  by_cases hcond : (s.advance n ca).extentLen = 0 ∧ (s.advance n ca).extentNextCluster ≠ 0
  · obtain ⟨i, hi⟩ := h.next hcond.2
    unfold Fat.refill
    rw [if_pos hcond]
    exact getExtent_within hn hfull hc hfat hdata hi (s := s.advance n ca) hca
  · unfold Fat.refill
    rw [if_neg hcond]
    have hlen : (s.advance n ca).extentLen = s.extentLen - n := rfl
    have hoff : s.extentLen ≠ 0 → (s.advance n ca).extentOffset = s.extentOffset + n := by
      intro hne
      have hin := h.range hne
      unfold Volume.InRange at hin
      exact Nat.mod_eq_of_lt (by omega)
    refine ⟨hca, fun hne => ?_, fun j hj => ?_, h.next⟩
    · have hin := h.range (by omega)
      rw [hoff (by omega), hlen]
      unfold Volume.InRange at hin ⊢
      omega
    · rw [hoff (by omega), Nat.add_assoc]
      exact h.extent (n + j) (by omega)

theorem readExtentLoop_within :
    ∀ (fuel data len : Nat) (m : Mem UInt8) (s : State), len ≤ fuel → Within v c s →
      Within v c (readExtentLoop v fuel data len m s).st ∧
        ((readExtentLoop v fuel data len m s).err = 0 →
          ∃ loc : Nat → Nat, (∀ j < len, OnChain v c (loc j)) ∧
            (readExtentLoop v fuel data len m s).mem = m.store data len fun j => v.byte (loc j)) := by
  intro fuel
  induction fuel with
  | zero =>
      intro data len m s hlen h
      obtain rfl : len = 0 := by omega
      exact ⟨h, fun _ => ⟨id, by omega, (Mem.store_zero _ _ _).symm⟩⟩
  | succ fuel ih =>
      intro data len m s hfuel h
      by_cases hlen : len = 0
      · subst hlen
        rw [readExtentLoop, if_pos rfl]
        exact ⟨h, fun _ => ⟨id, by omega, (Mem.store_zero _ _ _).symm⟩⟩
      by_cases hext : s.extentLen = 0
      · rw [readExtentLoop, if_neg hlen, if_pos hext]
        exact ⟨h, fun herr => by simp at herr⟩
      obtain ⟨n, hnmin⟩ : ∃ n, n = min len s.extentLen := ⟨_, rfl⟩
      obtain ⟨herr, hmem, hcoh⟩ := @read_full v data s.extentOffset n m s.cache
        ((h.range hext).shorten (show n ≤ s.extentLen by omega)) h.coherent fun k _ _ => hfull k
      rw [readExtentLoop_piece fuel data m hlen hext hnmin]
      dsimp only
      rw [if_neg (by simp [herr]), hmem]
      obtain ⟨hwithin, hdeliver⟩ := ih (data + n) (len - n)
        (m.store data n fun i => v.byte (s.extentOffset + i)) _ (by omega)
        (h.refill hn hfull hc hfat hdata (n := n) (by omega) hcoh)
      refine ⟨hwithin, fun hzero => ?_⟩
      obtain ⟨loc, hloc, hrest⟩ := hdeliver hzero
      -- the places of this piece, and then those of the rest
      refine ⟨fun j => if j < n then s.extentOffset + j else loc (j - n), fun j hj => ?_, ?_⟩
      · dsimp only
        split
        · exact h.extent j (by omega)
        · exact hloc (j - n) (by omega)
      · have happ := Mem.store_append m data n (len - n)
          fun j => v.byte (if j < n then s.extentOffset + j else loc (j - n))
        rw [Nat.add_sub_cancel' (show n ≤ len by omega)] at happ
        rw [hrest, ← happ]
        have hfirst : (m.store data n fun i => v.byte (s.extentOffset + i))
            = m.store data n fun j => v.byte (if j < n then s.extentOffset + j else loc (j - n)) :=
          Mem.store_congr _ _ fun j hj => by rw [if_pos hj]
        rw [hfirst]
        refine Mem.store_congr _ _ fun j _ => ?_
        rw [if_neg (by omega), Nat.add_sub_cancel_left]

/-- **Calls of `fat_read` deliver nothing but what lies on the chain.** -/
theorem readExtents_onChain :
    ∀ (calls : List (Nat × Nat)) (m : Mem UInt8) (s : State), Within v c s →
      ∀ r ∈ readExtents v calls m s, r.1 = 0 →
        ∃ places : List Nat, r.2 = places.map v.byte ∧ ∀ p ∈ places, OnChain v c p := by
  intro calls
  induction calls with
  | nil => intro m s _ r hr; simp [readExtents] at hr
  | cons call calls ih =>
      obtain ⟨data, len⟩ := call
      intro m s h r hr hzero
      obtain ⟨hwithin, hdeliver⟩ := readExtentLoop_within hn hfull hc hfat hdata len data len m s
        (Nat.le_refl _) h
      rcases List.mem_cons.mp hr with rfl | hlater
      · obtain ⟨loc, hloc, hmem⟩ := hdeliver hzero
        refine ⟨(List.range len).map loc, ?_, fun p hp => ?_⟩
        · show (readExtentLoop v len data len m s).mem.slice data len = _
          rw [hmem, Mem.slice_store, List.map_map]
          rfl
        · obtain ⟨j, hj, rfl⟩ := List.mem_map.mp hp
          exact hloc j (List.mem_range.mp hj)
      · exact ih _ _ hwithin r hlater hzero

end Within

/-! ### The entry that is opened -/

/-- Looking up `p` in the directory at `c`, `fat_open` ends at the entry `e`.  As in `Visits`, a
component that is not there is skipped. -/
inductive OpensAt (v : Volume) : List UInt8 → Nat → Mem UInt8 → Prop
  | last {p : List UInt8} {c : Nat} {e : Mem UInt8} (hne : peek p ≠ 0) (hmore : more p = false)
      (h : Ends v (parseComponent p).1 (more p) c (.found e)) : OpensAt v p c e
  | found {p : List UInt8} {c : Nat} {d e : Mem UInt8} (hne : peek p ≠ 0) (hmore : more p = true)
      (h : Ends v (parseComponent p).1 (more p) c (.found d))
      (hrest : OpensAt v (parseComponent p).2 (dirCluster v d) e) : OpensAt v p c e
  | skipped {p : List UInt8} {c : Nat} {e : Mem UInt8} (hne : peek p ≠ 0)
      (h : Ends v (parseComponent p).1 (more p) c .exhausted)
      (hrest : OpensAt v (parseComponent p).2 c e) : OpensAt v p c e

/-- A scan that returns does so with an error. -/
theorem Ends.returned {name : List UInt8} {m : Bool} {c : Nat} {err : Int}
    (h : Ends v name m c (.returned err)) : err ≠ 0 := by
  generalize hr : ScanEnd.returned err = r at h
  induction h with
  | zero _ _ _ =>
      cases hr
      decide
  | found _ _ _ _ => simp at hr
  | empty _ => simp at hr
  | last _ _ => simp at hr
  | next _ _ _ ih => exact ih hr

theorem Ends.entries_pos {name : List UInt8} {m : Bool} {c : Nat} {e : Mem UInt8}
    (h : Ends v name m c (.found e)) : 0 < entries v c := by
  cases h with
  | found hj _ _ _ => omega
  | next hq _ _ => exact hq.1

/-- Some of the directory a path is looked up in is there, if the path leads anywhere. -/
theorem OpensAt.entries_pos {p : List UInt8} {c : Nat} {e : Mem UInt8} (h : OpensAt v p c e) :
    0 < entries v c := by
  induction h with
  | last _ _ h => exact h.entries_pos
  | found _ _ h _ _ => exact h.entries_pos
  | skipped _ _ _ ih => exact ih

section Opens

variable (hv : v.Even) (hfull : ∀ k t, v.dev.answer k t = .full)

include hv hfull

/-- A scan that gives a result has ended in that way. -/
theorem ends_of_scan {name : List UInt8} {m : Bool} {c fuel : Nat} {s s' : State} {r : ScanEnd}
    (hs : Starts v (extent v c) s) (h : scan v name m fuel s = some (r, s')) :
    Ends v name m c r ∧ Holds v.dev s'.cache := by
  have hcases : (∃ r, Ends v name m c r) ∨ Endless v name m c := ends_or_endless hv c
  rcases hcases with ⟨r', hr'⟩ | hendless
  · obtain ⟨fuel', t, hscan, hhold⟩ := scan_ends hv hfull hr' s hs
    obtain ⟨rfl, rfl⟩ := Prod.mk.inj (scan_unique h hscan)
    exact ⟨hr', hhold⟩
  · rw [scan_endless hv hfull hendless fuel hs] at h
    simp at h

theorem Ends.unique {name : List UInt8} {m : Bool} {c : Nat} {r r' : ScanEnd}
    (h : Ends v name m c r) (h' : Ends v name m c r') : r = r' := by
  have hs := getExtent_starts hfull c (s := { State.fresh with cache := firstSector v.dev })
    (firstSector_holds v.dev)
  obtain ⟨fuel, s, hscan, -⟩ := scan_ends hv hfull h _ hs
  obtain ⟨fuel', s', hscan', -⟩ := scan_ends hv hfull h' _ hs
  exact (Prod.mk.inj (scan_unique hscan hscan')).1

/-- A path is opened at one entry only. -/
theorem OpensAt.unique {p : List UInt8} {c : Nat} {e : Mem UInt8} (h : OpensAt v p c e) :
    ∀ {e' : Mem UInt8}, OpensAt v p c e' → e = e' := by
  induction h with
  | last _ hmore h =>
      intro e' h'
      cases h' with
      | last _ _ h' => exact ScanEnd.found.inj (h.unique hv hfull h')
      | found _ hmore' _ _ => rw [hmore] at hmore'; simp at hmore'
      | skipped _ h' _ => exact absurd (h.unique hv hfull h') (by simp)
  | found _ hmore h _ ih =>
      intro e' h'
      cases h' with
      | last _ hmore' _ => rw [hmore] at hmore'; simp at hmore'
      | found _ _ h' hrest =>
          obtain rfl := ScanEnd.found.inj (h.unique hv hfull h')
          exact ih hrest
      | skipped _ h' _ => exact absurd (h.unique hv hfull h') (by simp)
  | skipped _ h _ ih =>
      intro e' h'
      cases h' with
      | last _ _ h' => exact absurd (h.unique hv hfull h') (by simp)
      | found _ _ h' _ => exact absurd (h.unique hv hfull h') (by simp)
      | skipped _ _ hrest => exact ih hrest

/-- **What `fat_open` opens** is the entry the path ends at. -/
theorem fatOpenLoop_opensAt {fuel : Nat} {st : State} :
    ∀ (n : Nat) (p : List UInt8) (c : Nat) (s : State), Holds v.dev s.cache →
      fatOpenLoop v fuel n p c s = some (0, st) →
      ∃ e s', OpensAt v p c e ∧ st = opened v e s' ∧ Holds v.dev s'.cache := by
  intro n
  induction n with
  | zero => intro p c s _ h; simp [fatOpenLoop] at h
  | succ n ih =>
      intro p c s hs h
      have hends : ∀ {stop : ScanEnd} {s' : State},
          scan v (parseComponent p).1 (more p) fuel (getExtent v c s) = some (stop, s') →
          Ends v (parseComponent p).1 (more p) c stop ∧ Holds v.dev s'.cache :=
        fun hscan => ends_of_scan hv hfull (getExtent_starts hfull c hs) hscan
      cases fatOpenLoop_turn h with
      | returned _ hscan => exact absurd rfl (hends hscan).1.returned
      | exhausted hne hscan hrest =>
          obtain ⟨e, t, hopens, hst, ht⟩ := ih _ _ _ (hends hscan).2 hrest
          exact ⟨e, t, .skipped hne (hends hscan).1 hopens, hst, ht⟩
      | @last e s' hne hmore hscan =>
          exact ⟨e, s', .last hne hmore (hends hscan).1, rfl, (hends hscan).2⟩
      | sub hne hmore hscan hrest =>
          obtain ⟨e, t, hopens, hst, ht⟩ := ih _ _ _ (hends hscan).2 hrest
          exact ⟨e, t, .found hne hmore (hends hscan).1 hopens, hst, ht⟩

end Opens

/-! ### The empty file -/

theorem not_owns_zero (p : Nat) : ¬ Owns v 0 p := by
  rintro ⟨i, d, hd, -⟩
  rw [ownAt_of_not i (by omega)] at hd
  simp at hd

/-- Where there is a root directory, a start cluster of zero exposes it. -/
theorem not_exposesOwn_zero (hfull : ∀ k t, v.dev.answer k t = .full) (hroot : 0 < entries v 0)
    {s : State} (hs : Holds v.dev s.cache) : ¬ ExposesOwn v 0 (getExtent v 0 s) := by
  intro h
  have hstart := getExtent_starts hfull 0 hs
  have hlen : (getExtent v 0 s).extentLen ≠ 0 := by
    rw [hstart.len]
    unfold entries at hroot
    omega
  obtain ⟨herr, -, -⟩ := read_seen hfull 0 (getExtent v 0 s).extentOffset (fun _ => 0)
    (show 1 < 0x200 by decide) hstart.holds
  have hzero : (readExtent v 0 1 (fun _ => 0) (getExtent v 0 s)).err = 0 := by
    unfold readExtent
    rw [readExtentLoop, if_neg (by decide), if_neg hlen, Nat.min_eq_left (by omega)]
    dsimp only
    rw [if_neg (by simp [herr])]
    rfl
  obtain ⟨places, hbytes, howns⟩ := h [(0, 1)] (fun _ => 0) _ (List.mem_singleton_self _) hzero
  have hlength := congrArg List.length hbytes
  simp only [Mem.slice_length, List.length_map] at hlength
  cases places with
  | nil => simp at hlength
  | cons p places => exact not_owns_zero p (howns p List.mem_cons_self)

/--
**When an opened file exposes only its own clusters**: exactly when its start cluster is not
zero.  The path may be any that `fat_open` returns zero for, on any volume of a boot sector.
-/
theorem opened_exposes_own_iff (v : Volume) (hv : v.Even) (hn : v.clusters + 2 < 2 ^ 32)
    (hfull : ∀ k t, v.dev.answer k t = .full) (fuel : Nat) (path : List UInt8) (s st : State)
    (hs : Holds v.dev s.cache) (hopen : fatOpen v fuel path s = some (0, st)) :
    (∃ e, OpensAt v path 0 e) ∧ ∀ e, OpensAt v path 0 e → FileOK v (dirCluster v e) →
      (ExposesOwn v (dirCluster v e) st ↔ dirCluster v e ≠ 0) := by
  obtain ⟨e, s', hopens, rfl, hs'⟩ := fatOpenLoop_opensAt hv hfull _ path 0 s hs hopen
  refine ⟨⟨e, hopens⟩, fun e' he' hok => ?_⟩
  obtain rfl := hopens.unique hv hfull he'
  constructor
  · intro hexp hzero
    unfold opened at hexp
    rw [hzero] at hexp
    exact not_exposesOwn_zero hfull hopens.entries_pos
      (s := { s' with fatFileSize := le32 e 0x1c }) hs' hexp
  · intro hne calls m r hr hzero
    have hlt := dirCluster_lt v e
    have hchain := fun i => chainAt_own hn i (dirCluster v e) hlt hok
    have hfat : EntriesOK v (dirCluster v e) := by
      intro i d hd
      rw [hchain] at hd
      have hin := hok.fat i d hd
      rwa [← show v.entryBits d = d * v.fatType.bits from Nat.mod_eq_of_lt (hok.entries i d hd)] at hin
    have hdata : ∀ i d, chainAt v i (dirCluster v e) = some d →
        v.InRange (v.clusterOffset d) v.bytesPerCluster := by
      intro i d hd
      rw [hchain] at hd
      exact hok.data i d hd
    have hcoh : Coherent v.dev s'.cache := fun _ => hs'
    have hwithin : Within v (dirCluster v e) (opened v e s') := by
      by_cases hval : v.valid (dirCluster v e)
      · exact getExtent_within hn hfull hlt hfat hdata (chainAt_zero hval)
          (s := { s' with fatFileSize := le32 e 0x1c }) hcoh
      · have hstart : startCluster v (dirCluster v e) = dirCluster v e := if_neg hne
        unfold opened
        rw [getExtent_invalid _ (fun h => hne h.1) (by rwa [hstart])]
        exact ⟨hcoh, fun h => absurd rfl h, fun j hj => absurd hj (Nat.not_lt_zero j),
          fun h => absurd rfl h⟩
    obtain ⟨places, hbytes, hplaces⟩ := readExtents_onChain hn hfull hlt hfat hdata calls m _ hwithin
      r hr hzero
    refine ⟨places, hbytes, fun p hp => ?_⟩
    obtain ⟨i, d, hd, hin⟩ := hplaces p hp
    exact ⟨i, d, by rw [← hchain]; exact hd, hin⟩

/-- The file of the stick, with its root directory, its table and its two clusters. -/
theorem shortStick_opened_exposes_own :
    ∃ st, fatOpen shortStick 2 xenonPath State.fresh = some (0, st) ∧ ExposesOwn shortStick 2 st := by
  have hholds : Holds shortStick.dev State.fresh.cache := fresh_holds fun i _ => if_neg (by omega)
  rcases hopen : fatOpen shortStick 2 xenonPath State.fresh with _ | ⟨err, st⟩
  · exact absurd hopen (by decide +kernel)
  have herr : err = 0 := by
    have hmap := congrArg (Option.map Prod.fst) hopen
    exact (Option.some.inj (hmap.symm.trans (by decide +kernel)))
  subst herr
  obtain ⟨-, hall⟩ := opened_exposes_own_iff shortStick rfl (by decide) (fun _ _ => rfl) 2 xenonPath
    State.fresh st hholds hopen
  have hopens : OpensAt shortStick xenonPath 0 (entryIn shortStick 0 0) :=
    .last (by decide) (by decide) (.found (by decide +kernel) (by omega) (by decide +kernel)
      (by decide +kernel))
  have hcluster : dirCluster shortStick (entryIn shortStick 0 0) = 2 := by decide +kernel
  have hiff := hall _ hopens
  rw [hcluster] at hiff
  refine ⟨st, rfl, (hiff ?_).mpr (by decide)⟩
  exact FileOK.of_volume (by decide) (by unfold Volume.InRange; decide)
    (by unfold Volume.InRange; decide) 2

/-- The stick with a file of no bytes: its entry has no start cluster. -/
def emptyStick : Volume :=
  { stick with
    dev := answering fun a =>
      if a < 0x400 then ([0xf0, 0xff, 0xff] : List UInt8).getD (a - 0x200) 0
      else if a < 0x600 then (dirEntry xenonElf 0x20 0 0).getD (a - 0x400) 0
      else 0 }

/-- It is opened, and the first 32 bytes read from it are the entry of the root directory. -/
theorem emptyStick_exposes_root :
    ∃ st, fatOpen emptyStick 2 xenonPath State.fresh = some (0, st) ∧ st.fatFileSize = 0 ∧
      OpensAt emptyStick xenonPath 0 (entryIn emptyStick 0 0) ∧
      dirCluster emptyStick (entryIn emptyStick 0 0) = 0 ∧
      (readExtents emptyStick [(0, 32)] (fun _ => 0) st) = [(0, dirEntry xenonElf 0x20 0 0)] ∧
      ¬ ExposesOwn emptyStick 0 st := by
  have hholds : Holds emptyStick.dev State.fresh.cache := by
    refine fresh_holds fun i _ => ?_
    show (if _ then _ else _) = _
    rw [if_neg (by omega), if_neg (by omega)]
  have hopens : OpensAt emptyStick xenonPath 0 (entryIn emptyStick 0 0) :=
    .last (by decide) (by decide) (.found (by decide +kernel) (by omega) (by decide +kernel)
      (by decide +kernel))
  rcases hopen : fatOpen emptyStick 2 xenonPath State.fresh with _ | ⟨err, st⟩
  · exact absurd hopen (by decide +kernel)
  have herr := (congrArg (Option.map Prod.fst) hopen).symm.trans
    (show _ = some 0 by decide +kernel)
  have hsize := (congrArg (Option.map fun r => r.2.fatFileSize) hopen).symm.trans
    (show _ = some 0 by decide +kernel)
  have hread := (congrArg (Option.map fun r => readExtents emptyStick [(0, 32)] (fun _ => 0) r.2)
    hopen).symm.trans (show _ = some [(0, dirEntry xenonElf 0x20 0 0)] by decide +kernel)
  obtain rfl := Option.some.inj herr
  have hcluster : dirCluster emptyStick (entryIn emptyStick 0 0) = 0 := by decide +kernel
  obtain ⟨e, s', he, rfl, hs'⟩ := fatOpenLoop_opensAt (v := emptyStick) rfl (fun _ _ => rfl) _
    xenonPath 0 State.fresh hholds hopen
  have heven : emptyStick.Even := rfl
  obtain rfl := he.unique heven (fun _ _ => rfl) hopens
  refine ⟨_, rfl, Option.some.inj hsize, hopens, hcluster, Option.some.inj hread, ?_⟩
  unfold opened
  rw [hcluster]
  exact not_exposesOwn_zero (fun _ _ => rfl) hopens.entries_pos
    (s := { s' with fatFileSize := le32 (entryIn emptyStick 0 0) 0x1c }) hs'

end Xell.Fat
