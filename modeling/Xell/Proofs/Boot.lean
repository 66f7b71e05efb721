/-
What is booted or flashed.

Nobody looks at the result of the load, so there is one way only for the right bytes to be
handed on: the device must not fail before the file is in memory.  A failure after that is
harmless, and there is room for it, because the load asks for `LOADER_MAXSIZE` bytes and
goes on to the end of the file's last cluster.

The path is opened on a device that has not failed yet.  `Proofs/Fat/Path.lean` knows what
`fat_open` does on a device that never fails; `Proofs/Fat/Local.lean` says that up to here
there is no difference.
-/
import Xell.Proofs.Fat.Path
import Xell.Proofs.Fat.Local

namespace Xell.Fat

/-! ### The reliable volume has the same contents -/

section Reliable

variable {v : Volume}

theorem chainAt_reliable (v : Volume) : chainAt v.reliable = chainAt v := by
  funext i
  induction i with
  | zero => rfl
  | succ i ih =>
      funext c
      rw [chainAt, chainAt, ih]
      rfl

theorem startLoc_reliable (v : Volume) : startLoc v.reliable = startLoc v := by
  funext c j
  unfold startLoc chainLoc
  rw [chainAt_reliable]
  rfl

theorem entry_reliable (v : Volume) : entry v.reliable = entry v := by
  funext c i
  unfold entry streamByte
  rw [startLoc_reliable]
  rfl

theorem inDir_reliable {c i : Nat} : InDir v.reliable c i ↔ InDir v c i := by
  unfold InDir Reaches
  rw [startLoc_reliable, entry_reliable]

theorem MatchAt.of_reliable {c i : Nat} {name : List UInt8} {b : Bool}
    (h : MatchAt v.reliable c name b i) : MatchAt v c name b i where
  inDir := inDir_reliable.mp h.inDir
  isMatch := by
    have := h.isMatch
    rwa [entry_reliable] at this
  first k hk := by
    have := h.first k hk
    rwa [entry_reliable] at this

theorem Resolves.of_reliable {c : Nat} {path : List UInt8} {e : Mem UInt8}
    (h : Resolves v.reliable c path e) : Resolves v c path e := by
  induction h with
  | last hne hmore hm =>
      rw [entry_reliable]
      exact .last hne hmore hm.of_reliable
  | sub hne hmore hm _ ih =>
      rw [entry_reliable] at ih
      exact .sub hne hmore hm.of_reliable ih

theorem Directory.of_reliable {c : Nat} (h : Directory v.reliable c) : Directory v c := by
  induction h with
  | root => exact .root
  | sub _ hin henter ih =>
      rw [entry_reliable] at henter ⊢
      exact ih.sub (inDir_reliable.mp hin) henter

theorem PathOK.reliable (h : PathOK v) : PathOK v.reliable where
  cluster_pos := h.cluster_pos
  small := h.small
  sectors := h.sectors
  dirs c hd := by
    obtain ⟨hroot, hfat, hdata, hlength⟩ := h.dirs c hd.of_reliable
    refine ⟨hroot, ?_, ?_, ?_⟩
    · rw [chainAt_reliable]
      exact hfat
    · rw [chainAt_reliable]
      exact hdata
    · rw [startLoc_reliable]
      exact hlength

theorem chainOK_reliable {c : Nat} : ChainOK v.reliable c ↔ ChainOK v c := by
  constructor
  · rintro ⟨hfat, hdata, hrun⟩
    rw [chainAt_reliable] at hfat hdata hrun
    exact ⟨hfat, hdata, hrun⟩
  · rintro ⟨hfat, hdata, hrun⟩
    refine ⟨?_, ?_, ?_⟩ <;> rw [chainAt_reliable]
    · exact hfat
    · exact hdata
    · exact hrun

theorem StartOK.reliable {c : Nat} (h : StartOK v c) : StartOK v.reliable c := by
  unfold StartOK at h ⊢
  split at h
  · rename_i hroot
    rw [if_pos (show isRootArea v.reliable c from hroot)]
    exact h
  · rename_i hroot
    rw [if_neg (show ¬ isRootArea v.reliable c from hroot)]
    exact chainOK_reliable.mpr h

theorem remaining_reliable (v : Volume) : remaining v.reliable = remaining v := by
  funext s j
  unfold remaining chainLoc
  rw [chainAt_reliable]
  rfl

theorem Ready.of_reliable {s : State} (h : Ready v.reliable s) : Ready v s where
  coherent := h.coherent
  extent := h.extent
  next hne := ⟨(h.next hne).1, (h.next hne).2.1, chainOK_reliable.mp (h.next hne).2.2⟩

end Reliable

/-! ### Opening on a device that has not failed yet -/

theorem fatOpenLoop_mono {v : Volume} {fuel fuel' : Nat} (hle : fuel ≤ fuel') :
    ∀ {n : Nat} {name : List UInt8} {cluster : Nat} {s : State} {r : Int × State},
      fatOpenLoop v fuel n name cluster s = some r →
      fatOpenLoop v fuel' n name cluster s = some r := by
  intro n
  induction n with
  | zero => intro name cluster s r h; simp [fatOpenLoop] at h
  | succ n ih =>
      intro name cluster s r h
      cases fatOpenLoop_turn h with
      | ended hend => exact OpenTurn.eq (.ended hend)
      | returned hne hscan => exact OpenTurn.eq (.returned hne (scan_mono hscan hle))
      | exhausted hne hscan hrest =>
          exact OpenTurn.eq (.exhausted hne (scan_mono hscan hle) (ih hrest))
      | last hne hmore hscan => exact OpenTurn.eq (.last hne hmore (scan_mono hscan hle))
      | sub hne hmore hscan hrest =>
          exact OpenTurn.eq (.sub hne hmore (scan_mono hscan hle) (ih hrest))

theorem fatOpenLoop_unique {v : Volume} {fuel fuel' n : Nat} {name : List UInt8} {cluster : Nat}
    {s : State} {r r' : Int × State} (h : fatOpenLoop v fuel n name cluster s = some r)
    (h' : fatOpenLoop v fuel' n name cluster s = some r') : r = r' := by
  have one := fatOpenLoop_mono (Nat.le_max_left fuel fuel') h
  have two := fatOpenLoop_mono (Nat.le_max_right fuel fuel') h'
  exact Option.some.inj (one.symm.trans two)

/-- A path of one component cannot be resolved by leaving it out. -/
theorem not_skipping_of_single {v : Volume} {c : Nat} {path : List UInt8}
    (hmore : more path = false) : ¬ ResolvesSkipping v c path true := by
  intro h
  cases h with
  | sub _ hmore' _ _ =>
      rw [hmore] at hmore'
      simp at hmore'
  | skip _ _ _ hrest => exact hrest.peek_ne (more_eq_false.mp hmore)

/-- What is known of a file once `fat_open` has returned zero for it. -/
structure Opened (v : Volume) (path : List UInt8) (e : Mem UInt8) (st : State) : Prop where
  resolves : Resolves v 0 path e
  size : st.fatFileSize = le32 e 0x1c
  rest : StartOK v (dirCluster v e) → Ready v st ∧ remaining v st = startLoc v (dirCluster v e)

/--
A path of one component, opened while the device does not fail: a zero means that the path
was resolved and its file stands ready, anything else leaves a coherent cache.
-/
theorem fatOpen_single {v : Volume} (hv : PathOK v) {fuel : Nat} {path : List UInt8}
    (hmore : more path = false) {s : State} (hcoh : Coherent v.dev s.cache) {err : Int}
    {st : State} (hopen : fatOpen v fuel path s = some (err, st))
    (hfull : Full v.dev s.cache.calls st.cache.calls) :
    (err = 0 → ∃ e, Opened v path e st) ∧ (err ≠ 0 → Coherent v.dev st.cache) := by
  have hrel : ∀ k t, v.reliable.dev.answer k t = .full := fun _ _ => rfl
  have hopen' : fatOpen v.reliable fuel path s = some (err, st) :=
    fatOpen_local hopen hfull.agrees
  obtain ⟨N, hN⟩ := fatOpenLoop_returns hv.reliable hrel (path.length + 1) path 0 s
    (Nat.lt_succ_self _) .root hcoh
  obtain ⟨err', st', hloop, hiff, hcoh'⟩ := hN N (Nat.le_refl _)
  obtain ⟨rfl, rfl⟩ := Prod.mk.inj (fatOpenLoop_unique hopen' hloop)
  refine ⟨fun herr => ?_, hcoh'⟩
  obtain ⟨b, hb⟩ := hiff.mp herr
  have hclean : ResolvesSkipping v.reliable 0 path false := by
    cases b with
    | false => exact hb
    | true => exact absurd hb (not_skipping_of_single hmore)
  obtain ⟨e, he⟩ := resolves_iff.mpr hclean
  obtain ⟨M, hM⟩ := fatOpenLoop_resolves hv.reliable hrel he .root (path.length + 1) s
    (Nat.lt_succ_self _) hcoh
  obtain ⟨s', hfound, hcoh''⟩ := hM M (Nat.le_refl _)
  have hst : st = opened v.reliable e s' := (Prod.mk.inj (fatOpenLoop_unique hopen' hfound)).2
  refine ⟨e, he.of_reliable, ?_, fun hstart => ?_⟩
  · rw [hst]
    exact getExtent_fatFileSize _ _ _
  · obtain ⟨hready, hrem, -⟩ := getExtent_full hv.reliable.toOK (dirCluster_lt v e)
      hstart.reliable (s := { s' with fatFileSize := le32 e 0x1c }) hcoh'' fun _ _ _ _ => rfl
    have hst' : st = getExtent v.reliable (dirCluster v e)
      { s' with fatFileSize := le32 e 0x1c } := hst
    rw [← hst'] at hready hrem
    refine ⟨hready.of_reliable, ?_⟩
    rw [← remaining_reliable, hrem, startLoc_reliable]

end Xell.Fat

namespace Xell.Boot

open Fat

/-! ### Loading -/

/-- A file that can be loaded: it fits, its sectors have numbers, and its chain reaches as
far as its size says. -/
structure Loadable (v : Volume) (e : Mem UInt8) : Prop where
  fits : le32 e 0x1c ≤ loaderMaxsize
  sectors : StartOK v (dirCluster v e)
  whole : Has (startLoc v (dirCluster v e)) (le32 e 0x1c)

/-- The number of the device read by which a load has brought in the first `size` bytes, on a
device that never fails. -/
def neededLoad (v : Volume) (m : Mem UInt8) (opened : State) (size : Nat) : Nat :=
  neededExtent v.reliable loaderMaxsize loaderRaw loaderMaxsize m opened size

theorem load_delivers {v : Volume} (hv : PathOK v) {path : List UInt8} {e m : Mem UInt8}
    {st : State} (hopen : Opened v path e st) (hfile : Loadable v e)
    (hfull : Full v.dev st.cache.calls (neededLoad v m st (le32 e 0x1c))) :
    Delivers v (startLoc v (dirCluster v e)) loaderRaw (le32 e 0x1c) (load v m st).mem := by
  obtain ⟨hready, hrem⟩ := hopen.rest hfile.sectors
  rw [← hrem]
  refine readExtentLoop_prefix hv.toOK loaderMaxsize loaderRaw loaderMaxsize m st (le32 e 0x1c)
    (Nat.le_refl _) hfile.fits hready ?_ hfull
  rw [hrem]
  exact hfile.whole

/-- The file `main` has loaded when it hands something on. -/
def handedOn : Booted → Option (List UInt8 × Handoff)
  | .executeElfAt h => some (xenonPath, h)
  | .updateXellFlash h => some (updxellPath, h)
  | .goesOn _ => none

/-- The way to a handoff: `fat_open` returned zero for its path, with a coherent cache before. -/
theorem bootFat_handedOn {v : Volume} (hv : PathOK v) {fuel : Nat} {m : Mem UInt8} {s : State}
    (hcoh : Coherent v.dev s.cache) {b : Booted} (hboot : bootFat v fuel m s = some b)
    {path : List UInt8} {h : Handoff} (hh : handedOn b = some (path, h))
    (hopen : Full v.dev s.cache.calls h.opened.cache.calls) :
    h = load v m h.opened ∧ ∃ e, Opened v path e h.opened := by
  unfold bootFat tryBootFat at hboot
  cases hx : fatOpen v fuel xenonPath s with
  | none =>
      rw [hx] at hboot
      simp at hboot
  | some r =>
      obtain ⟨err, s'⟩ := r
      rw [hx] at hboot
      dsimp only at hboot
      by_cases herr : err = 0
      · rw [if_pos herr] at hboot
        obtain rfl := Option.some.inj hboot
        obtain ⟨rfl, rfl⟩ := Prod.mk.inj (Option.some.inj hh)
        exact ⟨rfl, (fatOpen_single hv (by decide) hcoh hx hopen).1 herr⟩
      · rw [if_neg herr] at hboot
        dsimp only at hboot
        cases hu : fatOpen v fuel updxellPath s' with
        | none =>
            rw [hu] at hboot
            simp at hboot
        | some r' =>
            obtain ⟨err', s''⟩ := r'
            rw [hu] at hboot
            dsimp only at hboot
            by_cases herr' : err' = 0
            · rw [if_pos herr'] at hboot
              obtain rfl := Option.some.inj hboot
              obtain ⟨rfl, rfl⟩ := Prod.mk.inj (Option.some.inj hh)
              have hfirst : s.cache.calls ≤ s'.cache.calls := fatOpenLoop_calls_le hx
              have hsecond : s'.cache.calls ≤ s''.cache.calls := fatOpenLoop_calls_le hu
              have hcoh' := (fatOpen_single hv (by decide) hcoh hx
                (hopen.mono (Nat.le_refl _) hsecond)).2 herr
              exact ⟨rfl, (fatOpen_single hv (by decide) hcoh' hu
                (hopen.mono hfirst (Nat.le_refl _))).1 herr'⟩
            · rw [if_neg herr'] at hboot
              obtain rfl := Option.some.inj hboot
              simp [handedOn] at hh

/--
**What is booted or flashed is the file**, if the device does not fail before the file's last
byte is in memory.
-/
theorem boot_hands_on_file {v : Volume} (hv : PathOK v) {fuel : Nat} {m : Mem UInt8} {s : State}
    (hcoh : Coherent v.dev s.cache) {b : Booted} (hboot : bootFat v fuel m s = some b)
    {path : List UInt8} {h : Handoff} (hh : handedOn b = some (path, h))
    (hopen : Full v.dev s.cache.calls h.opened.cache.calls) :
    ∃ e, Resolves v 0 path e ∧ h.st.fatFileSize = le32 e 0x1c ∧
      (Loadable v e →
        Full v.dev h.opened.cache.calls (neededLoad v m h.opened h.st.fatFileSize) →
        Delivers v (startLoc v (dirCluster v e)) loaderRaw h.st.fatFileSize h.mem) := by
  obtain ⟨hload, e, he⟩ := bootFat_handedOn hv hcoh hboot hh hopen
  have hsize : h.st.fatFileSize = le32 e 0x1c := by
    rw [hload, ← he.size]
    exact readExtentLoop_fatFileSize _ _ _ _ _ _
  refine ⟨e, he.resolves, hsize, fun hfile hfull => ?_⟩
  rw [hsize] at hfull ⊢
  rw [hload]
  exact load_delivers hv he hfile hfull

/-- The file of the stick is booted, all 600 bytes of it. -/
theorem stick_boot_hands_on_file :
    ∃ h, bootFat stick 40 (fun _ => 0) State.fresh = some (.executeElfAt h) ∧
      Delivers stick (chainLoc stick 2) loaderRaw 600 h.mem := by
  have hopen : (fatOpen stick 40 xenonPath State.fresh).map Prod.fst = some 0 := by
    decide +kernel
  obtain ⟨⟨err, st⟩, hst, rfl⟩ := Option.map_eq_some_iff.mp hopen
  have hboot : bootFat stick 40 (fun _ => 0) State.fresh
      = some (.executeElfAt (load stick (fun _ => 0) st)) := by
    unfold bootFat tryBootFat
    rw [hst]
    rfl
  obtain ⟨e, hres, hsize, hdel⟩ := boot_hands_on_file stick_pathOK
    (State.fresh_coherent stick.dev) hboot rfl fun _ _ _ _ => rfl
  obtain rfl : e = entry stick 0 0 := by
    cases hres with
    | last _ _ hm => rw [stick_inDir hm.inDir]
    | sub _ hmore _ _ => exact absurd hmore (by decide)
  have hcluster : dirCluster stick (entry stick 0 0) = 2 := by decide +kernel
  have hsize600 : le32 (entry stick 0 0) 0x1c = 600 := by decide +kernel
  rw [hsize, hsize600, hcluster] at hdel
  refine ⟨_, hboot, hdel ⟨?_, ?_, ?_⟩ fun _ _ _ _ => rfl⟩
  · rw [hsize600]
    decide
  · rw [hcluster]
    exact stick_chainOK (by decide)
  · rw [hcluster, hsize600]
    unfold Has
    decide +kernel

/-- The stick on a device that dies after two reads, with the file just opened. -/
def flakyStick : Volume :=
  { stick with
    dev := { stickDev with
      answer := fun k _ => if k < 2 then .full else .failed (-1) minusOne_range } }

/-- The ELF loader is handed 600 bytes of which not even the first is the file's. -/
theorem flakyStick_boots_rubbish :
    ∃ h, bootFat flakyStick 40 (fun _ => 0) State.fresh = some (.executeElfAt h) ∧
      Full flakyStick.dev 0 h.opened.cache.calls ∧ h.st.fatFileSize = 600 ∧
      ¬ Delivers flakyStick (startLoc flakyStick 2) loaderRaw h.st.fatFileSize h.mem := by
  have hrun : ((bootFat flakyStick 40 (fun _ => 0) State.fresh).bind handedOn).map
      (fun r => (r.1, r.2.opened.cache.calls, r.2.st.fatFileSize, r.2.mem loaderRaw))
      = some (xenonPath, 2, 600, 0) := by
    decide +kernel
  obtain ⟨⟨path, h⟩, hbind, hvals⟩ := Option.map_eq_some_iff.mp hrun
  obtain ⟨b, hboot, hh⟩ := Option.bind_eq_some_iff.mp hbind
  simp only [Prod.mk.injEq] at hvals
  obtain ⟨rfl, hcalls, hsize, hbyte⟩ := hvals
  cases b with
  | updateXellFlash h' =>
      have := (Prod.mk.inj (Option.some.inj hh)).1
      simp [updxellPath, xenonPath] at this
  | goesOn st => simp [handedOn] at hh
  | executeElfAt h' =>
      obtain rfl := (Prod.mk.inj (Option.some.inj hh)).2
      refine ⟨h', hboot, fun k _ hk t => ?_, hsize, fun hdel => ?_⟩
      · rw [hcalls] at hk
        exact if_pos hk
      · rw [hsize] at hdel
        obtain ⟨a, ha, hmem⟩ := hdel 0 (by decide)
        have hfile : (startLoc flakyStick 2 0).map flakyStick.byte = some 30 := by decide +kernel
        rw [ha, Option.map_some, Option.some.injEq, ← hmem, Nat.add_zero, hbyte] at hfile
        exact absurd hfile (by decide)

end Xell.Boot
