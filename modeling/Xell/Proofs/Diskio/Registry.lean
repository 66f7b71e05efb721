/-
What the registry of block devices keeps track of.

An entry of the array never becomes free again: `unregister_bdev` sets `disabled`, which no
function looks at.  So the entries fill up in the order of registration, and the array says of
each device that it was registered and under which name, but not whether it still is (`Ties`).
`bdev_open` then finds the first device that was ever registered under a name, and a registration
fails when 16 have been made.  An entry that was never used has the empty name, and is found under
it.

From this follows when a call does what is asked of it (`Fits`), in terms of what was registered
and unregistered before.
-/
import Xell.Diskio

namespace Xell.Diskio

/-! ### Registration -/

section Registration

variable {γ ω : Type} {devices : Mem (Bdev γ ω)}

/-- What a registration does: it takes the first entry without operations, and leaves the others
as they are. -/
structure Registers (devices : Mem (Bdev γ ω)) (ctx : Option γ) (ops : Option ω)
    (name : List UInt8) (q : Option Nat × Mem (Bdev γ ω)) : Prop where
  failed : q.1 = none → ∀ i < maxDevices, (devices i).ops ≠ none
  first : ∀ {i}, q.1 = some i →
    i < maxDevices ∧ (devices i).ops = none ∧ ∀ j < i, (devices j).ops ≠ none
  entry : ∀ {i}, q.1 = some i → (q.2 i).ctx = ctx ∧ (q.2 i).ops = ops ∧ (q.2 i).name = name
  others : ∀ {j}, q.1 ≠ some j → q.2 j = devices j

theorem registerBdev_registers (devices : Mem (Bdev γ ω)) (ctx : Option γ) (ops : Option ω)
    (name : List UInt8) : Registers devices ctx ops name (registerBdev devices ctx ops name) := by
  unfold registerBdev
  cases hfind : (List.range maxDevices).find? fun i => (devices i).ops.isNone with
  | none =>
      rw [List.find?_range_eq_none] at hfind
      refine ⟨fun _ i hi hops => ?_, fun hi => ?_, fun hi => ?_, fun _ => rfl⟩
      · simpa [hops] using hfind i hi
      · cases hi
      · cases hi
  | some i =>
      rw [List.find?_range_eq_some, List.mem_range] at hfind
      obtain ⟨hops, hi, hbefore⟩ := hfind
      refine ⟨fun hnone => ?_, fun hj => ?_, fun hj => ?_, fun hj => ?_⟩
      · cases hnone
      · obtain rfl := Option.some.inj hj
        refine ⟨hi, Option.isNone_iff_eq_none.mp hops, fun j hj hnone => ?_⟩
        simpa [hnone] using hbefore j hj
      · obtain rfl := Option.some.inj hj
        simp
      · exact Function.update_of_ne (fun heq => hj (congrArg some heq.symm)) _ _

/-- A child is registered in the same way.  Its name comes from that of its parent, which is a
device of its own if it was registered before. -/
theorem registerBdevChild_registers (devices : Mem (Bdev γ ω)) (parent : Nat) (offset : BitVec 64)
    (index : Int) :
    ∃ name, Registers devices (devices parent).ctx (devices parent).ops name
        (registerBdevChild devices parent offset index) ∧
      ((devices parent).ops ≠ none → name = (devices parent).name ++ decimal index) := by
  have hreg := registerBdev_registers devices (devices parent).ctx (devices parent).ops []
  unfold registerBdevChild
  rcases hq : registerBdev devices (devices parent).ctx (devices parent).ops [] with ⟨c, devices'⟩
  rw [hq] at hreg
  refine ⟨(devices' parent).name ++ decimal index, ?_, fun hparent => ?_⟩
  · cases c with
    | none => exact ⟨hreg.failed, hreg.first, fun hi => absurd hi (by simp), hreg.others⟩
    | some c =>
        refine ⟨fun hnone => absurd hnone (by simp), hreg.first, fun hi => ?_, fun {j} hj => ?_⟩
        · obtain rfl := Option.some.inj hi
          obtain ⟨hctx, hops, -⟩ := hreg.entry rfl
          dsimp only
          rw [Function.update_self]
          exact ⟨hctx, hops, rfl⟩
        · have hjc : j ≠ c := fun heq => hj (congrArg some heq.symm)
          dsimp only
          rw [Function.update_of_ne hjc]
          exact hreg.others hj
  · have hsame : devices' parent = devices parent :=
      hreg.others fun hc => hparent (hreg.first hc).2.1
    rw [hsame]

end Registration

/-! ### The array and the ledger -/

namespace Registry

variable {γ ω : Type} {r : Registry γ ω}

/-- What the array says of a device. -/
structure Matches (dev : Bdev γ ω) (e : Entry) : Prop where
  free : dev.ops.isNone = true ↔ e = .unused
  name : dev.name = e.name

/-- The array and the ledger agree, and the devices were registered in order. -/
structure Ties (r : Registry γ ω) : Prop where
  entry : ∀ i < maxDevices, Matches (r.devices i) (r.ledger i)
  beyond : ∀ i, maxDevices ≤ i → r.ledger i = .unused
  order : ∀ {i j}, i < j → r.ledger i = .unused → r.ledger j = .unused

theorem empty_ties : Ties (empty : Registry γ ω) where
  entry := fun _ _ => ⟨by simp [empty, noDevices], rfl⟩
  beyond := fun _ _ => rfl
  order := fun _ _ => rfl

/-- What a registration under `name` does: it takes the first device that was never used. -/
structure Takes (r : Registry γ ω) (name : List UInt8) (q : Option Nat × Mem (Bdev γ ω)) :
    Prop where
  failed : q.1 = none → (∀ i < maxDevices, r.ledger i ≠ .unused) ∧ q.2 = r.devices
  taken : ∀ i, q.1 = some i → i < maxDevices ∧ r.ledger i = .unused ∧
    (∀ j < i, r.ledger j ≠ .unused) ∧ (q.2 i).ops.isNone = false ∧ (q.2 i).name = name ∧
    ∀ j, j ≠ i → q.2 j = r.devices j

theorem Ties.added (h : Ties r) {name : List UInt8} {q : Option Nat × Mem (Bdev γ ω)}
    (ht : Takes r name q) : Ties (r.added name q) := by
  rcases hq : q.1 with _ | i
  · obtain ⟨-, hsame⟩ := ht.failed hq
    unfold Registry.added
    rw [hq, hsame]
    exact h
  · obtain ⟨hi, hunused, hbefore, hops, hname, hother⟩ := ht.taken i hq
    unfold Registry.added
    rw [hq]
    refine ⟨fun j hj => ?_, fun j hj => ?_, fun {a b} hab ha => ?_⟩
    · by_cases hji : j = i
      · subst hji
        dsimp only
        rw [Function.update_self]
        exact ⟨by simp [hops], hname⟩
      · dsimp only
        rw [Function.update_of_ne hji, hother j hji]
        exact h.entry j hj
    · have hji : j ≠ i := by omega
      dsimp only
      rw [Function.update_of_ne hji]
      exact h.beyond j hj
    · dsimp only at ha ⊢
      have hai : a ≠ i := by
        rintro rfl
        rw [Function.update_self] at ha
        cases ha
      rw [Function.update_of_ne hai] at ha
      have hbi : b ≠ i := by
        rintro rfl
        exact hbefore a hab ha
      rw [Function.update_of_ne hbi]
      exact h.order hab ha

theorem Ties.unused_iff (h : Ties r) {i : Nat} (hi : i < maxDevices) :
    r.ledger i = .unused ↔ (r.devices i).ops = none := by
  rw [← (h.entry i hi).free, Option.isNone_iff_eq_none]

theorem Ties.lt (h : Ties r) {i : Nat} (hi : r.ledger i ≠ .unused) : i < maxDevices := by
  by_contra hge
  exact hi (h.beyond i (Nat.le_of_not_lt hge))

theorem Ties.takes (h : Ties r) {ctx : Option γ} {ops : Option ω} {name : List UInt8}
    {q : Option Nat × Mem (Bdev γ ω)} (hops : ops ≠ none)
    (hq : Registers r.devices ctx ops name q) : Takes r name q := by
  refine ⟨fun hnone => ⟨fun i hi hunused => ?_, ?_⟩, fun i htaken => ?_⟩
  · exact hq.failed hnone i hi ((h.unused_iff hi).mp hunused)
  · funext j
    exact hq.others (by simp [hnone])
  · obtain ⟨hi, hfree, hbefore⟩ := hq.first htaken
    obtain ⟨-, hset, hname⟩ := hq.entry htaken
    refine ⟨hi, (h.unused_iff hi).mpr hfree, fun j hj hunused => ?_, ?_, hname, fun j hj => ?_⟩
    · exact hbefore j hj ((h.unused_iff (Nat.lt_trans hj hi)).mp hunused)
    · rw [hset]
      simpa using Option.isSome_iff_ne_none.mpr hops
    · refine hq.others fun heq => hj ?_
      rw [htaken] at heq
      exact (Option.some.inj heq).symm

theorem registerBdev_takes (h : Ties r) (ctx : Option γ) (ops : ω) (name : List UInt8) :
    Takes r name (registerBdev r.devices ctx (some ops) name) :=
  h.takes (by simp) (registerBdev_registers r.devices ctx (some ops) name)

theorem registerBdevChild_takes (h : Ties r) {parent : Nat} (hparent : r.ledger parent ≠ .unused)
    (offset : BitVec 64) (index : Int) :
    Takes r (r.childName parent index) (registerBdevChild r.devices parent offset index) := by
  have hlt := h.lt hparent
  have hops : (r.devices parent).ops ≠ none := fun hnone => hparent ((h.unused_iff hlt).mpr hnone)
  obtain ⟨name, hreg, hname⟩ := registerBdevChild_registers r.devices parent offset index
  have hchild : name = r.childName parent index := by
    rw [hname hops, (h.entry parent hlt).name]
    rfl
  rw [← hchild]
  exact h.takes hops hreg

/-! ### The other calls -/

theorem Entry.remove_name (e : Entry) : e.remove.name = e.name := by
  cases e with
  | unused => rfl
  | live name => rfl
  | gone name => rfl

theorem Entry.remove_unused {e : Entry} : e.remove = .unused ↔ e = .unused := by
  cases e with
  | unused => exact Iff.rfl
  | live name => simp [Entry.remove]
  | gone name => simp [Entry.remove]

theorem Ties.unregister (h : Ties r) (bdev : Nat) :
    Ties (r.step (.unregister bdev)) := by
  have hledger : ∀ i, (r.step (.unregister bdev)).ledger i = .unused ↔ r.ledger i = .unused := by
    intro i
    by_cases hi : i = bdev
    · subst hi
      show Function.update r.ledger i _ i = _ ↔ _
      rw [Function.update_self]
      exact Entry.remove_unused
    · show Function.update r.ledger bdev _ i = _ ↔ _
      rw [Function.update_of_ne hi]
  refine ⟨fun i hi => ?_, fun i hi => (hledger i).mpr (h.beyond i hi), fun {a b} hab ha => ?_⟩
  · obtain ⟨hfree, hname⟩ := h.entry i hi
    by_cases hib : i = bdev
    · subst hib
      refine ⟨?_, ?_⟩
      · rw [hledger]
        show (Function.update r.devices i _ i).ops.isNone = true ↔ _
        rw [Function.update_self]
        exact hfree
      · show (Function.update r.devices i _ i).name = (Function.update r.ledger i _ i).name
        rw [Function.update_self, Function.update_self, Entry.remove_name]
        exact hname
    · refine ⟨?_, ?_⟩
      · rw [hledger]
        show (Function.update r.devices bdev _ i).ops.isNone = true ↔ _
        rw [Function.update_of_ne hib]
        exact hfree
      · show (Function.update r.devices bdev _ i).name = (Function.update r.ledger bdev _ i).name
        rw [Function.update_of_ne hib, Function.update_of_ne hib]
        exact hname
  · exact (hledger b).mpr (h.order hab ((hledger a).mp ha))

/-- **The array keeps up with the ledger** over every call. -/
theorem Ties.step (h : Ties r) {c : Call γ ω} (hc : r.Valid c) : Ties (r.step c) := by
  cases c with
  | register ctx ops name => exact h.added (registerBdev_takes h ctx ops name)
  | child parent offset index =>
      exact h.added (registerBdevChild_takes h hc.1 offset index)
  | unregister bdev => exact h.unregister bdev
  | bdevOpen name => exact h

/-! ### When a call is right -/

/-- The calls that do what is asked of them.  For a registration, fewer than 16 were made before,
or none of these devices was unregistered.  For `bdev_open`, the device that was first registered
under the name has not been unregistered; and the empty name was registered, or is the name of
nothing. -/
def Fits (r : Registry γ ω) : Call γ ω → Prop
  | .register _ _ _ => (∃ i < maxDevices, r.ledger i = .unused) ∨ r.Full
  | .child _ _ _ => (∃ i < maxDevices, r.ledger i = .unused) ∨ r.Full
  | .unregister _ => True
  | .bdevOpen name =>
      (∀ i, r.ledger i = .gone name → ∃ j < i, (r.ledger j).Under name) ∧
        (name = [] → (∃ i, (r.ledger i).Under []) ∨ ∀ i < maxDevices, r.ledger i ≠ .unused)

/-- A registration fails when every device has been used. -/
theorem Takes.right_iff {name : List UInt8} {q : Option Nat × Mem (Bdev γ ω)}
    (ht : Takes r name q) :
    (q.1 = none → r.Full) ↔ (∃ i < maxDevices, r.ledger i = .unused) ∨ r.Full := by
  rcases hq : q.1 with _ | i
  · have hused := (ht.failed hq).1
    constructor
    · intro h
      exact Or.inr (h rfl)
    · rintro (⟨i, hi, hunused⟩ | hfull) -
      · exact absurd hunused (hused i hi)
      · exact hfull
  · obtain ⟨hi, hunused, -⟩ := ht.taken i hq
    exact ⟨fun _ => Or.inl ⟨i, hi, hunused⟩, fun _ hnone => absurd hnone (by simp)⟩

theorem Ties.name (h : Ties r) {i : Nat} (hi : i < maxDevices) :
    (r.devices i).name = (r.ledger i).name := (h.entry i hi).name

theorem Under.name {e : Entry} {name : List UInt8} (h : e.Under name) :
    e.name = name ∧ e ≠ .unused := by
  rcases h with rfl | rfl
  · exact ⟨rfl, by simp⟩
  · exact ⟨rfl, by simp⟩

/-- `bdev_open` finds the first entry with the name, used or not. -/
theorem bdevOpen_some (h : Ties r) {name : List UInt8} {i : Nat} :
    bdevOpen r.devices name = some i ↔
      i < maxDevices ∧ (r.ledger i).name = name ∧ ∀ j < i, (r.ledger j).name ≠ name := by
  unfold bdevOpen
  rw [List.find?_range_eq_some, List.mem_range]
  constructor
  · rintro ⟨hname, hi, hbefore⟩
    refine ⟨hi, by simpa [h.name hi] using hname, fun j hj => ?_⟩
    simpa [h.name (Nat.lt_trans hj hi)] using hbefore j hj
  · rintro ⟨hi, hname, hbefore⟩
    refine ⟨by simpa [h.name hi] using hname, hi, fun j hj => ?_⟩
    simpa [h.name (Nat.lt_trans hj hi)] using hbefore j hj

theorem bdevOpen_exists (h : Ties r) {name : List UInt8} {i : Nat} (hi : i < maxDevices)
    (hname : (r.ledger i).name = name) : ∃ k ≤ i, bdevOpen r.devices name = some k := by
  cases hopen : bdevOpen r.devices name with
  | some k =>
      refine ⟨k, ?_, rfl⟩
      by_contra hlt
      exact ((bdevOpen_some h).mp hopen).2.2 i (by omega) hname
  | none =>
      unfold bdevOpen at hopen
      rw [List.find?_range_eq_none] at hopen
      have hother := hopen i hi
      rw [h.name hi, hname] at hother
      simp at hother

theorem bdevOpen_fits (h : Ties r) {name : List UInt8} (hright : r.Right (.bdevOpen name)) :
    r.Fits (.bdevOpen name) := by
  obtain ⟨hfound, -⟩ := hright
  refine ⟨fun i hgone => ?_, fun hnil => ?_⟩
  · have hname : (r.ledger i).name = name := by rw [hgone]; rfl
    obtain ⟨k, hk, hopen⟩ := bdevOpen_exists h (h.lt (by rw [hgone]; simp)) hname
    have hlive := hfound k hopen
    refine ⟨k, Nat.lt_of_le_of_ne hk ?_, Or.inl hlive⟩
    rintro rfl
    rw [hgone] at hlive
    simp at hlive
  · subst hnil
    by_cases hused : ∀ i < maxDevices, r.ledger i ≠ .unused
    · exact Or.inr hused
    · push Not at hused
      obtain ⟨i, hi, hunused⟩ := hused
      have hname : (r.ledger i).name = [] := by rw [hunused]; rfl
      obtain ⟨k, -, hopen⟩ := bdevOpen_exists h hi hname
      exact Or.inl ⟨k, Or.inl (hfound k hopen)⟩

theorem bdevOpen_right (h : Ties r) {name : List UInt8} (hfits : r.Fits (.bdevOpen name)) :
    r.Right (.bdevOpen name) := by
  obtain ⟨hfirst, hempty⟩ := hfits
  refine ⟨fun k hopen => ?_, fun ⟨i, hlive⟩ => ?_⟩
  · obtain ⟨hk, hname, hbefore⟩ := (bdevOpen_some h).mp hopen
    cases hentry : r.ledger k with
    | live n =>
        rw [hentry] at hname
        exact congrArg Entry.live hname
    | gone n =>
        rw [hentry] at hname
        obtain rfl : n = name := hname
        obtain ⟨j, hj, hunder⟩ := hfirst k hentry
        exact absurd (Under.name hunder).1 (hbefore j hj)
    | unused =>
        rw [hentry] at hname
        obtain rfl : [] = name := hname
        rcases hempty rfl with ⟨i, hunder⟩ | hused
        · -- it comes after every device that was used
          obtain ⟨hi, hne⟩ := Under.name hunder
          rcases Nat.lt_trichotomy i k with hlt | rfl | hgt
          · exact absurd hi (hbefore i hlt)
          · exact absurd hentry hne
          · exact absurd (h.order hgt hentry) hne
        · exact absurd hentry (hused k hk)
  · have hname : (r.ledger i).name = name := by rw [hlive]; rfl
    obtain ⟨k, -, hopen⟩ := bdevOpen_exists h (h.lt (by rw [hlive]; simp)) hname
    exact ⟨k, hopen⟩

theorem right_iff_fits (h : Ties r) {c : Call γ ω} (hc : r.Valid c) : r.Right c ↔ r.Fits c := by
  cases c with
  | register ctx ops name => exact (registerBdev_takes h ctx ops name).right_iff
  | child parent offset index =>
      exact (registerBdevChild_takes h hc.1 offset index).right_iff
  | unregister bdev => exact Iff.rfl
  | bdevOpen name => exact ⟨bdevOpen_fits h, bdevOpen_right h⟩

theorem along_right_iff {cs : List (Call γ ω)} :
    ∀ {r : Registry γ ω}, Ties r → Along Valid r cs → (Along Right r cs ↔ Along Fits r cs) := by
  induction cs with
  | nil => intro r _ _; exact Iff.rfl
  | cons c cs ih =>
      rintro r h ⟨hc, hcs⟩
      exact and_congr (right_iff_fits h hc) (ih (h.step hc) hcs)

/--
**When the registry tracks the live devices.**  In a run of any length, every registration fails
only if 16 devices are live and every `bdev_open` finds a live device if there is one, exactly if
every call of the run fits what was registered and unregistered before it.
-/
theorem tracks_iff (cs : List (Call γ ω)) (hvalid : Along Valid (empty : Registry γ ω) cs) :
    Along Right (empty : Registry γ ω) cs ↔ Along Fits (empty : Registry γ ω) cs :=
  along_right_iff empty_ties hvalid

end Registry

/-! ### A stick -/

/-- The name `uda`. -/
def uda : List UInt8 := [0x75, 0x64, 0x61]

/-- A stick is plugged in, a partition of it is registered, and both are opened. -/
def plugged : List (Call Unit Unit) :=
  [.register none () uda, .child 0 63 1, .bdevOpen uda, .bdevOpen (uda ++ decimal 1)]

open Registry in
theorem plugged_right : Along Valid empty plugged ∧ Along Right empty plugged := by
  have hvalid : Along Valid empty plugged :=
    ⟨by unfold Valid; decide, by unfold Valid; decide, by unfold Valid; decide,
      by unfold Valid; decide, trivial⟩
  have hgone : ∀ i n, (((empty : Registry Unit Unit).step (.register none () uda)).step
      (.child 0 63 1)).ledger i ≠ .gone n := by
    intro i n
    show Function.update (Function.update (fun _ => Entry.unused) 0 (.live uda)) 1 _ i ≠ _
    by_cases h1 : i = 1
    · subst h1
      simp
    · by_cases h0 : i = 0
      · subst h0
        simp
      · rw [Function.update_of_ne h1, Function.update_of_ne h0]
        simp
  have hfits : Along Fits empty plugged := by
    refine ⟨Or.inl ⟨0, by decide, rfl⟩, Or.inl ⟨1, by decide, rfl⟩, ⟨?_, ?_⟩, ⟨?_, ?_⟩, trivial⟩
    · intro i hi
      exact absurd hi (hgone i _)
    · intro hnil
      exact absurd hnil (by decide)
    · intro i hi
      exact absurd hi (hgone i _)
    · intro hnil
      exact absurd hnil (by decide)
  exact ⟨hvalid, (tracks_iff plugged hvalid).mpr hfits⟩

/-- A stick is plugged in and out sixteen times. -/
def replugged : List (Call Unit Unit) :=
  (List.range 16).flatMap fun i => [.register none () uda, .unregister i]

open Registry in
/-- A stick that was unplugged is still opened; after sixteen sticks the next one is refused,
though none is there; and before any, the empty name is opened. -/
theorem unplugged_opened :
    Along Valid empty [.register none () uda, .unregister 0, (.bdevOpen uda : Call Unit Unit)] ∧
      ¬ Along Right empty
        [.register none () uda, .unregister 0, (.bdevOpen uda : Call Unit Unit)] ∧
      ((replugged.foldl step empty).returned (.register none () uda)).1 = none ∧
      ¬ (replugged.foldl step empty).Right (.register none () uda) ∧
      ¬ (empty : Registry Unit Unit).Right (.bdevOpen []) := by
  have hfull : ((replugged.foldl step empty).returned (.register none () uda)).1 = none := by
    decide +kernel
  refine ⟨⟨by unfold Valid; decide, by unfold Valid; decide, by unfold Valid; decide, trivial⟩,
    ?_, hfull, ?_, ?_⟩
  · rintro ⟨-, -, ⟨hlive, -⟩, -⟩
    have := hlive 0 (by decide)
    exact absurd this (by decide)
  · intro hright
    obtain ⟨name, hname⟩ := hright hfull 0 (by decide)
    have hgone : (replugged.foldl step (empty : Registry Unit Unit)).ledger 0 = .gone uda := by
      decide +kernel
    rw [hgone] at hname
    cases hname
  · rintro ⟨hlive, -⟩
    have := hlive 0 (by decide)
    exact absurd this (by decide)

end Xell.Diskio
