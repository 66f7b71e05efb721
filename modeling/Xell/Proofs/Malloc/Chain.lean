/-
Nodes in memory, and what `kmemcompact` makes of them.

`Held` ties a list of blocks to a memory: every block has its node, with the seal and a pointer to
the next one, and the memory in front of a taken block leads back to the node.  A block owns these
bytes, and no others matter: `held_congr` says that the list is still there when every block's own
bytes are.  A block that was handed out ends with bytes that nobody owns but the caller.

The inner loop of `kmemcompact` is a sweep over the list, and the outer one repeats it until no
block was joined.  Only nodes of free blocks are written to (`Spares`).
-/
import Xell.Lib.Tiling
import Xell.Malloc

namespace Xell.Malloc

variable {mem mem' mem'' : Mem UInt8} {m : UInt64} {a e n : Nat} {b c : Block} {bs cs : List Block}

/-! ### One node -/

/-- What the functions read of a node. -/
structure Node where
  seal' : UInt32
  next : UInt64
  length : UInt32
  status : UInt32
  data : UInt64

def node (m : UInt64) (mem : Mem UInt8) : Node :=
  ⟨getSeal m mem, getNext m mem, getLength m mem, getStatus m mem, getData m mem⟩

theorem node_congr (h : ∀ k < 32, mem' (m.toNat + k) = mem (m.toNat + k)) :
    node m mem' = node m mem := by
  have hword : ∀ i ≤ 28, Word.load mem' (m.toNat + i) = Word.load mem (m.toNat + i) := by
    intro i hi
    refine Word.load_congr fun k hk => ?_
    rw [Nat.add_assoc]
    exact h (i + k) (by omega)
  have hdouble : ∀ i ≤ 24, Word.load64 mem' (m.toNat + i) = Word.load64 mem (m.toNat + i) := by
    intro i hi
    refine Word.load64_congr fun k hk => ?_
    rw [Nat.add_assoc]
    exact h (i + k) (by omega)
  have hseal : Word.load mem' m.toNat = Word.load mem m.toNat := hword 0 (by omega)
  unfold node getSeal getNext getLength getStatus getData
  rw [hseal, hdouble 8 (by omega), hword 16 (by omega), hword 20 (by omega), hdouble 24 (by omega)]

@[simp] theorem node_setSeal (w : UInt32) :
    node m (setSeal m w mem) = { node m mem with seal' := w } := by
  unfold node setSeal getSeal getNext getLength getStatus getData
  rw [Word.load_store, Word.load64_store_of_disjoint _ (by omega),
    Word.load_store_of_disjoint _ (by omega), Word.load_store_of_disjoint _ (by omega),
    Word.load64_store_of_disjoint _ (by omega)]

@[simp] theorem node_setNext (w : UInt64) :
    node m (setNext m w mem) = { node m mem with next := w } := by
  unfold node setNext getSeal getNext getLength getStatus getData
  rw [Word.load64_store64, Word.load_store64_of_disjoint _ (by omega),
    Word.load_store64_of_disjoint _ (by omega), Word.load_store64_of_disjoint _ (by omega),
    Word.load64_store64_of_disjoint _ (by omega)]

@[simp] theorem node_setLength (w : UInt32) :
    node m (setLength m w mem) = { node m mem with length := w } := by
  unfold node setLength getSeal getNext getLength getStatus getData
  rw [Word.load_store, Word.load_store_of_disjoint _ (by omega),
    Word.load64_store_of_disjoint _ (by omega), Word.load_store_of_disjoint _ (by omega),
    Word.load64_store_of_disjoint _ (by omega)]

@[simp] theorem node_setStatus (s : MemnodeStatus) :
    node m (setStatus m s mem) = { node m mem with status := s.word } := by
  unfold node setStatus getSeal getNext getLength getStatus getData
  rw [Word.load_store, Word.load_store_of_disjoint _ (by omega),
    Word.load64_store_of_disjoint _ (by omega), Word.load_store_of_disjoint _ (by omega),
    Word.load64_store_of_disjoint _ (by omega)]

@[simp] theorem node_setData (w : UInt64) :
    node m (setData m w mem) = { node m mem with data := w } := by
  unfold node setData getSeal getNext getLength getStatus getData
  rw [Word.load64_store64, Word.load_store64_of_disjoint _ (by omega),
    Word.load64_store64_of_disjoint _ (by omega), Word.load_store64_of_disjoint _ (by omega),
    Word.load_store64_of_disjoint _ (by omega)]

section Outside

variable {x : Nat} (h : x < m.toNat ∨ m.toNat + 32 ≤ x)

include h

theorem setSeal_outside (w : UInt32) : setSeal m w mem x = mem x :=
  Word.store_outside w (by omega)

theorem setNext_outside (w : UInt64) : setNext m w mem x = mem x :=
  Word.store64_outside w (by omega)

theorem setLength_outside (w : UInt32) : setLength m w mem x = mem x :=
  Word.store_outside w (by omega)

theorem setStatus_outside (s : MemnodeStatus) : setStatus m s mem x = mem x :=
  Word.store_outside s.word (by omega)

theorem setData_outside (w : UInt64) : setData m w mem x = mem x :=
  Word.store64_outside w (by omega)

end Outside

/-! A node is not changed by what is written to another one. -/

section Other

variable {m' : UInt64} (h : m.toNat + 32 ≤ m'.toNat ∨ m'.toNat + 32 ≤ m.toNat)

include h

theorem node_setSeal_other (w : UInt32) : node m (setSeal m' w mem) = node m mem :=
  node_congr fun _ _ => setSeal_outside (by omega) w

theorem node_setNext_other (w : UInt64) : node m (setNext m' w mem) = node m mem :=
  node_congr fun _ _ => setNext_outside (by omega) w

theorem node_setLength_other (w : UInt32) : node m (setLength m' w mem) = node m mem :=
  node_congr fun _ _ => setLength_outside (by omega) w

theorem node_setStatus_other (s : MemnodeStatus) : node m (setStatus m' s mem) = node m mem :=
  node_congr fun _ _ => setStatus_outside (by omega) s

theorem node_setData_other (w : UInt64) : node m (setData m' w mem) = node m mem :=
  node_congr fun _ _ => setData_outside (by omega) w

end Other

/-! ### A list of nodes -/

/-- The status of a block. -/
def status (free : Bool) : MemnodeStatus := if free then .free else .alloc

theorem status_free_iff (free : Bool) :
    (status free).word = MemnodeStatus.free.word ↔ free = true := by
  cases free <;> decide

/-- The pointer to a block's node. -/
def ptr (b : Block) : UInt64 := UInt64.ofNat b.addr

/-- A block's node, if the next one is at `n`. -/
def header (b : Block) (n : Nat) : Node :=
  ⟨memnodeSeal, UInt64.ofNat n, UInt32.ofNat b.length, (status b.free).word, UInt64.ofNat b.data⟩

/-- Where a list begins, if `n` comes behind it. -/
def link : List Block → Nat → Nat
  | [], n => n
  | b :: _, _ => b.addr

/-- The blocks are in memory. -/
def Held (mem : Mem UInt8) : List Block → Nat → Prop
  | [], _ => True
  | b :: bs, n =>
      node (ptr b) mem = header b (link bs n) ∧
      (b.free = false → Word.load64 mem (b.data - 8) = ptr b) ∧ Held mem bs n

/-- What is handed out of a block lies in it, behind the node. -/
structure Sound (b : Block) : Prop where
  aligned : 8 ∣ b.addr
  above : b.addr + 40 ≤ b.data
  within : b.data ≤ b.stop 40
  fits : b.stop 40 < 2 ^ 64
  small : b.length < 2 ^ 32

/-- The bytes of a block that no one else may write to. -/
def Own (b : Block) (x : Nat) : Prop := b.addr ≤ x ∧ x < if b.free then b.addr + 32 else b.data

theorem Sound.ptr_toNat (hs : Sound b) : (ptr b).toNat = b.addr := by
  have hfits : b.addr + 40 + b.length < 2 ^ 64 := hs.fits
  exact UInt64.toNat_ofNat_of_lt' (show b.addr < 2 ^ 64 by omega)

theorem Sound.ptr_ne_zero (hs : Sound b) (hb : b.addr ≠ 0) : ptr b ≠ 0 := by
  intro h0
  apply hb
  rw [← hs.ptr_toNat, h0]
  rfl

theorem Sound.own_node (hs : Sound b) {k : Nat} (hk : k < 32) : Own b (b.addr + k) := by
  have := hs.above
  refine ⟨by omega, ?_⟩
  cases b.free with
  | true => simp only [if_true]; omega
  | false => simp only [Bool.false_eq_true, if_false]; omega

theorem Own.stop (hs : Sound b) {x : Nat} (ho : Own b x) : x < b.stop 40 := by
  obtain ⟨-, hx⟩ := ho
  have := hs.within
  unfold Block.stop at *
  cases hb : b.free with
  | true => rw [hb] at hx; simp only [if_true] at hx; omega
  | false => rw [hb] at hx; simp only [Bool.false_eq_true, if_false] at hx; omega

theorem held_append : Held mem (bs ++ cs) n ↔ Held mem bs (link cs n) ∧ Held mem cs n := by
  induction bs with
  | nil => simp [Held]
  | cons b bs ih =>
      have hlink : link (bs ++ cs) n = link bs (link cs n) := by cases bs <;> rfl
      simp only [List.cons_append, Held, ih, hlink, and_assoc]

/-- The list is there as long as every block's own bytes are. -/
theorem held_congr (hs : ∀ b ∈ bs, Sound b) (h : ∀ b ∈ bs, ∀ x, Own b x → mem' x = mem x)
    (hheld : Held mem bs n) : Held mem' bs n := by
  induction bs with
  | nil => trivial
  | cons b bs ih =>
      obtain ⟨hnode, hback, hrest⟩ := hheld
      have hsb := hs b (by simp)
      have hsame := h b (by simp)
      refine ⟨?_, ?_, ih (fun c hc => hs c (by simp [hc])) (fun c hc => h c (by simp [hc])) hrest⟩
      · rw [← hnode]
        refine node_congr fun k hk => ?_
        rw [hsb.ptr_toNat]
        exact hsame _ (hsb.own_node hk)
      · intro hfree
        rw [← hback hfree]
        refine Word.load64_congr fun k hk => hsame _ ?_
        have := hsb.above
        unfold Own
        rw [hfree]
        simp only [Bool.false_eq_true, if_false]
        omega

/-- A list of blocks that fills the memory from `a` to `e`, with all its nodes. -/
structure Laid (a e : Nat) (mem : Mem UInt8) (bs : List Block) : Prop where
  start : a ≠ 0
  small : e < a + 2 ^ 32
  tiles : Tiles 40 a bs e
  sound : ∀ b ∈ bs, Sound b
  held : Held mem bs 0

theorem Laid.tail (h : Laid a e mem (b :: bs)) : Laid (b.stop 40) e mem bs where
  start := by
    have := h.tiles.1
    have := h.start
    unfold Block.stop
    omega
  small := by
    have := h.tiles.1
    have := h.small
    unfold Block.stop
    omega
  tiles := h.tiles.2
  sound := fun c hc => h.sound c (List.mem_cons_of_mem b hc)
  held := h.held.2.2

/-- Where the list begins. -/
theorem Laid.link_eq (h : Laid a e mem bs) (hne : bs ≠ []) : link bs 0 = a := by
  cases bs with
  | nil => exact absurd rfl hne
  | cons b bs => exact h.tiles.1

theorem Laid.congr (h : Laid a e mem bs) (hsame : ∀ b ∈ bs, ∀ x, Own b x → mem' x = mem x) :
    Laid a e mem' bs :=
  { h with held := held_congr h.sound hsame h.held }

/-! ### kmemcompact -/

/-- Only nodes of free blocks have changed. -/
def Spares (bs : List Block) (mem mem' : Mem UInt8) : Prop :=
  ∀ x, (∀ b ∈ bs, b.free → ¬Own b x) → mem' x = mem x

theorem Spares.trans (h : Spares bs mem mem') (h' : Spares bs mem' mem'') : Spares bs mem mem'' :=
  fun x hx => (h' x hx).trans (h x hx)

theorem Spares.mono (h : Spares cs mem mem') (hsub : ∀ b ∈ cs, b ∈ bs) : Spares bs mem mem' :=
  fun x hx => h x fun b hb => hx b (hsub b hb)

/-- Blocks behind those that may have changed. -/
theorem Spares.laid (h : Spares cs mem mem') (hcs : ∀ c ∈ cs, Sound c ∧ c.stop 40 ≤ a)
    (hlaid : Laid a e mem bs) : Laid a e mem' bs := by
  refine hlaid.congr fun b hb x ho => h x fun c hc _ ho' => ?_
  have hlt := ho'.stop (hcs c hc).1
  have hstop := (hcs c hc).2
  have hab := (hlaid.tiles.mem hb).1
  have hbx := ho.1
  omega

/-- A block in front of them. -/
theorem Spares.before (h : Spares bs mem mem') (ht : Tiles 40 a bs e) {x : Nat} (hx : x < a) :
    mem' x = mem x := by
  refine h x fun c hc _ ho => ?_
  have := (ht.mem hc).1
  have := ho.1
  omega

/-- Every block still has its node, or the node has lost its seal. -/
def Cleared (bs cs : List Block) (mem : Mem UInt8) : Prop :=
  ∀ b ∈ bs, (∃ c ∈ cs, c.addr = b.addr) ∨ getSeal (ptr b) mem = 0

theorem link_sweep (bs : List Block) : link (sweep 40 bs) n = link bs n := by
  match bs with
  | [] => rfl
  | [b] => rfl
  | b :: c :: bs =>
      by_cases hfree : b.free ∧ c.free
      · simp [sweep, hfree, link, Block.join]
      · simp [sweep, hfree, link]

section Turn

variable (hsb : Sound b) (hsc : Sound c) (hbc : b.stop 40 = c.addr)

include hsb hsc hbc

/-- The node of a block that has taken up the next one. -/
theorem node_joinNext (hheld : Held mem (b :: c :: bs) n) :
    node (ptr b) (joinNext (ptr b) mem) = header (b.join 40 c) (link bs n) := by
  obtain ⟨hnb, -, hnc, -, -⟩ := hheld
  have hstop : b.addr + 40 + b.length = c.addr := hbc
  have hpb := hsb.ptr_toNat
  have hpc := hsc.ptr_toNat
  have hnext : getNext (ptr b) mem = ptr c := congrArg Node.next hnb
  have hlen : getLength (ptr b) mem + (memnodeSize.toUInt32 + getLength (ptr c) mem)
      = UInt32.ofNat (b.length + (40 + c.length)) := by
    rw [show getLength (ptr b) mem = UInt32.ofNat b.length from congrArg Node.length hnb,
      show getLength (ptr c) mem = UInt32.ofNat c.length from congrArg Node.length hnc,
      UInt32.ofNat_add, UInt32.ofNat_add]
    rfl
  unfold joinNext
  dsimp only
  rw [hnext, hlen]
  -- the writes one after the other: each leaves the other node alone
  generalize hlen' : UInt32.ofNat (b.length + (40 + c.length)) = len
  have hb₁ : node (ptr b) (setLength (ptr b) len mem)
      = { header b (link (c :: bs) n) with length := len } := by
    rw [node_setLength, hnb]
  have hc₁ : node (ptr c) (setLength (ptr b) len mem) = node (ptr c) mem :=
    node_setLength_other (by omega) _
  have hnext₁ : getNext (ptr b) (setLength (ptr b) len mem) = ptr c := congrArg Node.next hb₁
  rw [hnext₁]
  have hb₂ : node (ptr b) (setSeal (ptr c) 0 (setLength (ptr b) len mem))
      = { header b (link (c :: bs) n) with length := len } := by
    rw [← hb₁]
    exact node_setSeal_other (by omega) _
  have hc₂ : node (ptr c) (setSeal (ptr c) 0 (setLength (ptr b) len mem))
      = { header c (link bs n) with seal' := 0 } := by
    rw [node_setSeal, hc₁, hnc]
  rw [node_setNext, hb₂, show getNext (ptr b) (setSeal (ptr c) 0 (setLength (ptr b) len mem)) = ptr c
    from congrArg Node.next hb₂]
  have hnextc : getNext (ptr c) (setSeal (ptr c) 0 (setLength (ptr b) len mem))
      = UInt64.ofNat (link bs n) := congrArg Node.next hc₂
  rw [hnextc, ← hlen']
  rfl

/-- The other node has lost its seal. -/
theorem seal_joinNext (hheld : Held mem (b :: c :: bs) n) :
    getSeal (ptr c) (joinNext (ptr b) mem) = 0 := by
  obtain ⟨hnb, -, hnc, -, -⟩ := hheld
  have hstop : b.addr + 40 + b.length = c.addr := hbc
  have hpb := hsb.ptr_toNat
  have hpc := hsc.ptr_toNat
  have hdis : (ptr c).toNat + 32 ≤ (ptr b).toNat ∨ (ptr b).toNat + 32 ≤ (ptr c).toNat := by omega
  have hnext : ∀ len, getNext (ptr b) (setLength (ptr b) len mem) = ptr c := by
    intro len
    show (node (ptr b) _).next = _
    rw [node_setLength, hnb]
    rfl
  show (node (ptr c) (joinNext (ptr b) mem)).seal' = 0
  unfold joinNext
  dsimp only
  rw [node_setNext_other hdis, hnext, node_setSeal]

theorem spares_joinNext (hfree : b.free ∧ c.free) (hnode : node (ptr b) mem = header b c.addr) :
    Spares [b, c] mem (joinNext (ptr b) mem) := by
  intro x hx
  have hpb := hsb.ptr_toNat
  have hpc := hsc.ptr_toNat
  have hstop : b.addr + 40 + b.length = c.addr := hbc
  have hxb := hx b (by simp) hfree.1
  have hxc := hx c (by simp) hfree.2
  unfold Own at hxb hxc
  rw [hfree.1] at hxb
  rw [hfree.2] at hxc
  simp only [if_true] at hxb hxc
  have hnext : ∀ len, getNext (ptr b) (setLength (ptr b) len mem) = ptr c := by
    intro len
    have hset : node (ptr b) (setLength (ptr b) len mem) = { header b c.addr with length := len } := by
      rw [node_setLength, hnode]
    exact congrArg Node.next hset
  unfold joinNext
  rw [setNext_outside (by omega), hnext, setSeal_outside (by omega), setLength_outside (by omega)]

/-- A turn over a block that is joined with the next one. -/
theorem turn_join (hb0 : b.addr ≠ 0) (hfree : b.free ∧ c.free) (hheld : Held mem (b :: c :: bs) 0)
    (k : Nat) : kmemcompactTurn (ptr b, k) mem
      = Part.some (.inr (UInt64.ofNat (link bs 0), k + 1), joinNext (ptr b) mem) := by
  obtain ⟨hnb, -, hnc, -, -⟩ := id hheld
  have hseal : getSeal (ptr b) mem = memnodeSeal := congrArg Node.seal' hnb
  have hnext : getNext (ptr b) mem = ptr c := congrArg Node.next hnb
  have hstb : getStatus (ptr b) mem = (status b.free).word := congrArg Node.status hnb
  have hstc : getStatus (ptr c) mem = (status c.free).word := congrArg Node.status hnc
  rw [hfree.1] at hstb
  rw [hfree.2] at hstc
  have hc0 : c.addr ≠ 0 := by
    unfold Block.stop at hbc
    omega
  have hjoin : getNext (ptr b) (joinNext (ptr b) mem) = UInt64.ofNat (link bs 0) :=
    congrArg Node.next (node_joinNext hsb hsc hbc hheld)
  unfold kmemcompactTurn
  rw [if_neg (hsb.ptr_ne_zero hb0), if_neg (not_not.mpr hseal), hnext,
    if_pos ⟨hsc.ptr_ne_zero hc0, hstb, hstc⟩, hjoin]

end Turn

/-- A turn over a block that is not. -/
theorem turn_keep (hs : Sound b) (hb0 : b.addr ≠ 0) (hheld : Held mem (b :: bs) 0)
    (hkeep : ∀ c cs, bs = c :: cs → ¬(b.free ∧ c.free)) (k : Nat) :
    kmemcompactTurn (ptr b, k) mem = Part.some (.inr (UInt64.ofNat (link bs 0), k), mem) := by
  obtain ⟨hnb, -, hrest⟩ := hheld
  have hseal : getSeal (ptr b) mem = memnodeSeal := congrArg Node.seal' hnb
  have hnext : getNext (ptr b) mem = UInt64.ofNat (link bs 0) := congrArg Node.next hnb
  have hstb : getStatus (ptr b) mem = (status b.free).word := congrArg Node.status hnb
  have hno : ¬(getNext (ptr b) mem ≠ 0 ∧ getStatus (ptr b) mem = MemnodeStatus.free.word ∧
      getStatus (getNext (ptr b) mem) mem = MemnodeStatus.free.word) := by
    intro ⟨hne, hb, hc⟩
    rw [hnext] at hne hc
    cases bs with
    | nil => exact hne rfl
    | cons c cs =>
        have hstc : getStatus (ptr c) mem = (status c.free).word := congrArg Node.status hrest.1
        have hc' : getStatus (ptr c) mem = MemnodeStatus.free.word := hc
        rw [hstb, status_free_iff] at hb
        rw [hstc, status_free_iff] at hc'
        exact hkeep c cs rfl ⟨hb, hc'⟩
  unfold kmemcompactTurn
  dsimp only
  rw [if_neg (hs.ptr_ne_zero hb0), if_neg (not_not.mpr hseal), if_neg hno, hnext]

theorem sound_join (hsb : Sound b) (hsc : Sound c) (hbc : b.stop 40 = c.addr)
    (hsmall : c.stop 40 < b.addr + 2 ^ 32) : Sound (b.join 40 c) := by
  have hfits := hsc.fits
  have hwithin := hsb.within
  unfold Block.stop at *
  constructor
  · exact hsb.aligned
  · exact hsb.above
  all_goals
    simp only [Block.stop, Block.join]
    omega

/-- A block in front of a list. -/
theorem Laid.cons (h : Laid (b.stop 40) e mem bs) (hs : Sound b) (ha : b.addr ≠ 0)
    (hsmall : e < b.addr + 2 ^ 32) (hnode : node (ptr b) mem = header b (link bs 0))
    (hback : b.free = false → Word.load64 mem (b.data - 8) = ptr b) :
    Laid b.addr e mem (b :: bs) where
  start := ha
  small := hsmall
  tiles := ⟨rfl, h.tiles⟩
  sound := by
    intro c hc
    rcases List.mem_cons.mp hc with rfl | hmem
    · exact hs
    · exact h.sound c hmem
  held := ⟨hnode, hback, h.held⟩

/-- Two free blocks in front of a list that is swept. -/
theorem Laid.join (h : Laid a e mem (b :: c :: bs)) (hfree : b.free ∧ c.free)
    (hlaid : Laid (c.stop 40) e mem' (sweep 40 bs))
    (hspare : Spares bs (joinNext (ptr b) mem) mem') :
    Laid a e mem' (b.join 40 c :: sweep 40 bs) := by
  obtain ⟨hba, hcb, hrest⟩ := h.tiles
  have hsb := h.sound b (by simp)
  have hsc := h.sound c (by simp)
  have hce : c.stop 40 ≤ e := (h.tiles.mem (by simp)).2
  have hsmall := h.small
  have hjoin := sound_join hsb hsc hcb.symm (by omega)
  have hnode := node_joinNext hsb hsc hcb.symm h.held
  have hnode' : node (ptr b) mem' = node (ptr b) (joinNext (ptr b) mem) := by
    refine node_congr fun i hi => hspare.before hrest ?_
    rw [hsb.ptr_toNat]
    unfold Block.stop at *
    omega
  subst hba
  rw [← Block.join_stop hcb.symm] at hlaid
  refine hlaid.cons hjoin h.start hsmall ?_ fun hno => ?_
  · rw [link_sweep]
    exact hnode'.trans hnode
  · have hno' : b.free = false := hno
    rw [hfree.1] at hno'
    exact absurd hno' (by simp)

/-- A block in front of a list that is swept, and that it is not joined with. -/
theorem Laid.keep (h : Laid a e mem (b :: bs)) (hlaid : Laid (b.stop 40) e mem' (sweep 40 bs))
    (hspare : Spares bs mem mem') : Laid a e mem' (b :: sweep 40 bs) := by
  obtain ⟨hba, hrest⟩ := h.tiles
  have hsb := h.sound b (by simp)
  have habove := hsb.above
  have hwithin := hsb.within
  subst hba
  refine hlaid.cons hsb h.start h.small ?_ fun hno => ?_
  · rw [link_sweep, ← h.held.1]
    refine node_congr fun i hi => hspare.before hrest ?_
    rw [hsb.ptr_toNat]
    omega
  · rw [← h.held.2.1 hno]
    exact Word.load64_congr fun i hi => hspare.before hrest (by omega)

/-- **The inner loop is a sweep over the list.** -/
theorem loop_sweep (bs : List Block) : ∀ {mem : Mem UInt8} {a : Nat} (k : Nat), Laid a e mem bs →
    ∃ mem', Run.loop kmemcompactTurn (UInt64.ofNat (link bs 0), k) mem
        = Part.some (some (k + (bs.length - (sweep 40 bs).length)), mem') ∧
      Laid a e mem' (sweep 40 bs) ∧ Spares bs mem mem' ∧ Cleared bs (sweep 40 bs) mem' := by
  induction bs using sweep.induct with
  | case1 b c bs hfree ih =>
      intro mem a k h
      obtain ⟨hba, hcb, hrest⟩ := h.tiles
      have hstart := h.start
      have hsb := h.sound b (by simp)
      have hsc := h.sound c (by simp)
      have hturn := turn_join hsb hsc hcb.symm (by omega) hfree h.held k
      have hspare := spares_joinNext hsb hsc hcb.symm hfree h.held.1
      -- what lies behind the two is still there, and is swept next
      have hbehind : Laid (c.stop 40) e (joinNext (ptr b) mem) bs := by
        refine hspare.laid (fun d hd => ?_) h.tail.tail
        unfold Block.stop at *
        rcases List.mem_pair.mp hd with rfl | rfl
        · exact ⟨hsb, by omega⟩
        · exact ⟨hsc, by omega⟩
      obtain ⟨mem', hloop, hlaid, hspare', hclear⟩ := ih (k + 1) hbehind
      have hlen := sweep_length_le (h := 40) bs
      have hcount : k + ((b :: c :: bs).length - (sweep 40 (b :: c :: bs)).length)
          = k + 1 + (bs.length - (sweep 40 bs).length) := by
        rw [sweep, if_pos hfree]
        simp only [List.length_cons]
        omega
      refine ⟨mem', ?_, ?_, (hspare.mono (by simp)).trans (hspare'.mono (by simp; tauto)), ?_⟩
      · rw [hcount, ← hloop]
        exact Run.loop_next hturn
      · rw [sweep, if_pos hfree]
        exact h.join hfree hlaid hspare'
      · rw [sweep, if_pos hfree]
        intro d hd
        simp only [List.mem_cons] at hd
        rcases hd with rfl | rfl | hd
        · exact Or.inl ⟨_, List.mem_cons_self, rfl⟩
        · refine Or.inr ?_
          rw [← seal_joinNext hsb hsc hcb.symm h.held]
          refine congrArg Node.seal' (node_congr fun i hi => hspare'.before hrest ?_)
          rw [hsc.ptr_toNat]
          unfold Block.stop
          omega
        · rcases hclear d hd with ⟨x, hx, hxd⟩ | hseal
          · exact Or.inl ⟨x, List.mem_cons_of_mem _ hx, hxd⟩
          · exact Or.inr hseal
  | case2 b c bs hfree ih =>
      intro mem a k h
      have hba := h.tiles.1
      have hstart := h.start
      have hturn := turn_keep (h.sound b (by simp)) (by omega) h.held
        (fun c' cs' heq => by obtain ⟨rfl, rfl⟩ := List.cons.inj heq; exact hfree) k
      obtain ⟨mem', hloop, hlaid, hspare, hclear⟩ := ih k h.tail
      have hcount : k + ((b :: c :: bs).length - (sweep 40 (b :: c :: bs)).length)
          = k + ((c :: bs).length - (sweep 40 (c :: bs)).length) := by
        rw [sweep, if_neg hfree]
        simp only [List.length_cons]
        omega
      refine ⟨mem', ?_, ?_, hspare.mono fun d hd => List.mem_cons_of_mem b hd, ?_⟩
      · rw [hcount, ← hloop]
        exact Run.loop_next hturn
      · rw [sweep, if_neg hfree]
        exact h.keep hlaid hspare
      · rw [sweep, if_neg hfree]
        intro d hd
        rcases List.mem_cons.mp hd with rfl | hd
        · exact Or.inl ⟨_, List.mem_cons_self, rfl⟩
        · rcases hclear d hd with ⟨x, hx, hxd⟩ | hseal
          · exact Or.inl ⟨x, List.mem_cons_of_mem _ hx, hxd⟩
          · exact Or.inr hseal
  | case3 bs hbs =>
      intro mem a k h
      rw [sweep.eq_2 40 bs hbs, Nat.sub_self]
      refine ⟨mem, ?_, h, fun _ _ => rfl, fun b hb => Or.inl ⟨b, hb, rfl⟩⟩
      cases bs with
      | nil => exact Run.loop_done rfl
      | cons b cs =>
          obtain rfl : cs = [] := by
            cases cs with
            | nil => rfl
            | cons c cs => exact absurd rfl (hbs b c cs)
          have hturn := turn_keep (h.sound b (by simp)) (by rw [h.tiles.1]; exact h.start) h.held
            (by simp) k
          exact (Run.loop_next hturn).trans (Run.loop_done rfl)

/-- What spares the free blocks of a sweep spares those that were there before. -/
theorem Spares.of_sweep (h : Spares (sweep 40 bs) mem mem') : Spares bs mem mem' := by
  refine fun x hx => h x fun b hb hfree ho => ?_
  obtain ⟨c, hc, hcfree, haddr⟩ := free_of_mem_sweep hb hfree
  refine hx c hc hcfree ?_
  unfold Own at ho ⊢
  rw [hcfree, haddr]
  rw [hfree] at ho
  exact ho

/-- A seal that is lost stays lost. -/
theorem Cleared.trans {cs : List Block} (hlaid : Laid a e mem bs)
    (h : Cleared bs (sweep 40 bs) mem') (hspare : Spares (sweep 40 bs) mem' mem'')
    (h' : Cleared (sweep 40 bs) cs mem'') : Cleared bs cs mem'' := by
  intro b hb
  by_cases hstay : ∃ c ∈ sweep 40 bs, c.addr = b.addr
  · obtain ⟨c, hc, hcb⟩ := hstay
    have hptr : ptr b = ptr c := congrArg UInt64.ofNat hcb.symm
    rw [hptr, ← hcb]
    exact h' c hc
  · refine Or.inr ?_
    rw [← (h b hb).resolve_left hstay]
    refine congrArg Node.seal' (node_congr fun i hi => hspare _ fun c hc hfree ho => ?_)
    -- a free block of the sweep begins where another block began
    obtain ⟨d, hd, -, hdc⟩ := free_of_mem_sweep hc hfree
    have hne : d ≠ b := by
      rintro rfl
      exact hstay ⟨c, hc, hdc.symm⟩
    have hdis := hlaid.tiles.disjoint hd hb hne
    obtain ⟨hlo, hhi⟩ := ho
    rw [hfree] at hhi
    simp only [if_true] at hhi
    rw [(hlaid.sound b hb).ptr_toNat] at hlo hhi
    unfold Block.stop at hdis
    omega

/-- **`kmemcompact` coalesces the list**, and writes only to nodes of free blocks. -/
theorem kmemcompact_eq {pool : Mempool} (hroot : pool.root = UInt64.ofNat a) (bs : List Block) :
    ∀ {mem : Mem UInt8}, Laid a e mem bs → bs ≠ [] →
    ∃ mem', kmemcompact pool mem = Part.some ((), mem') ∧ Laid a e mem' (coalesce 40 bs) ∧
      Spares bs mem mem' ∧ Cleared bs (coalesce 40 bs) mem' := by
  -- by the number of blocks, which a sweep that joined some makes smaller
  induction hlen : bs.length using Nat.strong_induction_on generalizing bs with
  | _ len ih =>
      intro mem h hne
      obtain ⟨mem', hloop, hlaid, hspare, hclear⟩ := loop_sweep bs 0 h
      have hlink := h.link_eq hne
      rw [hlink, ← hroot, Nat.zero_add] at hloop
      have hle := sweep_length_le (h := 40) bs
      have hpass : kmemcompactPass pool () mem = Part.some
          (if 0 < bs.length - (sweep 40 bs).length then .inr () else .inl (), mem') :=
        Run.bind_eq hloop
      by_cases hshort : (sweep 40 bs).length < bs.length
      · have hne' : sweep 40 bs ≠ [] := by
          intro hnil
          have := link_sweep (n := 0) bs
          rw [hnil, hlink] at this
          exact h.start this.symm
        obtain ⟨mem'', hrest, hlaid', hspare', hclear'⟩ :=
          ih _ (by omega) (sweep 40 bs) rfl hlaid hne'
        rw [if_pos (by omega)] at hpass
        rw [coalesce_sweep] at hlaid' hclear'
        exact ⟨mem'', (Run.loop_next hpass).trans hrest, hlaid', hspare.trans hspare'.of_sweep,
          hclear.trans h hspare' hclear'⟩
      · have hap : Apart bs := apart_of_sweep (h := 40) (by omega)
        have hself : sweep 40 bs = bs := sweep_eq_self hap
        rw [if_neg (by omega)] at hpass
        rw [coalesce_eq_self hap]
        rw [hself] at hlaid
        exact ⟨mem', Run.loop_done hpass, hlaid, hspare, fun b hb => Or.inl ⟨b, hb, rfl⟩⟩

/-- A list that is coalesced is not touched. -/
theorem loop_apart (k : Nat) : ∀ {a : Nat} {bs : List Block}, Laid a e mem bs → Apart bs →
    Run.loop kmemcompactTurn (UInt64.ofNat (link bs 0), k) mem = Part.some (some k, mem) := by
  intro a bs
  induction bs generalizing a with
  | nil => intro _ _; exact Run.loop_done rfl
  | cons b bs ih =>
      intro h hap
      have hb0 : b.addr ≠ 0 := by rw [h.tiles.1]; exact h.start
      have hturn := turn_keep (h.sound b (by simp)) hb0 h.held
        (fun c cs heq => by subst heq; exact (List.isChain_cons_cons.mp hap).1) k
      exact (Run.loop_next hturn).trans (ih h.tail hap.tail)

theorem kmemcompact_apart {pool : Mempool} (hroot : pool.root = UInt64.ofNat a)
    (h : Laid a e mem bs) (hap : Apart bs) (hne : bs ≠ []) :
    kmemcompact pool mem = Part.some ((), mem) := by
  have hloop := loop_apart 0 h hap
  rw [h.link_eq hne, ← hroot] at hloop
  exact Run.loop_done (Run.bind_eq hloop)

end Xell.Malloc
