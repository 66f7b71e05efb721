/-
Results across calls and restarts.

`current_block` goes back to 0 in two places: when `do_tftp` is entered, and when half of
`maxtries` timeouts have passed in a row.  Neither place takes `ptr` back with it.  If
something was stored before, the transfer that follows lands behind it and the result is
too long by as much.

So the results of a boot are right as long as `ptr` is 0 whenever `current_block` is set
to 0.  `CleanCalls` says that of a sequence of calls; the network may do what it likes
apart from that, as long as what it delivers are blocks of the file asked for.
-/
import Xell.Proofs.Tftp.Client

namespace Xell.Tftp

/-- A call of `do_tftp`, what the server has under the name asked for, and what happens. -/
structure Call where
  target : Nat
  maxlen : Int
  server : UInt32
  file : List UInt8
  content : List UInt8
  pcb : Bool
  its : List Iteration

def Call.run (c : Call) (s : Statics) : Option (Int × Statics) :=
  doTftp c.target c.maxlen c.server c.file c.pcb c.its s

/-- The server sends the file, and what arrives are blocks of it: late, often, or never. -/
structure Call.Served (c : Call) : Prop where
  long : 512 ≤ c.content.length
  servable : Servable c.content c.maxlen
  genuine : ∀ it ∈ c.its, ∀ d ∈ it.arrived, Genuine c.content d.1

/-- A result that is not negative is the length of the file, and the file is in memory. -/
def Call.Right (c : Call) (r : Int × Statics) : Prop :=
  0 ≤ r.1 → r.1 = c.content.length ∧ r.2.mem.slice c.target c.content.length = c.content

/-- The calls of one boot that return, with their results. -/
def runCalls : List Call → Statics → List (Call × (Int × Statics))
  | [], _ => []
  | c :: cs, s =>
      match c.run s with
      | none => []
      | some r => (c, r) :: runCalls cs r.2

/-! ### Resets -/

/-- No timeout of the loop sets `current_block` to 0 while `ptr` is not. -/
def CleanLoop (file : List UInt8) (server : UInt32) : List Iteration → Statics → Prop
  | [], _ => True
  | it :: its, s => s.tftpState ≠ .finish →
      (it.late = true → Restarts s → s.ptr = 0) ∧
        ((body file server it.late it.alloc s).left = false →
          CleanLoop file server its (poll it.arrived (body file server it.late it.alloc s).st))

/-- Neither does a timeout of any call, nor the start of one. -/
def CleanCalls : List Call → Statics → Prop
  | [], _ => True
  | c :: cs, s =>
      (c.pcb = true → s.ptr = 0 ∧ CleanLoop c.file c.server c.its (enter c.target c.maxlen s)) ∧
        ∀ r, c.run s = some r → CleanCalls cs r.2

/-! ### One call -/

section Loop

variable {F : List UInt8} {target : Nat} {maxlen : Int}

/-- The loop is left with a negative result, or with all blocks. -/
theorem doTftpLoop_holds (hF : Servable F maxlen) (hne : F ≠ []) (file : List UInt8)
    (server : UInt32) :
    ∀ (its : List Iteration) (s : Statics), (∀ it ∈ its, ∀ d ∈ it.arrived, Genuine F d.1) →
      Holds F target maxlen s → CleanLoop file server its s →
      ∀ s', (doTftpLoop file server its s).2 = some s' →
        s'.tftpResult < 0 ∨ (Holds F target maxlen s' ∧ s'.currentBlock = blocks F) := by
  intro its
  induction its with
  | nil =>
      intro s _ h _ s' hend
      simp only [doTftpLoop] at hend
      split at hend
      · rename_i hfin
        obtain rfl := Option.some.inj hend
        exact Or.inr ⟨h, h.finish hfin⟩
      · simp at hend
  | cons it its ih =>
      intro s hgen h hclean s' hend
      rw [doTftpLoop] at hend
      split at hend
      · rename_i hfin
        obtain rfl := Option.some.inj hend
        exact Or.inr ⟨h, h.finish hfin⟩
      rename_i hrun
      obtain ⟨hreset, hrest⟩ := hclean hrun
      dsimp only at hend
      split at hend
      · rename_i hleft
        obtain rfl := Option.some.inj hend
        exact Or.inl (body_left hleft)
      · rename_i hleft
        have hbody := h.body file server it.alloc fun hlate hre =>
          h.currentBlock_zero hne (hreset hlate hre)
        exact ih _ (fun it' hit' => hgen it' (List.mem_cons_of_mem _ hit'))
          (Holds.poll hF _ _ (hgen it List.mem_cons_self) hbody) (hrest (by simpa using hleft))
          s' hend

end Loop

theorem Call.right_of_clean {c : Call} (hc : c.Served) {s : Statics}
    (hclean : c.pcb = true →
      s.ptr = 0 ∧ CleanLoop c.file c.server c.its (enter c.target c.maxlen s))
    {r : Int × Statics} (hrun : c.run s = some r) : c.Right r := by
  unfold Call.run doTftp at hrun
  split at hrun
  · obtain rfl := Option.some.inj hrun
    intro hr
    simp at hr
  · rename_i hpcb
    obtain ⟨hptr, hloop⟩ := hclean (by simpa using hpcb)
    obtain ⟨s', hend, rfl⟩ := Option.map_eq_some_iff.mp hrun
    intro hr
    have hne : c.content ≠ [] := fun h => by
      have := hc.long
      simp [h] at this
    rcases doTftpLoop_holds hc.servable hne c.file c.server c.its _ hc.genuine
      (Holds.enter c.target c.maxlen hptr) hloop s' hend with hneg | ⟨hholds, hall⟩
    · rw [if_pos hneg] at hr
      exact absurd hr (Int.not_le.mpr hneg)
    · obtain ⟨hlen, hmem⟩ := hholds.ptr_all hall
      dsimp only at hr ⊢
      split at hr
      · rename_i hneg
        exact absurd hr (Int.not_le.mpr hneg)
      · rename_i hneg
        rw [if_neg hneg]
        exact ⟨hlen, hmem⟩

/-! ### A whole boot -/

/-- **Every result of a boot is right**, if `ptr` is 0 whenever `current_block` is set to 0. -/
theorem calls_right :
    ∀ (calls : List Call) (s : Statics), (∀ c ∈ calls, c.Served) → CleanCalls calls s →
      ∀ x ∈ runCalls calls s, x.1.Right x.2 := by
  intro calls
  induction calls with
  | nil => intro s _ _ x hx; simp [runCalls] at hx
  | cons c calls ih =>
      intro s hserved hclean x hx
      rw [runCalls] at hx
      split at hx
      · simp at hx
      · rename_i r hrun
        rcases List.mem_cons.mp hx with rfl | hrest
        · exact Call.right_of_clean (hserved c List.mem_cons_self) hclean.1 hrun
        · exact ih r.2 (fun c' hc' => hserved c' (List.mem_cons_of_mem _ hc'))
            (hclean.2 r hrun) x hrest

/-! ### Two calls, and a restart -/

/-- A turn of the loop in which block `k` of the file arrives. -/
def arrives (k : Nat) : Iteration where
  late := false
  alloc := true
  arrived := [(Pbuf.of (dataPacket oneBlock k), ⟨0, 1000⟩)]

/-- A turn of the loop in which nothing arrives for 500 ms. -/
def silence : Iteration := { late := true, alloc := true, arrived := [] }

/-- A call for the file, with the given turns. -/
def fetch (its : List Iteration) : Call where
  target := 0
  maxlen := 0x1000000
  server := 0
  file := []
  content := oneBlock
  pcb := true
  its := its

theorem fetch_served {its : List Iteration}
    (h : ∀ it ∈ its, it = silence ∨ it = arrives 1 ∨ it = arrives 2) : (fetch its).Served where
  long := (List.length_replicate (n := 512)).ge
  servable := oneBlock_servable
  genuine it hit d hd := by
    rcases h it hit with rfl | rfl | rfl
    · simp [silence] at hd
    · obtain rfl := List.mem_singleton.mp hd
      exact ⟨1, Nat.le_refl _, Nat.le_add_left _ _, Pbuf.bytes_of _⟩
    · obtain rfl := List.mem_singleton.mp hd
      exact ⟨2, by decide, oneBlock_blocks.ge, Pbuf.bytes_of _⟩

/-- A call in which the request, a block and an answer get lost or repeated. -/
def troubled : Call := fetch [silence, arrives 1, arrives 1, silence, arrives 2]

/-- It returns 512, and the result is right. -/
theorem troubled_right :
    (runCalls [troubled] Statics.fresh).map (fun x => x.2.1) = [512] ∧
      ∀ x ∈ runCalls [troubled] Statics.fresh, x.1.Right x.2 := by
  refine ⟨by decide +kernel, calls_right _ _ (fun c hc => ?_) ⟨fun _ => ⟨rfl, ?_⟩,
    fun _ _ => trivial⟩⟩
  · obtain rfl := List.mem_singleton.mp hc
    exact fetch_served (by simp)
  · refine fun _ => ⟨fun _ _ => rfl, fun _ _ => ⟨fun h => ?_, fun _ _ => ⟨fun h => ?_,
      fun _ _ => ⟨fun _ h => ?_, fun _ _ => ⟨fun h => ?_, fun _ => trivial⟩⟩⟩⟩⟩
    · simp [arrives] at h
    · simp [arrives] at h
    · exact absurd h (by decide +kernel)
    · simp [arrives] at h

/-- Block 1 comes, the server falls silent, and after the restart the whole file comes. -/
def restarted : Call :=
  fetch ([arrives 1] ++ List.replicate 5 silence ++ [arrives 1, arrives 2])

/--
Two results of 1024 for a file of 512 bytes: from a second call in the same boot, and from
a first call that restarts.
-/
theorem too_long_after_reset :
    (runCalls [fetch [arrives 1, arrives 2], fetch [arrives 1, arrives 2]] Statics.fresh).map
        (fun x => x.2.1) = [512, 1024] ∧
      restarted.Served ∧ (restarted.run Statics.fresh).map Prod.fst = some 1024 ∧
      ¬ ∀ r, restarted.run Statics.fresh = some r → restarted.Right r := by
  have hrun : (restarted.run Statics.fresh).map Prod.fst = some 1024 := by decide +kernel
  refine ⟨by decide +kernel, fetch_served (by simp), hrun, fun hall => ?_⟩
  obtain ⟨r, hr, hval⟩ := Option.map_eq_some_iff.mp hrun
  have hlen := (hall r hr (by rw [hval]; decide)).1
  rw [hval] at hlen
  exact absurd hlen (by decide +kernel)

end Xell.Tftp
