/-
Where the parser reads and writes its line buffer.

The line that `httpd_receive_char` hands over is at most 256 bytes and a NUL, so that it ends
inside of the array, and the loops stop at the first NUL.  `CStr` is a C string in memory; each
loop is described by the string it starts on, the string it stops on, and the places it touched,
which lie between the start and the NUL of the first.

What comes out of bounds is the look at the byte before the end of a header's value.  The value
is empty and at the start of the array if the line starts with a NUL, and then this byte is the
one before the array.  That is the only case: `linebuffer_inside_iff`.
-/
import Xell.Linebuffer
import Xell.Proofs.Httpd.Request

namespace Xell.Httpd

/-! ### Places that are touched -/

/-- From `b` to `b'`, places between `lo` and `hi` were touched and none besides. -/
structure Touches (lo hi : Int) (b b' : Linebuffer) : Prop where
  touched : ∃ is, b'.touched = b.touched ++ is ∧ ∀ i ∈ is, lo ≤ i ∧ i ≤ hi
  frame : ∀ i, i < lo ∨ hi < i → b'.mem i = b.mem i

namespace Touches

variable {lo hi lo' hi' i : Int} {b b' b'' : Linebuffer}

theorem refl (lo hi : Int) (b : Linebuffer) : Touches lo hi b b :=
  ⟨⟨[], by simp⟩, fun _ _ => rfl⟩

theorem trans (t : Touches lo hi b b') (t' : Touches lo hi b' b'') : Touches lo hi b b'' := by
  obtain ⟨⟨is, hb, his⟩, hframe⟩ := t
  obtain ⟨⟨is', hb', his'⟩, hframe'⟩ := t'
  refine ⟨⟨is ++ is', by rw [hb', hb, List.append_assoc], ?_⟩, ?_⟩
  · intro i hi
    rcases List.mem_append.mp hi with hi | hi
    · exact his i hi
    · exact his' i hi
  · intro i hi
    rw [hframe' i hi, hframe i hi]

theorem mono (t : Touches lo hi b b') (hlo : lo' ≤ lo) (hhi : hi ≤ hi') :
    Touches lo' hi' b b' := by
  obtain ⟨⟨is, hb, his⟩, hframe⟩ := t
  refine ⟨⟨is, hb, ?_⟩, ?_⟩
  · intro i hi
    have := his i hi
    omega
  · intro i hi
    apply hframe
    omega

theorem read (hlo : lo ≤ i) (hhi : i ≤ hi) (b : Linebuffer) : Touches lo hi b (b.read i) :=
  ⟨⟨[i], rfl, by simp [hlo, hhi]⟩, fun _ _ => rfl⟩

theorem write (hlo : lo ≤ i) (hhi : i ≤ hi) (c : UInt8) (b : Linebuffer) :
    Touches lo hi b (b.write i c) := by
  refine ⟨⟨[i], rfl, by simp [hlo, hhi]⟩, ?_⟩
  intro j hj
  exact Function.update_of_ne (by omega) _ _

end Touches

/-! ### Strings in memory -/

/-- The bytes `l` from `p` on. -/
def Stored (mem : Int → UInt8) : Int → List UInt8 → Prop
  | _, [] => True
  | p, c :: l => mem p = c ∧ Stored mem (p + 1) l

/-- The C string at `p`. -/
def CStr (mem : Int → UInt8) : Int → List UInt8 → Prop
  | p, [] => mem p = 0
  | p, c :: t => mem p = c ∧ c ≠ 0 ∧ CStr mem (p + 1) t

theorem Stored.congr {mem mem' : Int → UInt8} {p : Int} {l : List UInt8} (hs : Stored mem p l)
    (hmem : ∀ i, p ≤ i → i < p + l.length → mem' i = mem i) : Stored mem' p l := by
  induction l generalizing p with
  | nil => trivial
  | cons c l ih =>
      rw [List.length_cons] at hmem
      refine ⟨?_, ih hs.2 fun i hlo hhi => hmem i (by omega) (by push_cast; omega)⟩
      rw [hmem p (by omega) (by push_cast; omega)]
      exact hs.1

theorem Stored.snoc {mem : Int → UInt8} {p : Int} {l : List UInt8} {c : UInt8}
    (hs : Stored mem p l) (hc : mem (p + l.length) = c) : Stored mem p (l ++ [c]) := by
  induction l generalizing p with
  | nil =>
      rw [List.length_nil, Int.ofNat_zero, Int.add_zero] at hc
      exact ⟨hc, trivial⟩
  | cons d l ih =>
      refine ⟨hs.1, ih hs.2 ?_⟩
      rw [← hc, List.length_cons]
      congr 1
      push_cast
      omega

theorem CStr.congr {mem mem' : Int → UInt8} {p : Int} {t : List UInt8} (hs : CStr mem p t)
    (hmem : ∀ i, p ≤ i → i ≤ p + t.length → mem' i = mem i) : CStr mem' p t := by
  induction t generalizing p with
  | nil =>
      show mem' p = 0
      rw [hmem p (by omega) (by simp)]
      exact hs
  | cons c t ih =>
      rw [List.length_cons] at hmem
      refine ⟨?_, hs.2.1, ih hs.2.2 fun i hlo hhi => hmem i (by omega) (by push_cast; omega)⟩
      rw [hmem p (by omega) (by push_cast; omega)]
      exact hs.1

/-- A line with a NUL behind it is a string up to its own first NUL. -/
theorem Stored.cstr {mem : Int → UInt8} {p : Int} {l : List UInt8} (hs : Stored mem p l)
    (hnul : mem (p + l.length) = 0) : CStr mem p (l.takeWhile (· ≠ 0)) := by
  induction l generalizing p with
  | nil =>
      rw [List.length_nil, Int.ofNat_zero, Int.add_zero] at hnul
      exact hnul
  | cons c l ih =>
      by_cases hc : c = 0
      · rw [List.takeWhile_cons_of_neg (by simp [hc])]
        show mem p = 0
        rw [hs.1, hc]
      · rw [List.takeWhile_cons_of_pos (by simp [hc])]
        refine ⟨hs.1, hc, ih hs.2 ?_⟩
        rw [← hnul, List.length_cons]
        congr 1
        push_cast
        omega

/-! ### The loops -/

theorem blankLoop_spec {n : Nat} {p : Int} {t : List UInt8} {b : Linebuffer}
    (hs : CStr b.mem p t) (hn : t.length < n) :
    ∃ q b', blankLoop n p b = some (q, b') ∧ CStr b'.mem p (cutBlank t).1 ∧
      CStr b'.mem q (cutBlank t).2 ∧ q + (cutBlank t).2.length = p + t.length ∧
      p ≤ q ∧ b'.ptr = b.ptr ∧ Touches p (p + t.length) b b' := by
  induction t generalizing n p b with
  | nil =>
      obtain ⟨n, rfl⟩ : ∃ m, n = m + 1 := ⟨n - 1, by simp at hn; omega⟩
      have hnul : b.mem p = 0 := hs
      refine ⟨p, b.read p, ?_, hs, hs, rfl, by omega, rfl, .read (by omega) (by simp) b⟩
      unfold blankLoop
      exact if_pos hnul
  | cons c t ih =>
      obtain ⟨n, rfl⟩ : ∃ m, n = m + 1 := ⟨n - 1, by simp at hn; omega⟩
      obtain ⟨hc, hne, ht⟩ := hs
      have hread : Touches p (p + (c :: t).length) b (b.read p) :=
        .read (by omega) (by rw [List.length_cons]; omega) b
      unfold blankLoop cutBlank
      dsimp only
      rw [show (b.read p).mem p = c from hc, if_neg hne]
      by_cases hblank : c = 0x20
      · rw [if_pos hblank, if_pos hblank]
        have hwrite : Touches p (p + (c :: t).length) (b.read p) ((b.read p).write p 0) :=
          .write (by omega) (by rw [List.length_cons]; omega) 0 _
        refine ⟨p + 1, _, rfl, Function.update_self _ _ _, ?_, ?_, by omega, rfl,
          hread.trans hwrite⟩
        · refine ht.congr fun i hlo _ => ?_
          exact Function.update_of_ne (by omega) _ _
        · rw [List.length_cons]
          push_cast
          omega
      · rw [if_neg hblank, if_neg hblank]
        obtain ⟨q, b', hloop, hfirst, hsecond, hq, hle, hptr, htouch⟩ :=
          ih (n := n) (b := b.read p) ht (by rw [List.length_cons] at hn; omega)
        have hp : b'.mem p = c := (htouch.frame p (by omega)).trans hc
        refine ⟨q, b', hloop, ⟨hp, hne, hfirst⟩, hsecond, ?_, by omega, hptr, hread.trans ?_⟩
        · rw [hq, List.length_cons]
          push_cast
          omega
        · exact htouch.mono (by omega) (by rw [List.length_cons]; push_cast; omega)

theorem CStr.head {mem : Int → UInt8} {p : Int} {t : List UInt8} (hs : CStr mem p t) :
    mem p = 0 ↔ t = [] := by
  cases t with
  | nil => exact ⟨fun _ => rfl, fun _ => hs⟩
  | cons c t =>
      constructor
      · intro hnul
        exact absurd (hs.1.symm.trans hnul) hs.2.1
      · intro hnil
        cases hnil

theorem strncmpAt_spec {p : Int} {t : List UInt8} {b : Linebuffer} (hs : CStr b.mem p t)
    (text : List UInt8) (htext : 0 ∉ text) :
    (strncmpAt text p b).1 = decide (t.take text.length = text) ∧
      (strncmpAt text p b).2.mem = b.mem ∧ (strncmpAt text p b).2.ptr = b.ptr ∧
      Touches p (p + t.length) b (strncmpAt text p b).2 := by
  induction text generalizing p t b with
  | nil => exact ⟨by simp [strncmpAt], rfl, rfl, .refl _ _ b⟩
  | cons d text ih =>
      obtain ⟨hd, htext'⟩ : ¬ 0 = d ∧ 0 ∉ text := by simpa using htext
      have hread : Touches p (p + t.length) b (b.read p) := .read (by omega) (by omega) b
      unfold strncmpAt
      dsimp only
      rw [show (b.read p).mem p = b.mem p from rfl]
      cases t with
      | nil =>
          have hnul : b.mem p = 0 := hs
          rw [if_pos (by rw [hnul]; exact hd)]
          exact ⟨by simp, rfl, rfl, hread⟩
      | cons c t =>
          obtain ⟨hc, hne, ht⟩ := hs
          rw [hc]
          by_cases hcd : c = d
          · rw [if_neg (by simp [hcd]), if_neg hne]
            obtain ⟨heq, hmem, hptr, htouch⟩ := ih (b := b.read p) ht htext'
            refine ⟨?_, hmem, hptr, hread.trans ?_⟩
            · rw [heq]
              simp [hcd]
            · exact htouch.mono (by omega) (by rw [List.length_cons]; push_cast; omega)
          · rw [if_pos hcd]
            exact ⟨by simp [hcd], rfl, rfl, hread⟩

theorem badRequestAt_spec {p v : Int} (hi : Int) {path version : List UInt8} {b : Linebuffer}
    (hpath : CStr b.mem p path) (hversion : CStr b.mem v version) (hle : p ≤ v)
    (hend : v + version.length ≤ hi) :
    (badRequestAt p v b).1 = badRequest path version ∧ (badRequestAt p v b).2.mem = b.mem ∧
      (badRequestAt p v b).2.ptr = b.ptr ∧ Touches p hi b (badRequestAt p v b).2 := by
  have hp : Touches p hi b (b.read p) := .read (by omega) (by omega) b
  have hv : Touches p hi (b.read p) ((b.read p).read v) := .read (by omega) (by omega) _
  have hlen : (bytes "HTTP/1.").length = 7 := by decide
  unfold badRequestAt badRequest
  dsimp only
  rw [show (b.read p).mem p = b.mem p from rfl]
  by_cases hnil : path = []
  · rw [if_pos (hpath.head.mpr hnil)]
    exact ⟨by simp [hnil], rfl, rfl, hp⟩
  rw [if_neg fun h0 => hnil (hpath.head.mp h0),
    show ((b.read p).read v).mem v = b.mem v from rfl]
  by_cases hnil' : version = []
  · rw [if_pos (hversion.head.mpr hnil')]
    exact ⟨by simp [hnil'], rfl, rfl, hp.trans hv⟩
  rw [if_neg fun h0 => hnil' (hversion.head.mp h0)]
  obtain ⟨heq, hmem, hptr, htouch⟩ :=
    strncmpAt_spec (b := (b.read p).read v) hversion (bytes "HTTP/1.") (by decide)
  refine ⟨?_, hmem, hptr, (hp.trans hv).trans (htouch.mono hle hend)⟩
  rw [heq, hlen]
  simp [hnil, hnil']

/-- The loop over a header line stops on a string, which is not the line unless that is empty. -/
theorem colonLoop_spec {n : Nat} {p : Int} {t : List UInt8} {b : Linebuffer}
    (hs : CStr b.mem p t) (hn : t.length < n) :
    ∃ q b' t', colonLoop n p b = some (q, b') ∧ CStr b'.mem q t' ∧
      q + t'.length = p + t.length ∧ p ≤ q ∧ (t ≠ [] → p < q) ∧ b'.ptr = b.ptr ∧
      Touches p (p + t.length) b b' := by
  induction t generalizing n p b with
  | nil =>
      obtain ⟨n, rfl⟩ : ∃ m, n = m + 1 := ⟨n - 1, by simp at hn; omega⟩
      have hnul : b.mem p = 0 := hs
      refine ⟨p, b.read p, [], ?_, hs, rfl, by omega, fun h => absurd rfl h, rfl,
        .read (by omega) (by simp) b⟩
      unfold colonLoop
      exact if_pos hnul
  | cons c t ih =>
      obtain ⟨n, rfl⟩ : ∃ m, n = m + 1 := ⟨n - 1, by simp at hn; omega⟩
      obtain ⟨hc, hne, ht⟩ := hs
      have hlen : ((c :: t).length : Int) = t.length + 1 := by simp
      have hread : Touches p (p + (c :: t).length) b (b.read p) :=
        .read (by omega) (by omega) b
      unfold colonLoop
      dsimp only
      rw [show (b.read p).mem p = c from hc, if_neg hne]
      by_cases hcolon : c = 0x3a
      · rw [if_pos hcolon]
        have hwrite : Touches p (p + (c :: t).length) (b.read p) ((b.read p).write p 0) :=
          .write (by omega) (by omega) 0 _
        have hnext : Touches p (p + (c :: t).length) ((b.read p).write p 0)
            (((b.read p).write p 0).read (p + 1)) := .read (by omega) (by omega) _
        have htouch := (hread.trans hwrite).trans hnext
        -- the string behind the colon is as it was
        have ht' : CStr (((b.read p).write p 0).read (p + 1)).mem (p + 1) t := by
          refine ht.congr fun i hlo _ => ?_
          exact Function.update_of_ne (by omega) _ _
        have hptr : (((b.read p).write p 0).read (p + 1)).ptr = b.ptr := rfl
        generalize ((b.read p).write p 0).read (p + 1) = b₁ at htouch ht' hptr
        by_cases hblank : b₁.mem (p + 1) = 0x20
        · rw [if_pos hblank]
          cases t with
          | nil =>
              exact absurd (hblank.symm.trans ht') (by decide)
          | cons d t =>
              have hlen' : ((d :: t).length : Int) = t.length + 1 := by simp
              have hmem : CStr b₁.mem (p + 2) t := by
                have := ht'.2.2
                rwa [show p + 1 + 1 = p + 2 by omega] at this
              exact ⟨p + 2, b₁, t, rfl, hmem, by omega, by omega, fun _ => by omega, hptr, htouch⟩
        · rw [if_neg hblank]
          exact ⟨p + 1, b₁, t, rfl, ht', by omega, by omega, fun _ => by omega, hptr, htouch⟩
      · rw [if_neg hcolon]
        obtain ⟨q, b', t', hloop, hs', hq, hle, -, hptr, htouch⟩ :=
          ih (n := n) (b := b.read p) ht (by omega)
        exact ⟨q, b', t', hloop, hs', by omega, by omega, fun _ => by omega, hptr,
          hread.trans (htouch.mono (by omega) (by omega))⟩

theorem strlenAt_spec {n : Nat} {p : Int} {t : List UInt8} {b : Linebuffer}
    (hs : CStr b.mem p t) (hn : t.length < n) :
    ∃ b', strlenAt n p b = some (t.length, b') ∧ b'.mem = b.mem ∧ b'.ptr = b.ptr ∧
      Touches p (p + t.length) b b' := by
  induction t generalizing n p b with
  | nil =>
      obtain ⟨n, rfl⟩ : ∃ m, n = m + 1 := ⟨n - 1, by simp at hn; omega⟩
      have hnul : b.mem p = 0 := hs
      refine ⟨b.read p, ?_, rfl, rfl, .read (by omega) (by simp) b⟩
      unfold strlenAt
      exact if_pos hnul
  | cons c t ih =>
      obtain ⟨n, rfl⟩ : ∃ m, n = m + 1 := ⟨n - 1, by simp at hn; omega⟩
      obtain ⟨hc, hne, ht⟩ := hs
      have hlen : ((c :: t).length : Int) = t.length + 1 := by simp
      have hread : Touches p (p + (c :: t).length) b (b.read p) :=
        .read (by omega) (by omega) b
      obtain ⟨b', hloop, hmem, hptr, htouch⟩ :=
        ih (n := n) (b := b.read p) ht (by omega)
      refine ⟨b', ?_, hmem, hptr, hread.trans (htouch.mono (by omega) (by omega))⟩
      unfold strlenAt
      dsimp only
      rw [show (b.read p).mem p = c from hc, if_neg hne, hloop]
      rfl

/-- The byte before the end of the value is looked at, wherever it lies. -/
theorem trimAt_spec {p : Int} {t : List UInt8} {b : Linebuffer} (lo hi : Int)
    (hs : CStr b.mem p t) (hn : t.length ≤ maxLinesize) (hlo : lo ≤ p + t.length - 1)
    (hle : lo ≤ p) (hhi : p + t.length ≤ hi) :
    ∃ b', trimAt p b = some b' ∧ b'.ptr = b.ptr ∧ Touches lo hi b b' ∧
      p + t.length - 1 ∈ b'.touched := by
  obtain ⟨b₁, hlen₁, hmem₁, hptr₁, htouch₁⟩ := strlenAt_spec hs (Nat.lt_succ_of_le hn)
  have hread : Touches lo hi b₁ (b₁.read (p + t.length - 1)) := .read hlo (by omega) b₁
  have htouch := (htouch₁.mono hle hhi).trans hread
  have hlooked : p + t.length - 1 ∈ (b₁.read (p + t.length - 1)).touched := by
    simp [Linebuffer.read]
  unfold trimAt
  rw [hlen₁, Option.bind_some]
  dsimp only
  split
  · obtain ⟨b₂, hlen₂, hmem₂, hptr₂, htouch₂⟩ :=
      strlenAt_spec (b := b₁.read (p + t.length - 1)) (hmem₁ ▸ hs) (Nat.lt_succ_of_le hn)
    rw [hlen₂]
    refine ⟨_, rfl, hptr₂.trans hptr₁, ?_, ?_⟩
    · exact (htouch.trans (htouch₂.mono hle hhi)).trans (.write hlo (by omega) 0 b₂)
    · simp [Linebuffer.write]
  · exact ⟨_, rfl, hptr₁, htouch, hlooked⟩

/-! ### A character -/

/-- The buffer holds the characters `buf` of a line. -/
structure Collected (buf : List UInt8) (b : Linebuffer) : Prop where
  stored : Stored b.mem 0 buf
  ptr : b.ptr = buf.length
  length_le : buf.length ≤ maxLinesize

/-- The buffer holds a whole line, with a NUL behind it. -/
structure Complete (line : List UInt8) (b : Linebuffer) : Prop where
  stored : Stored b.mem 0 line
  nul : b.mem line.length = 0
  ptr : b.ptr = 0
  length_le : line.length ≤ maxLinesize

theorem Collected.nil {b : Linebuffer} (hptr : b.ptr = 0) : Collected [] b :=
  ⟨trivial, hptr, Nat.zero_le _⟩

theorem Complete.cstr {line : List UInt8} {b : Linebuffer} (hc : Complete line b) :
    CStr b.mem 0 (line.takeWhile (· ≠ 0)) ∧ (line.takeWhile (· ≠ 0)).length ≤ maxLinesize := by
  refine ⟨hc.stored.cstr ?_, ?_⟩
  · rw [Int.zero_add]
    exact hc.nul
  · exact (List.takeWhile_prefix _).length_le.trans hc.length_le

/-- A character that fits is put behind the others. -/
theorem Collected.push {buf : List UInt8} {b : Linebuffer} (hc : Collected buf b) (c : UInt8) :
    Collected (pushed buf c)
        (if b.ptr < maxLinesize then { b.write b.ptr c with ptr := b.ptr + 1 } else b) ∧
      Touches 0 maxLinesize b
        (if b.ptr < maxLinesize then { b.write b.ptr c with ptr := b.ptr + 1 } else b) := by
  obtain ⟨hstored, hptr, hlen⟩ := hc
  unfold pushed
  by_cases hroom : buf.length < maxLinesize
  · rw [if_pos hroom, if_pos (by omega)]
    refine ⟨⟨?_, ?_, ?_⟩, ?_⟩
    · refine Stored.snoc (hstored.congr fun i _ hi => ?_) ?_
      · exact Function.update_of_ne (by omega) _ _
      · show Function.update b.mem b.ptr c _ = c
        rw [hptr, Int.zero_add]
        exact Function.update_self _ _ _
    · show b.ptr + 1 = _
      rw [hptr, List.length_append, List.length_singleton]
      push_cast
      rfl
    · rw [List.length_append, List.length_singleton]
      omega
    · have htouch : Touches 0 maxLinesize b (b.write b.ptr c) := .write (by omega) (by omega) c b
      exact ⟨htouch.touched, htouch.frame⟩
  · rw [if_neg hroom, if_neg (by omega)]
    exact ⟨⟨hstored, hptr, hlen⟩, .refl _ _ b⟩

theorem receiveCharAt_spec {buf : List UInt8} {b : Linebuffer} (hc : Collected buf b) (c : UInt8) :
    Touches 0 maxLinesize b (receiveCharAt c b).2 ∧
      (c = 0x0d → receiveCharAt c b = (false, b)) ∧
      (c = 0x0a → (receiveCharAt c b).1 = true ∧ Complete (pushed buf c) (receiveCharAt c b).2) ∧
      (c ≠ 0x0d → c ≠ 0x0a →
        (receiveCharAt c b).1 = false ∧ Collected (pushed buf c) (receiveCharAt c b).2) := by
  obtain ⟨hpush, htouch⟩ := hc.push c
  unfold receiveCharAt
  dsimp only
  by_cases hcr : c = 0x0d
  · rw [if_pos hcr]
    refine ⟨.refl _ _ b, fun _ => rfl, fun hnl => ?_, fun hne => absurd hcr hne⟩
    rw [hcr] at hnl
    exact absurd hnl (by decide)
  rw [if_neg hcr]
  generalize (if b.ptr < maxLinesize then { b.write b.ptr c with ptr := b.ptr + 1 } else b
    : Linebuffer) = b₁ at hpush htouch
  by_cases hnl : c = 0x0a
  · rw [if_pos hnl]
    have hptr := hpush.ptr
    have hlen := hpush.length_le
    have hnul : Touches 0 maxLinesize b₁ (b₁.write b₁.ptr 0) :=
      .write (by omega) (by omega) 0 b₁
    have htouch' := htouch.trans hnul
    refine ⟨⟨htouch'.touched, htouch'.frame⟩, fun h => absurd h hcr, fun _ => ⟨rfl, ?_⟩,
      fun _ h => absurd hnl h⟩
    refine ⟨hpush.stored.congr fun i _ hi => ?_, ?_, rfl, hlen⟩
    · exact Function.update_of_ne (by omega) _ _
    · show Function.update b₁.mem b₁.ptr 0 _ = 0
      rw [hptr]
      exact Function.update_self _ _ _
  · rw [if_neg hnl]
    exact ⟨htouch, fun h => absurd h hcr, fun h => absurd h hnl, fun _ _ => ⟨rfl, hpush⟩⟩

/-! ### A line -/

/-- The request line is cut as `splitRequest` says: the strings that the handlers are given are
the method and the path. -/
theorem receiveRequestAt_line {line : List UInt8} {c : UInt8} {b : Linebuffer}
    (hline : (receiveCharAt c b).1 = true) (hc : Complete line (receiveCharAt c b).2) :
    ∃ p b', receiveRequestAt c b = some (some (p, badRequest (splitRequest line).2.1
        (splitRequest line).2.2), b') ∧
      CStr b'.mem 0 (splitRequest line).1 ∧ CStr b'.mem p (splitRequest line).2.1 ∧
      b'.ptr = 0 ∧ Touches 0 maxLinesize (receiveCharAt c b).2 b' := by
  obtain ⟨hs, hlen⟩ := hc.cstr
  have hptr := hc.ptr
  unfold receiveRequestAt splitRequest
  rcases hchar : receiveCharAt c b with ⟨r, b₀⟩
  rw [hchar] at hline hs hptr
  cases hline
  dsimp only at hs hptr ⊢
  generalize line.takeWhile (· ≠ 0) = text at hs hlen
  obtain ⟨p, b₁, hloop₁, hm, hrest, hp, hp0, hptr₁, htouch₁⟩ :=
    blankLoop_spec hs (Nat.lt_succ_of_le hlen)
  obtain ⟨v, b₂, hloop₂, hpath, hversion, hv, hpv, hptr₂, htouch₂⟩ :=
    blankLoop_spec (n := maxLinesize + 1) hrest (by omega)
  obtain ⟨hbad, hmem, hptr₃, htouch₃⟩ :=
    badRequestAt_spec maxLinesize hpath hversion hpv (by omega)
  -- the second cut is made behind the NUL of the method
  have hm' : CStr b₂.mem 0 (cutBlank text).1 := by
    rcases cutBlank_cases text with ⟨htext, -⟩ | htext
    · have hlen' : text.length = (cutBlank text).1.length + 1 + (cutBlank text).2.length := by
        conv => lhs; rw [htext]
        simp
        omega
      exact hm.congr fun i _ hi => htouch₂.frame i (by omega)
    · rw [htext] at hm hp hpath ⊢
      dsimp only at hm hp hpath ⊢
      have hnul : b₂.mem p = 0 := hpath
      rw [List.length_nil] at hp
      refine hm.congr fun i _ hi => ?_
      by_cases hip : i < p
      · exact htouch₂.frame i (by omega)
      · obtain rfl : i = p := by omega
        rw [hnul]
        exact (hrest.head.mpr (by rw [htext])).symm
  rw [hloop₁, Option.bind_some, hloop₂]
  refine ⟨p, (badRequestAt p v b₂).2, ?_, ?_, ?_, ?_, ?_⟩
  · rw [← hbad]
    rfl
  · rw [hmem]
    exact hm'
  · rw [hmem]
    exact hpath
  · rw [hptr₃, hptr₂, hptr₁, hptr]
  · refine ((htouch₁.mono (by omega) (by omega)).trans ?_).trans (htouch₃.mono hp0 (by omega))
    exact htouch₂.mono hp0 (by omega)

/-- A header line: the places touched are inside of the array, unless the line starts with a
NUL. -/
theorem receiveHeaderAt_line {line : List UInt8} {c : UInt8} {b : Linebuffer}
    (hline : (receiveCharAt c b).1 = true) (hc : Complete line (receiveCharAt c b).2)
    (hne : line ≠ []) :
    ∃ b', receiveHeaderAt c b = some (decide (line.head? = some 0x0a), b') ∧ b'.ptr = 0 ∧
      (line.head? ≠ some 0 → Touches 0 maxLinesize (receiveCharAt c b).2 b') ∧
      (line.head? = some 0 → -1 ∈ b'.touched ∧
        Touches (-1) maxLinesize (receiveCharAt c b).2 b') := by
  obtain ⟨d, line, rfl⟩ := List.exists_cons_of_ne_nil hne
  obtain ⟨hs, hlen⟩ := hc.cstr
  have hptr := hc.ptr
  have hfirst : (receiveCharAt c b).2.mem 0 = d := hc.stored.1
  have hmax : maxLinesize = 256 := rfl
  unfold receiveHeaderAt
  rcases hchar : receiveCharAt c b with ⟨r, b₀⟩
  rw [hchar] at hline hs hptr hfirst
  cases hline
  dsimp only at hs hptr hfirst ⊢
  have hread : Touches 0 maxLinesize b₀ (b₀.read 0) := .read (by omega) (by omega) b₀
  rw [show (b₀.read 0).mem 0 = d from hfirst, List.head?_cons]
  by_cases hempty : d = 0x0a
  · rw [if_pos hempty]
    refine ⟨b₀.read 0, by simp [hempty], hptr, fun _ => hread, fun h0 => ?_⟩
    rw [hempty] at h0
    exact absurd h0 (by decide)
  rw [if_neg hempty]
  obtain ⟨q, b₁, t, hloop, hval, hq, hq0, hpos, hptr₁, htouch₁⟩ :=
    colonLoop_spec (n := maxLinesize + 1) (b := b₀.read 0) hs (Nat.lt_succ_of_le hlen)
  have htouch := hread.trans (htouch₁.mono (by omega) (by omega))
  by_cases hnul : d = 0
  · -- the line is the empty string, and its value starts and ends at the start of the array
    rw [List.takeWhile_cons_of_neg (by simp [hnul])] at hq
    rw [List.length_nil] at hq
    obtain ⟨b₂, htrim, hptr₂, htouch₂, hlooked⟩ :=
      trimAt_spec (-1) maxLinesize hval (by omega) (by omega) (by omega) (by omega)
    rw [hloop, Option.bind_some, htrim]
    refine ⟨b₂, by simp [hempty], by rw [hptr₂, hptr₁]; exact hptr, fun h0 => ?_, fun _ => ?_⟩
    · exact absurd (by rw [hnul]) h0
    · refine ⟨?_, (htouch.mono (by omega) (by omega)).trans htouch₂⟩
      rwa [show q + t.length - 1 = -1 by omega] at hlooked
  · have hpos' := hpos (by rw [List.takeWhile_cons_of_pos (by simp [hnul])]; simp)
    obtain ⟨b₂, htrim, hptr₂, htouch₂, -⟩ :=
      trimAt_spec 0 maxLinesize hval (by omega) (by omega) (by omega) (by omega)
    rw [hloop, Option.bind_some, htrim]
    refine ⟨b₂, by simp [hempty], by rw [hptr₂, hptr₁]; exact hptr, fun _ => ?_, fun h0 => ?_⟩
    · exact htouch.trans htouch₂
    · exact absurd (Option.some.inj h0) hnul

/-! ### A byte -/

/-- A header line that starts with a NUL ends here. -/
def Point.NulLine : Point → Prop
  | .turn _ => False
  | .byte c h => c = 0x0a ∧ h.stateClient = .header ∧ h.linebuffer.head? = some 0
  | .close _ => False
  | .err _ => False

/-- The parser on the array is where the connection is. -/
structure LineParser.Holds (s : LineParser) (h : HttpState) : Prop where
  client : s.client = h.stateClient
  buffer : Collected h.linebuffer s.buffer

theorem processRequest_line (site : Site) (m p : List UInt8) (h : HttpState) (hd : Handler) :
    (processRequest site m p h hd).2.linebuffer = h.linebuffer := by
  cases hd with
  | mem =>
      dsimp only [processRequest, responseMemProcessRequest]
      split_ifs <;> rfl
  | fuses =>
      dsimp only [processRequest, responseFusesProcessRequest]
      split_ifs <;> rfl
  | vfs =>
      dsimp only [processRequest, responseVfsProcessRequest]
      split
      · rfl
      · split
        · rfl
        · split <;> rfl
  | err400 =>
      dsimp only [processRequest, responseErr400ProcessRequest]
      split <;> rfl
  | err404 => rfl

theorem findHandler_line (site : Site) (m p : List UInt8) (hds : List Handler) (h : HttpState) :
    (findHandler site m p hds h).linebuffer = h.linebuffer := by
  induction hds generalizing h with
  | nil => rfl
  | cons hd hds ih =>
      unfold findHandler
      dsimp only
      split
      · exact processRequest_line site m p h hd
      · rw [ih]
        exact processRequest_line site m p h hd

/-- The same byte in both models: the array goes where the list goes, and what is touched is
inside of the array unless a header line that starts with a NUL ends. -/
structure LineParser.Steps (s : LineParser) (c : UInt8) (h : HttpState) (s' : LineParser) :
    Prop where
  ptr : 0 ≤ s'.buffer.ptr ∧ s'.buffer.ptr ≤ maxLinesize
  inside : ¬ (Point.byte c h).NulLine → Touches 0 maxLinesize s.buffer s'.buffer
  outside : (Point.byte c h).NulLine →
    -1 ∈ s'.buffer.touched ∧ Touches (-1) maxLinesize s.buffer s'.buffer
  holds : ∀ site h', receiveByte site c h = some h' → s'.Holds h'

theorem Collected.inside {buf : List UInt8} {b : Linebuffer} (hc : Collected buf b) :
    0 ≤ b.ptr ∧ b.ptr ≤ maxLinesize := by
  have hptr := hc.ptr
  have hlen := hc.length_le
  omega

/-- Whether a line is being collected. -/
def ClientState.Collects (st : ClientState) : Prop := st = .request ∨ st = .header

theorem receiveByte_more {site : Site} {c : UInt8} {h : HttpState}
    (hclient : h.stateClient.Collects) (hc : c ≠ 0x0a) :
    receiveByte site c h = some
      (if c = 0x0d then h else { h with linebuffer := pushed h.linebuffer c }) := by
  unfold receiveByte receiveRequest receiveHeader
  rw [receiveChar_eq, if_neg hc]
  rcases hclient with hclient | hclient
  · rw [hclient]
    split_ifs <;> rfl
  · rw [hclient]
    split_ifs <;> rfl

theorem LineParser.byte_more {s : LineParser} {c : UInt8} (hclient : s.client.Collects)
    (hline : (receiveCharAt c s.buffer).1 = false) :
    s.byte c = some ⟨s.client, (receiveCharAt c s.buffer).2⟩ := by
  unfold LineParser.byte receiveRequestAt receiveHeaderAt
  rcases hchar : receiveCharAt c s.buffer with ⟨r, b⟩
  rw [hchar] at hline
  cases hline
  rcases hclient with hclient | hclient
  · rw [hclient]
    rfl
  · rw [hclient]
    rfl

/-- A character that does not end the line. -/
theorem LineParser.Holds.more {s : LineParser} {h : HttpState} (hh : s.Holds h) {c : UInt8}
    (hclient : h.stateClient.Collects) (hc : c ≠ 0x0a) :
    ∃ s', s.byte c = some s' ∧ s.Steps c h s' := by
  obtain ⟨htouch, hcr, -, hother⟩ := receiveCharAt_spec hh.buffer c
  have hclient' : s.client.Collects := by
    rw [hh.client]
    exact hclient
  have hno : ¬ (Point.byte c h).NulLine := fun hnul => hc hnul.1
  by_cases h0d : c = 0x0d
  · have hchar := hcr h0d
    refine ⟨_, LineParser.byte_more hclient' (by rw [hchar]), ?_, fun _ => htouch,
      fun hnul => absurd hnul hno, ?_⟩
    · rw [hchar]
      exact hh.buffer.inside
    · intro site h' hr
      rw [receiveByte_more hclient hc, if_pos h0d] at hr
      cases hr
      rw [hchar]
      exact ⟨hh.client, hh.buffer⟩
  · obtain ⟨hfalse, hcollected⟩ := hother h0d hc
    refine ⟨_, LineParser.byte_more hclient' hfalse, hcollected.inside, fun _ => htouch,
      fun hnul => absurd hnul hno, ?_⟩
    intro site h' hr
    rw [receiveByte_more hclient hc, if_neg h0d] at hr
    cases hr
    exact ⟨hh.client, hcollected⟩

/-- The end of the request line. -/
theorem LineParser.Holds.request {s : LineParser} {h : HttpState} (hh : s.Holds h)
    (hclient : h.stateClient = .request) :
    ∃ s', s.byte 0x0a = some s' ∧ s.Steps 0x0a h s' := by
  obtain ⟨htouch, -, hnl, -⟩ := receiveCharAt_spec hh.buffer 0x0a
  obtain ⟨hline, hcomplete⟩ := hnl rfl
  obtain ⟨p, b', hrequest, -, -, hptr, htouch'⟩ := receiveRequestAt_line hline hcomplete
  refine ⟨⟨.header, b'⟩, ?_, ?_, fun _ => htouch.trans htouch', ?_, ?_⟩
  · unfold LineParser.byte
    rw [hh.client, hclient]
    dsimp only
    rw [hrequest]
    rfl
  · exact (Collected.nil hptr).inside
  · rintro ⟨-, hheader, -⟩
    rw [hclient] at hheader
    cases hheader
  · intro site h' hr
    unfold receiveByte receiveRequest at hr
    rw [hclient, receiveChar_eq, if_neg (by decide), if_pos rfl] at hr
    cases hr
    refine ⟨rfl, ?_⟩
    dsimp only
    rw [findHandler_line]
    split <;> exact .nil hptr

theorem pushed_head (buf : List UInt8) (c : UInt8) :
    (pushed buf c).head? = some (buf.head?.getD c) := by
  cases buf with
  | nil => rfl
  | cons d buf =>
      unfold pushed
      split <;> rfl

/-- The end of a header line. -/
theorem LineParser.Holds.header {s : LineParser} {h : HttpState} (hh : s.Holds h)
    (hclient : h.stateClient = .header) :
    ∃ s', s.byte 0x0a = some s' ∧ s.Steps 0x0a h s' := by
  obtain ⟨htouch, -, hnl, -⟩ := receiveCharAt_spec hh.buffer 0x0a
  obtain ⟨hline, hcomplete⟩ := hnl rfl
  obtain ⟨b', hheader, hptr, hinside, houtside⟩ :=
    receiveHeaderAt_line hline hcomplete (pushed_ne_nil _ _)
  have hnul : (pushed h.linebuffer 0x0a).head? = some 0 ↔ (Point.byte 0x0a h).NulLine := by
    rw [pushed_head]
    cases hbuf : h.linebuffer with
    | nil => simp [Point.NulLine, hbuf]
    | cons d buf => simp [Point.NulLine, hbuf, hclient]
  refine ⟨⟨if (pushed h.linebuffer 0x0a).head? = some 0x0a then .data else .header, b'⟩, ?_,
    (Collected.nil hptr).inside, ?_, ?_, ?_⟩
  · unfold LineParser.byte
    rw [hh.client, hclient]
    dsimp only
    rw [hheader]
    simp
  · intro hno
    exact htouch.trans (hinside fun h0 => hno (hnul.mp h0))
  · intro hyes
    obtain ⟨hlooked, htouch'⟩ := houtside (hnul.mpr hyes)
    exact ⟨hlooked, (htouch.mono (by decide) (by omega)).trans htouch'⟩
  · intro site h' hr
    unfold receiveByte receiveHeader at hr
    rw [hclient, receiveChar_eq, if_neg (by decide), if_pos rfl] at hr
    dsimp only at hr
    split at hr
    · rename_i hempty
      obtain ⟨hd, -, rfl⟩ := Option.map_eq_some_iff.mp hr
      exact ⟨if_pos hempty, .nil hptr⟩
    · rename_i hempty
      obtain ⟨hd, -, rfl⟩ := Option.map_eq_some_iff.mp hr
      exact ⟨(if_neg hempty).trans hclient.symm, .nil hptr⟩

theorem LineParser.Holds.byte {s : LineParser} {h : HttpState} (hh : s.Holds h) (c : UInt8) :
    ∃ s', s.byte c = some s' ∧ s.Steps c h s' := by
  -- after the header the line buffer is left alone
  have hskip : h.stateClient = .data ∨ h.stateClient = .idle →
      ∃ s', s.byte c = some s' ∧ s.Steps c h s' := by
    intro hclient
    refine ⟨s, ?_, hh.buffer.inside, fun _ => .refl _ _ _, ?_, ?_⟩
    · unfold LineParser.byte
      rw [hh.client]
      rcases hclient with hclient | hclient <;> rw [hclient]
    · rintro ⟨-, hheader, -⟩
      rw [hheader] at hclient
      simp at hclient
    · intro site h' hr
      rcases receiveByte_cases hr with ⟨hc, -⟩ | ⟨hc, -⟩ | ⟨hc, -⟩ | ⟨hc, -⟩ | ⟨-, -, rfl⟩ |
        ⟨-, rfl⟩
      · simp [hc] at hclient
      · simp [hc] at hclient
      · simp [hc] at hclient
      · simp [hc] at hclient
      · exact hh
      · exact hh
  have hcollects : h.stateClient.Collects → ∃ s', s.byte c = some s' ∧ s.Steps c h s' := by
    intro hclient
    by_cases hc : c = 0x0a
    · subst hc
      rcases hclient with hclient | hclient
      · exact hh.request hclient
      · exact hh.header hclient
    · exact hh.more hclient hc
  cases hclient : h.stateClient with
  | request => exact hcollects (Or.inl hclient)
  | header => exact hcollects (Or.inr hclient)
  | data => exact hskip (Or.inl hclient)
  | idle => exact hskip (Or.inr hclient)

/-! ### Runs -/

theorem LineParser.run_snoc (cs : List UInt8) (c : UInt8) (s : LineParser) :
    LineParser.run (cs ++ [c]) s = (LineParser.run cs s).bind (LineParser.byte c) := by
  induction cs generalizing s with
  | nil =>
      show (s.byte c).bind some = s.byte c
      exact Option.bind_fun_some _
  | cons d cs ih =>
      rw [List.cons_append]
      unfold LineParser.run
      rw [Option.bind_assoc]
      congr 1
      funext s'
      exact ih s'

theorem LineParser.Steps.inside_iff {s s' : LineParser} {c : UInt8} {h : HttpState}
    (st : s.Steps c h s') (hh : s.Holds h) :
    s'.buffer.Inside ↔ s.buffer.Inside ∧ ¬ (Point.byte c h).NulLine := by
  by_cases hnul : (Point.byte c h).NulLine
  · obtain ⟨hlooked, -⟩ := st.outside hnul
    constructor
    · intro hin
      have := (hin.touched _ hlooked).1
      omega
    · rintro ⟨-, hno⟩
      exact absurd hnul hno
  · obtain ⟨is, htouched, his⟩ := (st.inside hnul).touched
    constructor
    · intro hin
      refine ⟨⟨fun i hi => hin.touched i ?_, hh.buffer.inside⟩, hnul⟩
      rw [htouched]
      exact List.mem_append_left _ hi
    · rintro ⟨hin, -⟩
      refine ⟨fun i hi => ?_, st.ptr⟩
      rw [htouched] at hi
      rcases List.mem_append.mp hi with hi | hi
      · exact hin.touched i hi
      · exact his i hi

/-- Where the array is after the places `tr`. -/
def Tracked (mem : Int → UInt8) (tr : List Point) (h : HttpState) : Prop :=
  ∃ s, LineParser.run (seen tr) (.init mem) = some s ∧ s.Holds h ∧
    (s.buffer.Inside ↔ ∀ p ∈ tr, ¬ p.NulLine)

theorem tracked_turn {site : Site} {mem : Int → UInt8} {tr : List Point} {h h' : HttpState}
    {stop : Bool} (hi : Indexed h) (ht : Tracked mem tr h)
    (hr : serverStep site h = some (stop, h')) : Tracked mem (tr ++ [.turn h]) h' := by
  obtain ⟨d, e, -⟩ := serverStep_sends hi hr
  obtain ⟨s, hrun, hh, hiff⟩ := ht
  refine ⟨s, by rw [seen_turn]; exact hrun, ⟨?_, ?_⟩, ?_⟩
  · rw [e.client]
    exact hh.client
  · rw [e.line]
    exact hh.buffer
  · rw [hiff, List.forall_mem_append, List.forall_mem_singleton]
    exact (and_iff_left id).symm

theorem tracked_byte {mem : Int → UInt8} {tr : List Point} {h : HttpState} (c : UInt8)
    (ht : Tracked mem tr h) :
    ∃ s, LineParser.run (seen (tr ++ [.byte c h])) (.init mem) = some s ∧
      (s.buffer.Inside ↔ ∀ p ∈ tr ++ [.byte c h], ¬ p.NulLine) ∧
      ∀ site h', receiveByte site c h = some h' → s.Holds h' := by
  obtain ⟨s, hrun, hh, hiff⟩ := ht
  obtain ⟨s', hbyte, st⟩ := hh.byte c
  refine ⟨s', ?_, ?_, st.holds⟩
  · rw [seen_byte, LineParser.run_snoc, hrun]
    exact hbyte
  · rw [st.inside_iff hh, hiff, List.forall_mem_append, List.forall_mem_singleton]

theorem tracked_keeps (site : Site) (mem : Int → UInt8) :
    Keeps site (Tracked mem) (Tracked mem) where
  enter := fun _ _ ht => ht
  turn := fun _ _ _ hi ht hr => tracked_turn hi ht hr
  leave := fun _ _ _ hi ht hr => tracked_turn hi ht hr
  byte := by
    intro tr c h h' ht hr
    obtain ⟨s, hrun, hiff, hholds⟩ := tracked_byte c ht
    exact ⟨s, hrun, hholds site h' hr, hiff⟩
  unread := by
    rintro tr h read retries ⟨s, hrun, hh, hiff⟩
    exact ⟨s, hrun, ⟨hh.client, hh.buffer⟩, hiff⟩

theorem tracked_accept (mem : Int → UInt8) (sendbuffer : Mem UInt8) (priv : Option Priv) :
    Tracked mem [] (accept sendbuffer priv).http := by
  refine ⟨.init mem, rfl, ⟨rfl, .nil rfl⟩, ?_⟩
  constructor
  · intro _ p hp
    cases hp
  · intro _
    refine ⟨fun i hi => ?_, ?_⟩
    · cases hi
    · show 0 ≤ (0 : Int) ∧ (0 : Int) ≤ maxLinesize
      decide

/-- After every part of a run, the array has been kept to if no header line that starts with a
NUL has ended. -/
theorem prefix_inside (site : Site) (sendbuffer : Mem UInt8) (priv : Option Priv)
    (mem : Int → UInt8) {es : List Event} {tr : List Point}
    (htr : tr <+: runTrace site es (accept sendbuffer priv)) :
    ∃ s, LineParser.run (seen tr) (.init mem) = some s ∧
      (s.buffer.Inside ↔ ∀ p ∈ tr, ¬ p.NulLine) := by
  obtain ⟨ps, hps⟩ := htr
  rcases List.eq_nil_or_concat tr with rfl | ⟨tr', p, rfl⟩
  · obtain ⟨s, hrun, -, hiff⟩ := tracked_accept mem sendbuffer priv
    exact ⟨s, hrun, hiff⟩
  · rw [List.concat_eq_append, List.append_assoc] at hps
    rw [List.concat_eq_append]
    have ht := place_keeps (tracked_keeps site mem) sendbuffer priv
      (tracked_accept mem sendbuffer priv) hps.symm
    have hquiet : p.char = none → (¬ p.NulLine) →
        ∃ s, LineParser.run (seen (tr' ++ [p])) (.init mem) = some s ∧
          (s.buffer.Inside ↔ ∀ p' ∈ tr' ++ [p], ¬ p'.NulLine) := by
      intro hchar hno
      obtain ⟨s, hrun, -, hiff⟩ := ht
      refine ⟨s, ?_, ?_⟩
      · simpa [seen, hchar] using hrun
      · rw [hiff, List.forall_mem_append, List.forall_mem_singleton]
        exact (and_iff_left hno).symm
    cases p with
    | turn h => exact hquiet rfl id
    | byte c h =>
        obtain ⟨s, hrun, hiff, -⟩ := tracked_byte c ht
        exact ⟨s, hrun, hiff⟩
    | close h => exact hquiet rfl id
    | err h => exact hquiet rfl id

/-- **The parser keeps to its line buffer exactly as long as no header line starts with a NUL**,
whatever bytes come in, in whatever segments, with whatever callbacks in between, and whatever
the memory of the connection held before. -/
theorem linebuffer_inside_iff (site : Site) (sendbuffer : Mem UInt8) (priv : Option Priv)
    (mem : Int → UInt8) (es : List Event) :
    (∀ tr, tr <+: runTrace site es (accept sendbuffer priv) →
        ∃ s, LineParser.run (seen tr) (.init mem) = some s ∧ s.buffer.Inside) ↔
      ∀ p ∈ runTrace site es (accept sendbuffer priv), ¬ p.NulLine := by
  constructor
  · intro hall
    obtain ⟨s, hrun, hin⟩ := hall _ (List.prefix_refl _)
    obtain ⟨s', hrun', hiff⟩ :=
      @prefix_inside site sendbuffer priv mem es _ (List.prefix_refl _)
    rw [hrun] at hrun'
    cases hrun'
    exact hiff.mp hin
  · intro hno tr htr
    obtain ⟨s, hrun, hiff⟩ := prefix_inside site sendbuffer priv mem htr
    exact ⟨s, hrun, hiff.mpr fun p hp => hno p (htr.subset hp)⟩

/-- A header line that is a NUL and nothing else. -/
theorem nul_header_outside :
    ¬ ∀ tr, tr <+: runTrace bareSite [.recv [bytes "GET / HTTP/1.0\n", [0, 0x0a]] shortTcp]
        (accept (fun _ => 0) none) →
      ∃ s, LineParser.run (seen tr) (.init fun _ => 0) = some s ∧ s.buffer.Inside := by
  intro hall
  obtain ⟨s, hrun, hin⟩ := hall _ (List.prefix_refl _)
  have houtside : (LineParser.run (seen (runTrace bareSite
      [.recv [bytes "GET / HTTP/1.0\n", [0, 0x0a]] shortTcp] (accept (fun _ => 0) none)))
      (.init fun _ => 0)).map (fun s => decide (-1 ∈ s.buffer.touched)) = some true := by
    decide +kernel
  rw [hrun] at houtside
  have hlooked : -1 ∈ s.buffer.touched := by simpa using houtside
  exact absurd (hin.touched _ hlooked).1 (by decide)

end Xell.Httpd
