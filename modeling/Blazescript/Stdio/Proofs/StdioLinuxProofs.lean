import Blazescript.Running.Proofs.PathProofs
import Blazescript.Stdio.StdioLinux
import Blazescript.Stdio.Proofs.MachineProofs

/-!
# Proofs: `putc` and `putstr`

`putc` pops what it has pushed in another order: the old `%rdx` goes to `%rsi`, and `%rdx` keeps the length of
the write. The loop of `putstr` does this for each byte.
-/

namespace Blaze.Stdio

open Running

variable {clobber : Machine → UInt64 × UInt64} {base : UInt64} {m : Machine} {P : Machine → Prop}

/-! ## Steps -/

theorem step_of_line {m' : Machine} {line : Line} (hline : stdioLinux[m.pc]? = some line)
    (h : exec clobber base m line = some m') : step clobber base m = some m' := by
  unfold step
  rw [hline]
  exact h

/-- One more line. -/
theorem path_line {m' u : Machine} {line : Line} (hP : P m) (hline : stdioLinux[m.pc]? = some line)
    (h : exec clobber base m line = some m') (hpath : Path (step clobber base) P m' u) :
    Path (step clobber base) P m u :=
  .head hP (step_of_line hline h) hpath

/-- The machine after the four pushes of `putc`. -/
def Machine.pushedFour (m : Machine) : Machine :=
  let m1 := m.next
  let m2 := (m1.push (m1.reg .rdi)).next
  let m3 := (m2.push (m2.reg .rsi)).next
  let m4 := (m3.push (m3.reg .rdx)).next
  (m4.push (m4.reg .rax)).next

theorem path_pushedFour (hpc : m.pc = 0)
    (hP : ∀ (s : Machine) (k : Nat), k ≤ 4 → s.reg .rsp = m.reg .rsp - 8 * UInt64.ofNat k → P s) :
    Path (step clobber base) P m m.pushedFour := by
  have h0 : m.reg .rsp = m.reg .rsp - 8 * UInt64.ofNat 0 := by simp
  have h1 : m.reg .rsp - 8 = m.reg .rsp - 8 * UInt64.ofNat 1 := by simp
  have h2 : m.reg .rsp - 8 - 8 = m.reg .rsp - 8 * UInt64.ofNat 2 := by
    have : UInt64.ofNat 2 = 2 := rfl
    grind
  have h3 : m.reg .rsp - 8 - 8 - 8 = m.reg .rsp - 8 * UInt64.ofNat 3 := by
    have : UInt64.ofNat 3 = 3 := rfl
    grind
  obtain ⟨reg, mem, zero, pc, stdout⟩ := m
  cases hpc
  refine path_line (hP _ 0 (by omega) h0) rfl rfl ?_
  refine path_line (hP _ 0 (by omega) h0) rfl rfl ?_
  refine path_line (hP _ 1 (by omega) h1) rfl rfl ?_
  refine path_line (hP _ 2 (by omega) h2) rfl rfl ?_
  exact path_line (hP _ 3 (by omega) h3) rfl rfl (.refl _)

theorem mem_pushedFour (m : Machine) : m.pushedFour.mem =
    storeWord (storeWord (storeWord (storeWord m.mem (m.reg .rsp - 8) (m.reg .rdi)) (m.reg .rsp - 16) (m.reg .rsi))
      (m.reg .rsp - 24) (m.reg .rdx)) (m.reg .rsp - 32) (m.reg .rax) := by
  have h2 : m.reg .rsp - 8 - 8 = m.reg .rsp - 16 := by grind
  have h3 : m.reg .rsp - 8 - 8 - 8 = m.reg .rsp - 24 := by grind
  have h4 : m.reg .rsp - 8 - 8 - 8 - 8 = m.reg .rsp - 32 := by grind
  rw [← h4, ← h3, ← h2]
  rfl

/-- What the words are that `putc` pops into `%rsi` and `%rax`, and the byte that it writes. -/
theorem words_pushedFour (m : Machine) :
    loadWord m.pushedFour.mem (m.reg .rsp - 24) = m.reg .rdx ∧
      loadWord m.pushedFour.mem (m.reg .rsp - 32) = m.reg .rax ∧
      m.pushedFour.mem (m.reg .rsp - 8) = (m.reg .rdi).toUInt8 := by
  rw [mem_pushedFour]
  refine ⟨?_, loadWord_storeWord_self _ _ _, ?_⟩
  · rw [loadWord_storeWord_below (by decide) (by decide), loadWord_storeWord_self]
  · rw [storeWord_below (by decide), storeWord_below (by decide), storeWord_below (by decide), storeWord_low]

/-- Nothing else is written to. -/
theorem frame_pushedFour {b : UInt64} (h : 32 ≤ (b - (m.reg .rsp - 32)).toNat) :
    m.pushedFour.mem b = m.mem b := by
  have hb : (32 : UInt64).toNat ≤ (b - (m.reg .rsp - 32)).toNat := h
  rw [mem_pushedFour, storeWord_of_far hb (by decide), storeWord_of_far hb (by decide),
    storeWord_of_far hb (by decide), storeWord_of_far hb (by decide)]

/-- `putc` from the first line after the pushes up to the system call. -/
def Machine.putcWritten (clobber : Machine → UInt64 × UInt64) (m : Machine) : Machine :=
  let m1 := (m.setReg .rax 1).next
  let m2 := (m1.setReg .rdi 1).next
  let m3 := (m2.setReg .rsi (m2.reg .rsp + 24)).next
  let m4 := (m3.setReg .rdx 1).next
  (m4.write (clobber m4)).next

/-- The four pops of `putc`, and the return. -/
def Machine.putcReturned (base : UInt64) (m : Machine) : Machine :=
  let m1 := (((m.pop .rax).next.pop .rsi).next.pop .rdi).next
  let m2 := (m1.pop .rdi).next
  (m2.setReg .rsp (m2.reg .rsp + 8)).jump (loadWord m2.mem (m2.reg .rsp) - base).toNat

/-- What `putc` does. The old `%rdx` is in `%rsi`. -/
structure AfterPutc (base : UInt64) (m m' : Machine) : Prop where
  rsp : m'.reg .rsp = m.reg .rsp + 8
  pc : m'.pc = (loadWord m.mem (m.reg .rsp) - base).toNat
  stdout : m'.stdout = m.stdout ++ [(m.reg .rdi).toUInt8]
  kept : ∀ r ∈ [Reg.rax, .rbx, .rbp], m'.reg r = m.reg r
  rsi : m'.reg .rsi = m.reg .rdx
  rdx : m'.reg .rdx = 1
  frame : ∀ b, 32 ≤ (b - (m.reg .rsp - 32)).toNat → m'.mem b = m.mem b

theorem afterPutc (clobber : Machine → UInt64 × UInt64) (base : UInt64) (m : Machine) :
    AfterPutc base m ((m.pushedFour.putcWritten clobber).putcReturned base) := by
  have h0 : m.reg .rsp - 8 - 8 - 8 - 8 = m.reg .rsp - 32 := by grind
  have h1 : m.reg .rsp - 8 - 8 - 8 - 8 + 8 = m.reg .rsp - 24 := by grind
  have h4 : m.reg .rsp - 8 - 8 - 8 - 8 + 8 + 8 + 8 + 8 = m.reg .rsp := by grind
  have hchar : m.reg .rsp - 8 - 8 - 8 - 8 + 24 = m.reg .rsp - 8 := by grind
  obtain ⟨hrdx, hrax, hlow⟩ := words_pushedFour m
  have hret : loadWord m.pushedFour.mem (m.reg .rsp) = loadWord m.mem (m.reg .rsp) := by
    refine congrArg Vm.leValue (loadBytes_congr fun i hi => frame_pushedFour ?_)
    have hsub : m.reg .rsp + UInt64.ofNat i - (m.reg .rsp - 32) = 32 + UInt64.ofNat i := by grind
    have h32 : (32 : UInt64).toNat = 32 := rfl
    rw [hsub, UInt64.toNat_add, toNat_ofNat_of_lt hi, h32]
    omega
  refine ⟨?_, ?_, ?_, ?_, ?_, rfl, fun b hb => frame_pushedFour hb⟩
  · show m.reg .rsp - 8 - 8 - 8 - 8 + 8 + 8 + 8 + 8 + 8 = m.reg .rsp + 8
    rw [h4]
  · show (loadWord m.pushedFour.mem (m.reg .rsp - 8 - 8 - 8 - 8 + 8 + 8 + 8 + 8) - base).toNat = _
    rw [h4, hret]
  · show m.stdout ++ [m.pushedFour.mem (m.reg .rsp - 8 - 8 - 8 - 8 + 24 + UInt64.ofNat 0)] = _
    have hzero : m.reg .rsp - 8 + UInt64.ofNat 0 = m.reg .rsp - 8 := UInt64.add_zero _
    rw [hchar, hzero, hlow]
  · refine List.forall_mem_cons.mpr ⟨?_, List.forall_mem_cons.mpr ⟨rfl, List.forall_mem_singleton.mpr rfl⟩⟩
    show loadWord m.pushedFour.mem (m.reg .rsp - 8 - 8 - 8 - 8) = _
    rw [h0, hrax]
  · show loadWord m.pushedFour.mem (m.reg .rsp - 8 - 8 - 8 - 8 + 8) = _
    rw [h1, hrdx]

/-- `putc` comes to its end, with the stack growing by four words in between. -/
theorem path_putc (hpc : m.pc = Label.putc.index)
    (hP : ∀ (s : Machine) (k : Nat), k ≤ 4 → s.reg .rsp = m.reg .rsp - 8 * UInt64.ofNat k → P s) :
    Path (step clobber base) P m ((m.pushedFour.putcWritten clobber).putcReturned base) := by
  refine (path_pushedFour hpc hP).trans ?_
  have hat : m.pushedFour.pc = 5 := by
    show m.pc + 1 + 1 + 1 + 1 + 1 = 5
    rw [hpc]
    rfl
  have e4 : m.reg .rsp - 8 - 8 - 8 - 8 = m.reg .rsp - 8 * UInt64.ofNat 4 := by
    have : UInt64.ofNat 4 = 4 := rfl
    grind
  have e3 : m.reg .rsp - 8 - 8 - 8 - 8 + 8 = m.reg .rsp - 8 * UInt64.ofNat 3 := by
    have : UInt64.ofNat 3 = 3 := rfl
    grind
  have e2 : m.reg .rsp - 8 - 8 - 8 - 8 + 8 + 8 = m.reg .rsp - 8 * UInt64.ofNat 2 := by
    have : UInt64.ofNat 2 = 2 := rfl
    grind
  have e1 : m.reg .rsp - 8 - 8 - 8 - 8 + 8 + 8 + 8 = m.reg .rsp - 8 * UInt64.ofNat 1 := by
    have : UInt64.ofNat 1 = 1 := rfl
    grind
  have e0 : m.reg .rsp - 8 - 8 - 8 - 8 + 8 + 8 + 8 + 8 = m.reg .rsp - 8 * UInt64.ofNat 0 := by
    have : UInt64.ofNat 0 = 0 := rfl
    grind
  have hrsp : m.pushedFour.reg .rsp = m.reg .rsp - 8 - 8 - 8 - 8 := rfl
  generalize m.pushedFour = q at hat hrsp
  obtain ⟨reg, mem, zero, pc, stdout⟩ := q
  cases hat
  rw [← hrsp] at e4 e3 e2 e1 e0
  refine path_line (hP _ 4 (by omega) e4) rfl rfl ?_
  refine path_line (hP _ 4 (by omega) e4) rfl rfl ?_
  refine path_line (hP _ 4 (by omega) e4) rfl rfl ?_
  refine path_line (hP _ 4 (by omega) e4) rfl rfl ?_
  refine path_line (hP _ 4 (by omega) e4) rfl rfl ?_
  refine path_line (hP _ 4 (by omega) e4) rfl rfl ?_
  refine path_line (hP _ 3 (by omega) e3) rfl rfl ?_
  refine path_line (hP _ 2 (by omega) e2) rfl rfl ?_
  refine path_line (hP _ 1 (by omega) e1) rfl rfl ?_
  exact path_line (hP _ 0 (by omega) e0) rfl rfl (.refl _)

/-! ## The loop of `putstr` -/

/-- The registers `%rsi` and `%rdx` when some bytes have been written. -/
def argsAfter (rsi rdx : UInt64) : Nat → UInt64 × UInt64
  | 0 => (rsi, rdx)
  | k + 1 => ((argsAfter rsi rdx k).2, 1)

/-- The state where the loop starts again, some bytes having been written. -/
structure Looping (m0 m : Machine) (done : List UInt8) : Prop where
  pc : m.pc = Label.putstrLoop.index
  rbx : m.reg .rbx = m0.reg .rdi + UInt64.ofNat done.length
  rbp : m.reg .rbp = m0.reg .rsp - 8
  rsp : m.reg .rsp = m0.reg .rsp - 24
  args : (m.reg .rsi, m.reg .rdx) = argsAfter (m0.reg .rsi) (m0.reg .rdx) done.length
  stdout : m.stdout = m0.stdout ++ done
  savedRbp : loadWord m.mem (m0.reg .rsp - 8) = m0.reg .rbp
  savedRbx : loadWord m.mem (m0.reg .rsp - 16) = m0.reg .rbx
  savedRax : loadWord m.mem (m0.reg .rsp - 24) = m0.reg .rax
  frame : ∀ b, 64 ≤ (b - (m0.reg .rsp - 64)).toNat → m.mem b = m0.mem b

/-- The routine has not returned yet. -/
def Within (m0 m : Machine) : Prop := m.reg .rsp ≠ m0.reg .rsp + 8

theorem within_of_sub {m0 : Machine} {c : UInt64} (h : m.reg .rsp = m0.reg .rsp - c) (hc : c + 8 ≠ 0) :
    Within m0 m := by
  intro hrsp
  rw [h] at hrsp
  exact hc (by grind)

/-- `putstr` up to its loop. -/
def Machine.putstrEntered (m : Machine) : Machine :=
  let m1 := m.next
  let m2 := (m1.push (m1.reg .rbp)).next
  let m3 := (m2.setReg .rbp (m2.reg .rsp)).next
  let m4 := (m3.push (m3.reg .rbx)).next
  let m5 := (m4.push (m4.reg .rax)).next
  (m5.setReg .rbx (m5.reg .rdi)).next

theorem looping_entered (hpc : m.pc = Label.putstr.index) : Looping m m.putstrEntered [] := by
  have hmem : m.putstrEntered.mem = storeWord (storeWord (storeWord m.mem (m.reg .rsp - 8) (m.reg .rbp))
      (m.reg .rsp - 8 - 8) (m.reg .rbx)) (m.reg .rsp - 8 - 8 - 8) (m.reg .rax) := rfl
  have h2 : m.reg .rsp - 8 - 8 = m.reg .rsp - 16 := by grind
  have h3 : m.reg .rsp - 8 - 8 - 8 = m.reg .rsp - 24 := by grind
  rw [h3, h2] at hmem
  refine ⟨?_, ?_, rfl, h3, rfl, (List.append_nil _).symm, ?_, ?_, ?_, ?_⟩
  · show m.pc + 1 + 1 + 1 + 1 + 1 + 1 = _
    rw [hpc]
    rfl
  · exact (UInt64.add_zero _).symm
  · rw [hmem, loadWord_storeWord_below (by decide) (by decide), loadWord_storeWord_below (by decide) (by decide),
      loadWord_storeWord_self]
  · rw [hmem, loadWord_storeWord_below (by decide) (by decide), loadWord_storeWord_self]
  · rw [hmem, loadWord_storeWord_self]
  · intro b h
    have hb : (64 : UInt64).toNat ≤ (b - (m.reg .rsp - 64)).toNat := h
    rw [hmem, storeWord_of_far hb (by decide), storeWord_of_far hb (by decide), storeWord_of_far hb (by decide)]

theorem path_entered (hpc : m.pc = Label.putstr.index) :
    Path (step clobber base) (Within m) m m.putstrEntered := by
  have hw : ∀ {s : Machine} (c : UInt64), s.reg .rsp = m.reg .rsp - c → c + 8 ≠ 0 → Within m s :=
    fun c hs hc => within_of_sub hs hc
  have h0 : m.reg .rsp = m.reg .rsp - 0 := by grind
  have h2 : m.reg .rsp - 8 - 8 = m.reg .rsp - 16 := by grind
  have h3 : m.reg .rsp - 8 - 8 - 8 = m.reg .rsp - 24 := by grind
  obtain ⟨reg, mem, zero, pc, stdout⟩ := m
  cases hpc
  refine path_line (hw 0 h0 (by decide)) rfl rfl ?_
  refine path_line (hw 0 h0 (by decide)) rfl rfl ?_
  refine path_line (hw 8 rfl (by decide)) rfl rfl ?_
  refine path_line (hw 8 rfl (by decide)) rfl rfl ?_
  refine path_line (hw 16 h2 (by decide)) rfl rfl ?_
  exact path_line (hw 24 h3 (by decide)) rfl rfl (.refl _)

/-- The first lines of the loop: the next byte is compared with zero. -/
def Machine.tested (m : Machine) : Machine :=
  let m1 := m.next
  let m2 := (m1.setReg .rax (setLow (m1.reg .rax) (m1.mem (m1.reg .rbx)))).next
  { m2 with zero := (m2.reg .rax).toUInt8 = 0 }.next

theorem zero_tested (m : Machine) : m.tested.zero = decide (m.mem (m.reg .rbx) = 0) := by
  show decide ((setLow (m.reg .rax) (m.mem (m.reg .rbx))).toUInt8 = 0) = _
  rw [toUInt8_setLow]

theorem path_tested (hpc : m.pc = Label.putstrLoop.index) (hP : ∀ s : Machine, s.reg .rsp = m.reg .rsp → P s) :
    Path (step clobber base) P m m.tested := by
  obtain ⟨reg, mem, zero, pc, stdout⟩ := m
  cases hpc
  refine path_line (hP _ rfl) rfl rfl ?_
  refine path_line (hP _ rfl) rfl rfl ?_
  exact path_line (hP _ rfl) rfl rfl (.refl _)

/-- The call of `putc` with the byte that has been tested. -/
def Machine.putcCalled (base : UInt64) (m : Machine) : Machine :=
  let m1 := m.next
  let m2 := (m1.setReg .rdi (m1.reg .rax).toUInt8.toUInt64).next
  (m2.push (base + UInt64.ofNat (m2.pc + 1))).jump Label.putc.index

/-- Back at the start of the loop. -/
def Machine.again (m : Machine) : Machine :=
  { m.setReg .rbx (m.reg .rbx + 1) with zero := m.reg .rbx + 1 = 0 }.next.jump Label.putstrLoop.index

/-- The end of `putstr`. -/
def Machine.putstrReturned (base : UInt64) (m : Machine) : Machine :=
  let m1 := (m.jump Label.putstrEnd.index).next
  let m2 := ((m1.pop .rax).next.pop .rbx).next
  let m3 := (m2.setReg .rsp (m2.reg .rbp)).next
  let m4 := (m3.pop .rbp).next
  (m4.setReg .rsp (m4.reg .rsp + 8)).jump (loadWord m4.mem (m4.reg .rsp) - base).toNat

variable {m0 : Machine} {done : List UInt8}

/-- The return address that the loop gives to `putc`. -/
theorem returnAddress_sub (base : UInt64) (n : Nat) (h : n < 100) : (base + UInt64.ofNat n - base).toNat = n := by
  have hsub : base + UInt64.ofNat n - base = UInt64.ofNat n := by grind
  rw [hsub, UInt64.toNat_ofNat']
  omega

theorem pc_tested (h : Looping m0 m done) : m.tested.pc = 31 := by
  show m.pc + 1 + 1 + 1 = 31
  rw [h.pc]
  rfl

theorem rsp_putcCalled (base : UInt64) (h : Looping m0 m done) : (m.tested.putcCalled base).reg .rsp = m0.reg .rsp - 32 := by
  show m.reg .rsp - 8 = _
  rw [h.rsp]
  grind

theorem mem_putcCalled (h : Looping m0 m done) :
    (m.tested.putcCalled base).mem = storeWord m.mem (m0.reg .rsp - 32) (base + UInt64.ofNat 34) := by
  have hsub : m.reg .rsp - 8 = m0.reg .rsp - 32 := rsp_putcCalled base h
  show storeWord m.mem (m.reg .rsp - 8) (base + UInt64.ofNat (m.tested.pc + 1 + 1 + 1)) = _
  rw [pc_tested h, hsub]

/-- The words that `putstr` has saved survive a call of `putc`. -/
theorem savedWord_afterPutc (h : Looping m0 m done) {u : Machine} (hu : AfterPutc base (m.tested.putcCalled base) u)
    {j : UInt64} (hj : 8 ≤ j.toNat) (hj' : j.toNat ≤ 24) :
    loadWord u.mem (m0.reg .rsp - j) = loadWord m.mem (m0.reg .rsp - j) := by
  have h32 : (32 : UInt64).toNat = 32 := rfl
  have h64 : (64 : UInt64).toNat = 64 := rfl
  have hbelow : 8 ≤ ((32 : UInt64) - j).toNat := by
    rw [UInt64.toNat_sub_of_le _ _ (UInt64.le_iff_toNat_le.mpr (by omega))]
    omega
  have habove : 8 ≤ (j - (32 : UInt64)).toNat := by
    have hsize : UInt64.size = 2 ^ 64 := rfl
    have hneg : j - (32 : UInt64) = -(32 - j) := by grind
    rw [hneg, UInt64.toNat_neg, hsize, UInt64.toNat_sub_of_le _ _ (UInt64.le_iff_toNat_le.mpr (by omega))]
    omega
  have hframe : loadWord u.mem (m0.reg .rsp - j) = loadWord (m.tested.putcCalled base).mem (m0.reg .rsp - j) := by
    refine congrArg Vm.leValue (loadBytes_congr fun i hi => hu.frame _ ?_)
    have hsub : m0.reg .rsp - j + UInt64.ofNat i - (m0.reg .rsp - 32 - 32) = 64 - j + UInt64.ofNat i := by grind
    rw [rsp_putcCalled base h, hsub, UInt64.toNat_add, toNat_ofNat_of_lt hi,
      UInt64.toNat_sub_of_le _ _ (UInt64.le_iff_toNat_le.mpr (by omega))]
    omega
  rw [hframe, mem_putcCalled h]
  exact loadWord_storeWord_below hbelow habove

/-- Back at the start of the loop, one more byte has been written. -/
theorem looping_again (h : Looping m0 m done) {u : Machine} (hu : AfterPutc base (m.tested.putcCalled base) u) :
    Looping m0 u.again (done ++ [m.mem (m.reg .rbx)]) where
  pc := rfl
  rbx := by
    have hkept : u.reg .rbx = m.reg .rbx := hu.kept .rbx (by decide)
    have hlength : UInt64.ofNat (done.length + 1) = UInt64.ofNat done.length + 1 := UInt64.ofNat_add _ _
    show u.reg .rbx + 1 = _
    rw [hkept, h.rbx, List.length_append, List.length_singleton, hlength, UInt64.add_assoc]
  rbp := (hu.kept .rbp (by decide)).trans h.rbp
  rsp := by
    show u.reg .rsp = _
    rw [hu.rsp, rsp_putcCalled base h]
    grind
  args := by
    have hrdx : m.reg .rdx = (argsAfter (m0.reg .rsi) (m0.reg .rdx) done.length).2 := congrArg Prod.snd h.args
    have hrsi : u.reg .rsi = m.reg .rdx := hu.rsi
    rw [List.length_append, List.length_singleton, argsAfter, ← hrdx, ← hrsi, ← hu.rdx]
    rfl
  stdout := by
    have hrdi : ((m.tested.putcCalled base).reg .rdi).toUInt8 = m.mem (m.reg .rbx) := by
      show (setLow (m.reg .rax) (m.mem (m.reg .rbx))).toUInt8.toUInt64.toUInt8 = _
      rw [UInt8.toUInt8_toUInt64, toUInt8_setLow]
    show u.stdout = _
    rw [hu.stdout, hrdi, ← List.append_assoc, ← h.stdout]
    rfl
  savedRbp := (savedWord_afterPutc h hu (by decide) (by decide)).trans h.savedRbp
  savedRbx := (savedWord_afterPutc h hu (by decide) (by decide)).trans h.savedRbx
  savedRax := (savedWord_afterPutc h hu (by decide) (by decide)).trans h.savedRax
  frame := by
    intro b hb
    have h64 : (64 : UInt64).toNat ≤ (b - (m0.reg .rsp - 64)).toNat := hb
    have hframe : u.mem b = (m.tested.putcCalled base).mem b := by
      refine hu.frame b ?_
      have hsub : m0.reg .rsp - 32 - 32 = m0.reg .rsp - 64 := by grind
      rw [rsp_putcCalled base h, hsub]
      omega
    show u.mem b = _
    rw [hframe, mem_putcCalled h, storeWord_of_far h64 (by decide)]
    exact h.frame b hb

theorem path_putcCalled (clobber : Machine → UInt64 × UInt64) (base : UInt64) (h : Looping m0 m done) (hne : m.mem (m.reg .rbx) ≠ 0) :
    Path (step clobber base) (Within m0) m (m.tested.putcCalled base) := by
  have hw : ∀ s : Machine, s.reg .rsp = m.reg .rsp → Within m0 s :=
    fun s hs => within_of_sub (hs.trans h.rsp) (by decide)
  refine (path_tested h.pc hw).trans ?_
  have hzero : m.tested.zero = false := by
    rw [zero_tested]
    exact decide_eq_false hne
  have hrsp : m.tested.reg .rsp = m.reg .rsp := rfl
  have hpc := pc_tested h
  generalize m.tested = q at hzero hpc hrsp
  obtain ⟨reg, mem, zero, pc, stdout⟩ := q
  cases hpc
  cases hzero
  refine path_line (hw _ hrsp) rfl rfl ?_
  refine path_line (hw _ hrsp) rfl rfl ?_
  exact path_line (hw _ hrsp) rfl rfl (.refl _)

/-- One byte of the string is written, and the loop starts again. -/
theorem looping_step (clobber : Machine → UInt64 × UInt64) (base : UInt64) (h : Looping m0 m done)
    (hne : m.mem (m.reg .rbx) ≠ 0) :
    ∃ m', Path (step clobber base) (Within m0) m m' ∧ Looping m0 m' (done ++ [m.mem (m.reg .rbx)]) := by
  have hafter := afterPutc clobber base (m.tested.putcCalled base)
  have hputc : Path (step clobber base) (Within m0) (m.tested.putcCalled base)
      (((m.tested.putcCalled base).pushedFour.putcWritten clobber).putcReturned base) := by
    refine path_putc rfl fun s k hk hs => ?_
    have hsub : s.reg .rsp = m0.reg .rsp - (32 + 8 * UInt64.ofNat k) := by
      rw [hs, rsp_putcCalled base h]
      grind
    refine within_of_sub hsub ?_
    have hcases : k = 0 ∨ k = 1 ∨ k = 2 ∨ k = 3 ∨ k = 4 := by omega
    rcases hcases with rfl | rfl | rfl | rfl | rfl <;> decide
  have hpath := (path_putcCalled clobber base h hne).trans hputc
  generalize ((m.tested.putcCalled base).pushedFour.putcWritten clobber).putcReturned base = u at hafter hpath
  refine ⟨u.again, hpath.trans ?_, looping_again h hafter⟩
  have hupc : u.pc = 34 := by
    rw [hafter.pc, mem_putcCalled h, rsp_putcCalled base h, loadWord_storeWord_self]
    exact returnAddress_sub base 34 (by omega)
  have hw : ∀ s : Machine, s.reg .rsp = u.reg .rsp → Within m0 s := by
    intro s hs
    refine within_of_sub (hs.trans (looping_again h hafter).rsp) ?_
    decide
  clear hafter hpath
  obtain ⟨reg, mem, zero, pc, stdout⟩ := u
  cases hupc
  refine path_line (hw _ rfl) rfl rfl ?_
  exact path_line (hw _ rfl) rfl rfl (.refl _)

/-! ## The end of `putstr` -/

theorem path_putstrReturned (h : Looping m0 m done) (hnul : m.mem (m.reg .rbx) = 0) :
    Path (step clobber base) (Within m0) m (m.tested.putstrReturned base) := by
  have hw : ∀ s : Machine, s.reg .rsp = m.reg .rsp → Within m0 s :=
    fun s hs => within_of_sub (hs.trans h.rsp) (by decide)
  refine (path_tested h.pc hw).trans ?_
  have hzero : m.tested.zero = true := by
    rw [zero_tested]
    exact decide_eq_true hnul
  have hrsp : m.tested.reg .rsp = m0.reg .rsp - 24 := h.rsp
  have hrbp : m.tested.reg .rbp = m0.reg .rsp - 8 := h.rbp
  have h1 : m0.reg .rsp - 24 + 8 = m0.reg .rsp - 16 := by grind
  have h2 : m0.reg .rsp - 24 + 8 + 8 = m0.reg .rsp - 8 := by grind
  have h3 : m0.reg .rsp - 8 + 8 = m0.reg .rsp - 0 := by grind
  have hpc := pc_tested h
  generalize m.tested = q at hzero hpc hrsp hrbp
  obtain ⟨reg, mem, zero, pc, stdout⟩ := q
  cases hpc
  cases hzero
  have e1 : reg .rsp + 8 = m0.reg .rsp - 16 := (congrArg (· + 8) hrsp).trans h1
  have e2 : reg .rsp + 8 + 8 = m0.reg .rsp - 8 := (congrArg (· + 8 + 8) hrsp).trans h2
  have e3 : reg .rbp + 8 = m0.reg .rsp - 0 := (congrArg (· + 8) hrbp).trans h3
  refine path_line (within_of_sub hrsp (by decide)) rfl rfl ?_
  refine path_line (within_of_sub hrsp (by decide)) rfl rfl ?_
  refine path_line (within_of_sub hrsp (by decide)) rfl rfl ?_
  refine path_line (within_of_sub e1 (by decide)) rfl rfl ?_
  refine path_line (within_of_sub e2 (by decide)) rfl rfl ?_
  refine path_line (within_of_sub hrbp (by decide)) rfl rfl ?_
  exact path_line (within_of_sub e3 (by decide)) rfl rfl (.refl _)

/-- What `putstr` leaves when it returns. -/
structure AfterPutstr (base : UInt64) (m0 m : Machine) (bytes : List UInt8) : Prop where
  rsp : m.reg .rsp = m0.reg .rsp + 8
  pc : base + UInt64.ofNat m.pc = loadWord m0.mem (m0.reg .rsp)
  stdout : m.stdout = m0.stdout ++ bytes
  rbp : m.reg .rbp = m0.reg .rbp
  rbx : m.reg .rbx = m0.reg .rbx
  rax : m.reg .rax = m0.reg .rax
  args : (m.reg .rsi, m.reg .rdx) = argsAfter (m0.reg .rsi) (m0.reg .rdx) bytes.length

theorem afterPutstr (base : UInt64) (h : Looping m0 m done) :
    AfterPutstr base m0 (m.tested.putstrReturned base) done := by
  have hrsp := h.rsp
  have hrbp := h.rbp
  have h1 : m0.reg .rsp - 24 + 8 = m0.reg .rsp - 16 := by grind
  have h3 : m0.reg .rsp - 8 + 8 = m0.reg .rsp := by grind
  have hret : loadWord m.mem (m0.reg .rsp) = loadWord m0.mem (m0.reg .rsp) := by
    refine congrArg Vm.leValue (loadBytes_congr fun i hi => h.frame _ ?_)
    have h64 : (64 : UInt64).toNat = 64 := rfl
    have hsub : m0.reg .rsp + UInt64.ofNat i - (m0.reg .rsp - 64) = 64 + UInt64.ofNat i := by grind
    rw [hsub, UInt64.toNat_add, toNat_ofNat_of_lt hi, h64]
    omega
  refine ⟨?_, ?_, h.stdout, ?_, ?_, ?_, h.args⟩
  · show m.reg .rbp + 8 + 8 = m0.reg .rsp + 8
    rw [hrbp, h3]
  · show base + UInt64.ofNat (loadWord m.mem (m.reg .rbp + 8) - base).toNat = _
    rw [hrbp, h3, hret, UInt64.ofNat_toNat]
    grind
  · show loadWord m.mem (m.reg .rbp) = _
    rw [hrbp, h.savedRbp]
  · show loadWord m.mem (m.reg .rsp + 8) = _
    rw [hrsp, h1, h.savedRbx]
  · show loadWord m.mem (m.reg .rsp) = _
    rw [hrsp, h.savedRax]

/-- The loop writes the bytes that are left, and returns. -/
theorem returns_of_looping (clobber : Machine → UInt64 × UInt64) (base : UInt64) {left : List UInt8}
    (hstring : StringAt m0.mem (m0.reg .rdi) (done ++ left))
    (haway : AwayFromStack (m0.reg .rsp) (m0.reg .rdi) (done ++ left)) (h : Looping m0 m done) :
    ∃ m', Path (step clobber base) (Within m0) m m' ∧ AfterPutstr base m0 m' (done ++ left) := by
  induction left generalizing m done with
  | nil =>
    rw [List.append_nil] at hstring haway ⊢
    have hnul : m.mem (m.reg .rbx) = 0 := by
      rw [h.rbx, h.frame _ (haway done.length (Nat.le_refl _))]
      exact hstring.nul
    exact ⟨_, path_putstrReturned h hnul, afterPutstr base h⟩
  | cons byte left ih =>
    have hget : (done ++ byte :: left)[done.length]? = some byte := by
      rw [List.getElem?_append_right (Nat.le_refl _), Nat.sub_self]
      rfl
    obtain ⟨hbyte, hne⟩ := hstring.byte done.length byte hget
    have hmem : m.mem (m.reg .rbx) = byte := by
      rw [h.rbx, h.frame _ (haway done.length (by rw [List.length_append]; omega))]
      exact hbyte
    obtain ⟨m', hpath, hlooping⟩ := looping_step clobber base h (by rw [hmem]; exact hne)
    rw [hmem] at hlooping
    have happend : done ++ byte :: left = (done ++ [byte]) ++ left := List.append_cons done byte left
    rw [happend] at hstring haway ⊢
    obtain ⟨u, hrest, hafter⟩ := ih hstring haway hlooping
    exact ⟨u, hpath.trans hrest, hafter⟩

theorem argsAfter_eq_iff (rsi rdx : UInt64) (n : Nat) :
    argsAfter rsi rdx n = (rsi, rdx) ↔ n = 0 ∨ (rsi = 1 ∧ rdx = 1) := by
  have hone : ∀ k, argsAfter 1 1 k = (1, 1) := by
    intro k
    induction k with
    | zero => rfl
    | succ k ih => rw [argsAfter, ih]
  constructor
  · intro h
    cases n with
    | zero => exact .inl rfl
    | succ k =>
      obtain ⟨hrsi, hrdx⟩ := Prod.ext_iff.mp h
      have hrdx' : (1 : UInt64) = rdx := hrdx
      subst hrdx'
      refine .inr ⟨?_, rfl⟩
      cases k with
      | zero => exact hrsi.symm
      | succ k => exact hrsi.symm
  · rintro (rfl | ⟨rfl, rfl⟩)
    · rfl
    · exact hone n

theorem Returns.unique {u : Machine} (h : Returns clobber base m0 m) (h' : Returns clobber base m0 u) : m = u :=
  h.path.first_unique (fun hn => hn h.rsp) h'.path fun hn => hn h'.rsp

theorem putstr_returns (clobber : Machine → UInt64 × UInt64) (base : UInt64) {bytes : List UInt8}
    (hpc : m.pc = Label.putstr.index) (hstring : StringAt m.mem (m.reg .rdi) bytes)
    (haway : AwayFromStack (m.reg .rsp) (m.reg .rdi) bytes) :
    ∃ m', Returns clobber base m m' ∧ AfterPutstr base m m' bytes := by
  have hbytes : [] ++ bytes = bytes := rfl
  rw [← hbytes] at hstring haway
  obtain ⟨m', hpath, hafter⟩ := returns_of_looping clobber base hstring haway (looping_entered hpc)
  exact ⟨m', ⟨(path_entered hpc).trans hpath, hafter.rsp, hafter.pc⟩, hafter⟩

/-- `putstr` writes the bytes of its string and returns with the stack as it was; all the registers it pushes
are restored if and only if the string is empty or both `%rsi` and `%rdx` held 1. -/
theorem putstr_restores (clobber : Machine → UInt64 × UInt64) (base : UInt64) (m : Machine) (bytes : List UInt8)
    (hpc : m.pc = Label.putstr.index) (hstring : StringAt m.mem (m.reg .rdi) bytes)
    (haway : AwayFromStack (m.reg .rsp) (m.reg .rdi) bytes) :
    (∃ m', Returns clobber base m m' ∧ m'.stdout = m.stdout ++ bytes ∧ Restored m m') ↔
      bytes = [] ∨ (m.reg .rsi = 1 ∧ m.reg .rdx = 1) := by
  obtain ⟨u, hreturns, hafter⟩ := putstr_returns clobber base hpc hstring haway
  have hargs : (u.reg .rsi, u.reg .rdx) = argsAfter (m.reg .rsi) (m.reg .rdx) bytes.length := hafter.args
  rw [← List.length_eq_zero_iff, ← argsAfter_eq_iff, ← hargs]
  constructor
  · rintro ⟨m', hm', -, hrestored⟩
    rw [← hm'.unique hreturns]
    exact Prod.ext (hrestored .rsi (by decide)) (hrestored .rdx (by decide))
  · intro h
    obtain ⟨hrsi, hrdx⟩ := Prod.ext_iff.mp h
    refine ⟨u, hreturns, hafter.stdout, ?_⟩
    unfold Restored
    simp only [List.forall_mem_cons, List.not_mem_nil, false_imp_iff, implies_true, and_true]
    exact ⟨hafter.rbp, hafter.rbx, hafter.rax, hrsi, hrdx⟩

/-- At the entry of `putstr` with the string `A`, and two values in `%rsi` and `%rdx`. -/
def printA (rsi rdx : UInt64) : Machine where
  reg
    | .rdi => 0x1000
    | .rsi => rsi
    | .rdx => rdx
    | .rsp => 0x7000
    | _ => 0
  mem := fun a => if a = 0x1000 then 65 else 0
  zero := false
  pc := Label.putstr.index
  stdout := []

theorem stringAt_printA (rsi rdx : UInt64) : StringAt (printA rsi rdx).mem 0x1000 [65] where
  byte := by
    intro i b hb
    cases i with
    | zero =>
      cases hb
      exact ⟨rfl, by decide⟩
    | succ i => cases hb
  nul := rfl

theorem awayFromStack_printA : AwayFromStack 0x7000 0x1000 [65] := by
  intro i hi
  have hcases : i = 0 ∨ i = 1 := by
    have hle : i ≤ 1 := hi
    omega
  rcases hcases with rfl | rfl <;> decide

/-- With the string `AB`, and 1 in both. -/
def printAB : Machine :=
  { printA 1 1 with mem := fun a => if a = 0x1000 then 65 else if a = 0x1001 then 66 else 0 }

theorem stringAt_printAB : StringAt printAB.mem 0x1000 [65, 66] where
  byte := by
    intro i b hb
    cases i with
    | zero =>
      cases hb
      exact ⟨rfl, by decide⟩
    | succ i =>
      cases i with
      | zero =>
        cases hb
        exact ⟨rfl, by decide⟩
      | succ i => cases hb
  nul := rfl

theorem awayFromStack_printAB : AwayFromStack 0x7000 0x1000 [65, 66] := by
  intro i hi
  have hcases : i = 0 ∨ i = 1 ∨ i = 2 := by
    have hle : i ≤ 2 := hi
    omega
  rcases hcases with rfl | rfl | rfl <;> decide

theorem putstr_restores_ones : ∃ m', Returns (fun _ => (0, 0)) 0x400000 printAB m' ∧
    m'.stdout = printAB.stdout ++ [65, 66] ∧ Restored printAB m' :=
  (putstr_restores (fun _ => (0, 0)) 0x400000 printAB [65, 66] rfl stringAt_printAB
    awayFromStack_printAB).mpr (.inr ⟨rfl, rfl⟩)

/-- `%rsi` comes back with what `%rdx` held, and `%rdx` with 1. -/
theorem putstr_exchanges : (∃ m', Returns (fun _ => (0, 0)) 0x400000 (printA 2 3) m' ∧
      m'.reg .rsi = 3 ∧ m'.reg .rdx = 1) ∧
    ¬ ∃ m', Returns (fun _ => (0, 0)) 0x400000 (printA 2 3) m' ∧ m'.stdout = (printA 2 3).stdout ++ [65] ∧
      Restored (printA 2 3) m' := by
  obtain ⟨u, hreturns, hafter⟩ := putstr_returns (fun _ => (0, 0)) 0x400000 (m := printA 2 3) rfl
    (stringAt_printA 2 3) awayFromStack_printA
  have hrsi : u.reg .rsi = 3 := congrArg Prod.fst hafter.args
  refine ⟨⟨u, hreturns, hrsi, congrArg Prod.snd hafter.args⟩, ?_⟩
  rintro ⟨m', hm', -, hrestored⟩
  have hkept : m'.reg .rsi = 2 := hrestored .rsi (by decide)
  rw [hm'.unique hreturns, hrsi] at hkept
  exact absurd hkept (by decide)

end Blaze.Stdio
