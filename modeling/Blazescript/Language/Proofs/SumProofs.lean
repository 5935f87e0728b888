import Blazescript.Language.Proofs.ProgramsProofs

/-!
# Proofs: a program that adds numbers up

What a loop means, by an invariant of its iterations, and what that says of the evaluator.
-/

namespace Blaze

open Running Tracing

variable {memory : Memory} {layer top : Layer} {s k : Nat}

/-- The body of the loop adds the loop variable to the sum. -/
def addToSum : AstNode :=
  .assignment .unknown (.identifier .unknown "sum")
    (.binaryExpr .unknown .opPlus (.identifier .unknown "sum") (.identifier .unknown "i"))

/-- Adds up the numbers below a given one, in a loop. -/
def sumProgram (n : Nat) : List AstNode :=
  [.varDecl .unknown "sum" false (some (.intLit .unknown 0)),
    .loopStmt .unknown (some (.intLit .unknown n)) (some "i") (.block .unknown [addToSum]),
    .exprCall .unknown "println" [.identifier .unknown "sum"]]

theorem sumProgram_firstOrder (n : Nat) : ∀ node ∈ sumProgram n, FirstOrder node := by
  have hsum : FirstOrder (.identifier .unknown "sum") := .identifier .unknown "sum" rfl
  have hi : FirstOrder (.identifier .unknown "i") := .identifier .unknown "i" rfl
  have hadd : FirstOrder addToSum := .assignment .unknown .unknown "sum" _ rfl (.binaryExpr .unknown .opPlus _ _ hsum hi)
  intro node hnode
  rcases List.mem_cons.mp hnode with rfl | hnode
  · refine .varDecl .unknown "sum" false _ rfl fun value hvalue => ?_
    obtain rfl := Option.some.inj hvalue
    exact .intLit .unknown 0
  rcases List.mem_cons.mp hnode with rfl | hnode
  · refine .loopStmt .unknown _ _ _ (fun count hcount => ?_) (fun name hname => ?_) (.block .unknown _ fun stmt hstmt => ?_)
    · obtain rfl := Option.some.inj hcount
      exact .intLit .unknown n
    · obtain rfl := Option.some.inj hname
      rfl
    · obtain rfl := List.mem_singleton.mp hstmt
      exact hadd
  · obtain rfl := List.mem_singleton.mp hnode
    refine FirstOrder.print .unknown true _ fun arg harg => ?_
    obtain rfl := List.mem_singleton.mp harg
    exact .quiet (.identifier .unknown "sum" rfl)

/-! ## The loop -/

/-- Iteration `k` of the loop is about to begin, and the sum is `s`. -/
structure SumIs (s k : Nat) (memory : Memory) : Prop where
  layers : ∃ layer top, memory.layers = [layer, top] ∧ layer.vars "sum" = none ∧
    layer.vars "i" = some (.integer k, true) ∧ top.vars "sum" = some (.integer s, false)
  fits : s < 0x8000000000000000
  out : memory.out = []

/-- The sum of the numbers below a given one. -/
abbrev sumBelow (n : Nat) : Nat := ∑ i ∈ Finset.range n, i

theorem exactly_fits {s : Nat} (h : s < 0x8000000000000000) (memory : Memory) :
    exactly s memory = .ok (.integer s) memory := by
  unfold exactly
  rw [if_pos ⟨by omega, by omega⟩]
  rfl

theorem operate_plus (pos rightPos : Pos) (l r : Int) :
    operate pos rightPos .opPlus (.integer l) (.integer r) = exactly (l + r) := by
  unfold operate
  rw [if_neg (by exact Bool.false_ne_true)]
  unfold arithmetic
  rfl

/-- The body of the loop adds up what the two names stand for. -/
theorem addToSum_adds (h : SumIs s k memory) : meaningAll [addToSum] memory = (do
    let v ← exactly (s + k : Nat)
    assign .unknown "sum" v) memory := by
  obtain ⟨⟨layer, top, hl, hsum, hi, htop⟩, -⟩ := h
  have hlookup : lookupIn "sum" memory.layers = some (.integer s, false) := by
    rw [hl, lookupIn, hsum, Option.none_or, lookupIn, htop]
    rfl
  have hlookup' : lookupIn "i" memory.layers = some (.integer k, true) := by
    rw [hl, lookupIn, hi]
    rfl
  have hmeaning : meaningAll [addToSum] = (do
      let l ← valueOf .unknown "sum"
      let r ← valueOf .unknown "i"
      let v ← operate .unknown .unknown .opPlus l r
      assign .unknown "sum" v) := by
    unfold addToSum
    simp only [meaningAll, meaning, bind_assoc, pure_bind, bind_pure_unit]
    rfl
  rw [hmeaning, bind_ok (valueOf_some hlookup), bind_ok (valueOf_some hlookup'), operate_plus, Nat.cast_add]

theorem addToSum_fits (h : SumIs s k memory) (hfits : s + k < 0x8000000000000000) :
    ∃ memory', meaningAll [addToSum] memory = .ok () memory' ∧ SumIs (s + k) k memory' := by
  rw [addToSum_adds h, bind_ok (exactly_fits hfits memory)]
  obtain ⟨⟨layer, top, hl, hsum, hi, htop⟩, -, hout⟩ := h
  have hlookup : lookupIn "sum" memory.layers = some (.integer s, false) := by
    rw [hl, lookupIn, hsum, Option.none_or, lookupIn, htop]
    rfl
  refine ⟨_, assign_var hlookup _, ⟨layer, top.bind "sum" (.integer (s + k : Nat)) false, ?_, hsum, hi, ?_⟩, hfits, hout⟩
  · show assignIn "sum" _ memory.layers = _
    rw [hl, assignIn, hsum, Option.isSome_none, if_neg Bool.false_ne_true, assignIn, htop, Option.isSome_some, if_pos rfl]
  · rw [Layer.vars_bind, if_pos rfl]

/-- The loop variable gets its next value. -/
theorem SumIs.next (h : SumIs s k memory) : ∃ memory',
    inTop (fun layer => layer.next (k + 1) (some "i")) memory = .ok () memory' ∧ SumIs s (k + 1) memory' := by
  obtain ⟨⟨layer, top, hl, hsum, hi, htop⟩, hfits, hout⟩ := h
  refine ⟨_, inTop_ok hl _, ⟨_, top, rfl, ?_, ?_, htop⟩, hfits, hout⟩
  · rw [Layer.vars_next, if_neg (by decide), hsum]
  · rw [Layer.vars_next, if_pos rfl, hi]
    rfl

/-- The iterations from number `k` on, if the sum of all of them fits. -/
theorem iterate_sum (n : Nat) : ∀ k memory, SumIs (sumBelow k) k memory → sumBelow (k + n) < 0x8000000000000000 →
    ∃ memory', iterate (meaningAll [addToSum]) (some "i") n k memory = .ok () memory' ∧
      SumIs (sumBelow (k + n)) (k + n) memory' := by
  induction n with
  | zero => exact fun k memory h _ => ⟨memory, rfl, h⟩
  | succ n ih =>
    intro k memory h hfits
    have hsum : sumBelow (k + 1) = sumBelow k + k := Finset.sum_range_succ _ k
    have hk : k + (n + 1) = k + 1 + n := by omega
    rw [hk] at hfits ⊢
    have hmono : sumBelow (k + 1) ≤ sumBelow (k + 1 + n) :=
      Finset.sum_le_sum_of_subset (Finset.range_mono (Nat.le_add_right (k + 1) n))
    obtain ⟨memory₁, hbody, h₁⟩ := addToSum_fits h (by omega)
    obtain ⟨memory₂, hnext, h₂⟩ := h₁.next
    rw [← hsum] at h₂
    unfold iterate
    rw [bind_ok hbody, bind_ok hnext]
    exact ih (k + 1) memory₂ h₂ hfits

/-! ## The program -/

theorem repeated_integer (pos : Pos) (varname : Option String) (body : Meaning Unit) (n : Nat) :
    repeated pos varname body (.integer n) = (do
      pushLayer (loopLayer varname)
      iterate body varname n 0
      popLayer
      pure .null) := by
  unfold repeated
  dsimp only
  rw [if_neg (by omega), Int.toNat_natCast]

/-- The layer of the program has the sum, and the loop is about to begin. -/
theorem sumIs_start (room : Nat) : SumIs (sumBelow 0) 0
    ⟨[loopLayer (some "i"), globalLayer.bind "sum" (.integer 0) false], [], room⟩ := by
  refine ⟨⟨_, _, rfl, ?_, ?_, ?_⟩, ?_, rfl⟩
  · rw [loopLayer, Layer.vars_bind, if_neg (by decide)]
    rfl
  · rw [loopLayer, Layer.vars_bind, if_pos rfl]
    rfl
  · rw [Layer.vars_bind, if_pos rfl]
    rfl
  · rw [sumBelow, Finset.range_zero, Finset.sum_empty]
    omega

/-- What the program means. -/
theorem sumProgram_meaning (n : Nat) (h : sumBelow n < 0x8000000000000000) :
    ∃ memory, meaning (.root .unknown (sumProgram n)) .start = .ok .null memory ∧
      memory.out = [.text ("\x1b[1;33m" ++ toString (sumBelow n) ++ "\x1b[0m"), .text "\n"] := by
  have hmeaning : meaning (.root .unknown (sumProgram n)) = (do
      declare .unknown "sum" (.integer 0) false
      pushLayer (loopLayer (some "i"))
      iterate (meaningAll [addToSum]) (some "i") n 0
      popLayer
      let v ← valueOf .unknown "sum"
      printOut .unknown true [v.printed]) := by
    unfold sumProgram
    simp only [meaning, meaningOr, meaningLast, meaningPrinted, repeated_integer, bind_assoc, pure_bind]
    rfl
  have hdeclare : declare .unknown "sum" (.integer 0) false .start =
      .ok () ⟨[globalLayer.bind "sum" (.integer 0) false], [], Memory.start.room⟩ := declare_new rfl rfl rfl
  have hpush : pushLayer (loopLayer (some "i")) ⟨[globalLayer.bind "sum" (.integer 0) false], [], Memory.start.room⟩ =
      .ok () ⟨[loopLayer (some "i"), globalLayer.bind "sum" (.integer 0) false], [], Memory.start.room⟩ := rfl
  have hloop := iterate_sum n 0 _ (sumIs_start Memory.start.room)
  rw [Nat.zero_add] at hloop
  obtain ⟨memory, hrun, ⟨layer, top, hl, -, -, htop⟩, -, hout⟩ := hloop h
  have hpop : popLayer memory = .ok () { memory with layers := [top] } := by
    show EStateM.Result.ok () { memory with layers := memory.layers.tail } = _
    rw [hl]
    rfl
  have hlookup : lookupIn "sum" [top] = some (.integer (sumBelow n), false) := by
    rw [lookupIn, htop]
    rfl
  rw [hmeaning, bind_ok hdeclare, bind_ok hpush, bind_ok hrun, bind_ok hpop, bind_ok (valueOf_some hlookup)]
  refine ⟨_, printOut_cons .unknown true _ [] _, ?_⟩
  rw [hout]
  rfl

/-- The program prints the sum, whatever the number is, if the sum has 63 bits. -/
theorem sumProgram_runs (n : Nat) (h : sumBelow n < 0x8000000000000000) :
    ∃ k, ∀ fuel ≥ k, ∀ stdin strerror, ∃ v w,
      runProgram fuel (.root .unknown (sumProgram n)) stdin strerror = .ok v w ∧
        w.state.store.stdout = [.text ("\x1b[1;33m" ++ toString (sumBelow n) ++ "\x1b[0m"), .text "\n"] ∧
        w.state.tbl.Unmoved := by
  obtain ⟨k, hk⟩ := runsAsMeant_of_nodeMeans (means_root (sumProgram_firstOrder n) .unknown)
  obtain ⟨memory, hmeaning, hout⟩ := sumProgram_meaning n h
  refine ⟨k, fun fuel hfuel stdin strerror => ?_⟩
  have hrun := hk fuel hfuel stdin strerror
  rw [hmeaning] at hrun
  generalize runProgram fuel (.root .unknown (sumProgram n)) stdin strerror = r at hrun ⊢
  cases hrun with
  | @ok v w _ _ hw => exact ⟨v, w, rfl, hw.2.1.trans hout, hw.2.2⟩

/-- The largest sum is that of the numbers below 4294967296. -/
theorem sumProgram_runs_most : ∃ k, ∀ fuel ≥ k, ∀ stdin strerror, ∃ v w,
    runProgram fuel (.root .unknown (sumProgram 0x100000000)) stdin strerror = .ok v w ∧
      w.state.store.stdout = [.text ("\x1b[1;33m" ++ toString (sumBelow 0x100000000) ++ "\x1b[0m"), .text "\n"] ∧
      w.state.tbl.Unmoved := by
  have hfits : sumBelow 0x100000000 < 0x8000000000000000 := by
    rw [sumBelow, Finset.sum_range_id]
    omega
  exact sumProgram_runs 0x100000000 hfits

end Blaze
