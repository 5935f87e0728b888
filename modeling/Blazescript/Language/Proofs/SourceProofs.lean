import Blazescript.Language.Source
import Blazescript.Language.Proofs.ProgramsProofs
import Blazescript.Syntax.Proofs.SourceProofs

/-!
# Proofs: from the text of a program to its meaning

The text of a program is read as its tree, and the tree is run as it means. The places in the tree do not matter
for its meaning, except where an error says them.
-/

namespace Blaze

open Running Tracing

variable {α β : Type} {x y : Meaning α} {f g : α → Meaning β} {node : AstNode} {nodes : List AstNode}
  {pos pos' : Pos}

/-! ## The places do not matter -/

theorem sameMeaning_rfl (x : Meaning α) : SameMeaning x x := by
  intro memory memory' hmemory
  subst hmemory
  cases x memory with
  | ok a memory => exact .ok ⟨rfl, rfl⟩
  | error halt memory => exact .error ⟨rfl, rfl⟩

theorem SameMeaning.bind (h : SameMeaning x y) (hfg : ∀ a, SameMeaning (f a) (g a)) :
    SameMeaning (x >>= f) (y >>= g) := by
  refine Refines.bind h fun a b => ?_
  rintro memory memory' ⟨rfl, rfl⟩
  exact hfg a memory memory rfl

theorem sameMeaning_throw (msg : String) :
    SameMeaning (throw (.runtimeError pos msg) : Meaning α) (throw (.runtimeError pos' msg)) :=
  refines_throw fun _ _ hmemory => ⟨rfl, hmemory⟩

theorem sameMeaning_ite {c : Prop} [Decidable c] {x' y' : Meaning α} (h : SameMeaning x y) (h' : SameMeaning x' y') :
    SameMeaning (if c then x else x') (if c then y else y') := refines_ite Iff.rfl (fun _ => h) fun _ => h'

theorem sameMeaning_valueOf (name : String) : SameMeaning (valueOf pos name) (valueOf pos' name) := by
  refine (sameMeaning_rfl _).bind fun memory => ?_
  cases lookupIn name memory.layers with
  | none => exact sameMeaning_throw _
  | some binding => exact sameMeaning_rfl _

theorem sameMeaning_assign (name : String) (value : Scalar) :
    SameMeaning (assign pos name value) (assign pos' name value) := by
  refine (sameMeaning_rfl _).bind fun memory => ?_
  cases lookupIn name memory.layers with
  | none => exact sameMeaning_throw _
  | some binding =>
    rcases binding with ⟨_, isConst⟩
    cases isConst with
    | false => exact sameMeaning_rfl _
    | true => exact sameMeaning_throw _

theorem sameMeaning_declare (name : String) (value : Scalar) (isConst : Bool) :
    SameMeaning (declare pos name value isConst) (declare pos' name value isConst) := by
  refine (sameMeaning_rfl _).bind fun memory => ?_
  cases memory.layers with
  | nil => exact sameMeaning_rfl _
  | cons layer layers =>
    exact sameMeaning_ite (sameMeaning_rfl _) (sameMeaning_ite (sameMeaning_throw _) (sameMeaning_rfl _))

theorem sameMeaning_arithmetic (operator : BinOperator) (l r : Int) :
    SameMeaning (arithmetic operator l r pos) (arithmetic operator l r pos') := by
  cases operator with
  | opDivide | opModulus => exact sameMeaning_ite (sameMeaning_throw _) (sameMeaning_rfl _)
  | _ => exact sameMeaning_rfl _

theorem sameMeaning_operate {rightPos rightPos' : Pos} (operator : BinOperator) (l r : Scalar) :
    SameMeaning (operate pos rightPos operator l r) (operate pos' rightPos' operator l r) := by
  refine sameMeaning_ite (sameMeaning_rfl _) ?_
  cases l with
  | integer l =>
    cases r with
    | integer r => exact sameMeaning_arithmetic operator l r
    | _ => exact sameMeaning_throw _
  | _ => exact sameMeaning_throw _

theorem sameMeaning_printOut (newline : Bool) (outs : List (List Output)) :
    SameMeaning (printOut pos newline outs) (printOut pos' newline outs) :=
  (sameMeaning_rfl _).bind fun _ => sameMeaning_ite (sameMeaning_throw _) (sameMeaning_rfl _)

theorem sameMeaning_iterate {body body' : Meaning Unit} (h : SameMeaning body body') (varname : Option String)
    (n : Nat) : ∀ k, SameMeaning (iterate body varname n k) (iterate body' varname n k) := by
  induction n with
  | zero => exact fun k => sameMeaning_rfl _
  | succ n ih => exact fun k => h.bind fun _ => (sameMeaning_rfl _).bind fun _ => ih (k + 1)

theorem sameMeaning_repeated {body body' : Meaning Unit} (h : SameMeaning body body') (varname : Option String)
    (count : Scalar) : SameMeaning (repeated pos varname body count) (repeated pos' varname body' count) := by
  cases count with
  | integer n =>
    refine sameMeaning_ite (sameMeaning_throw _) ((sameMeaning_rfl _).bind fun _ => ?_)
    exact (sameMeaning_iterate h varname n.toNat 0).bind fun _ => sameMeaning_rfl _
  | quotient | null => exact sameMeaning_throw _
  | boolean b =>
    cases b with
    | false => exact sameMeaning_rfl _
    | true => exact sameMeaning_rfl _

/-! ## Trees -/

theorem sameMeaning_or (value : Scalar) {o : Option AstNode}
    (h : ∀ node ∈ o, SameMeaning (meaning node) (meaning node.erase)) :
    SameMeaning (meaningOr value o) (meaningOr value (o.map AstNode.erase)) := by
  cases o with
  | none => exact sameMeaning_rfl _
  | some node => exact h node rfl

theorem sameMeaning_all (h : ∀ node ∈ nodes, SameMeaning (meaning node) (meaning node.erase)) :
    SameMeaning (meaningAll nodes) (meaningAll (eraseAll nodes)) := by
  induction nodes with
  | nil => exact sameMeaning_rfl _
  | cons node nodes ih =>
    obtain ⟨hnode, hnodes⟩ := List.forall_mem_cons.mp h
    exact hnode.bind fun _ => ih hnodes

theorem sameMeaning_last (h : ∀ node ∈ nodes, SameMeaning (meaning node) (meaning node.erase)) :
    ∀ value, SameMeaning (meaningLast value nodes) (meaningLast value (eraseAll nodes)) := by
  induction nodes with
  | nil => exact fun value => sameMeaning_rfl _
  | cons node nodes ih =>
    intro value
    obtain ⟨hnode, hnodes⟩ := List.forall_mem_cons.mp h
    exact hnode.bind fun v => ih hnodes v

theorem Quiet.erase (h : Quiet node) : Quiet node.erase := by
  induction h with
  | intLit pos intval => exact .intLit _ intval
  | identifier pos symbol hn => exact .identifier _ symbol hn
  | binaryExpr pos operator left right _ _ hl hr => exact .binaryExpr _ operator _ _ hl hr

theorem Quiet.sameMeaning (h : Quiet node) : SameMeaning (meaning node) (meaning node.erase) := by
  induction h with
  | intLit pos intval => exact sameMeaning_rfl _
  | identifier pos symbol hn => exact sameMeaning_valueOf symbol
  | binaryExpr pos operator left right _ _ hl hr =>
    exact hl.bind fun l => hr.bind fun r => sameMeaning_operate operator l r

theorem sameMeaning_printed (h : ∀ arg ∈ nodes, Printable arg) :
    SameMeaning (meaningPrinted nodes) (meaningPrinted (eraseAll nodes)) := by
  induction nodes with
  | nil => exact sameMeaning_rfl _
  | cons arg args ih =>
    obtain ⟨harg, hargs⟩ := List.forall_mem_cons.mp h
    cases harg with
    | string pos strval => exact (sameMeaning_rfl takePlace).bind fun _ => (ih hargs).bind fun outs => sameMeaning_rfl _
    | quiet hquiet =>
      rw [eraseAll, meaningPrinted_quiet hquiet, meaningPrinted_quiet hquiet.erase]
      exact hquiet.sameMeaning.bind fun v => (ih hargs).bind fun outs => sameMeaning_rfl _

/-- What a tree means, alone and as the body of a loop. -/
theorem FirstOrder.sameMeaning_body (h : FirstOrder node) :
    SameMeaning (meaning node) (meaning node.erase) ∧ SameMeaning (bodyMeaning node) (bodyMeaning node.erase) := by
  induction h with
  | intLit pos intval => exact ⟨sameMeaning_rfl _, sameMeaning_rfl _⟩
  | identifier pos symbol hn =>
    have hsame : SameMeaning (valueOf pos symbol) (valueOf .unknown symbol) := sameMeaning_valueOf symbol
    exact ⟨hsame, hsame.bind fun _ => sameMeaning_rfl _⟩
  | binaryExpr pos operator left right _ _ hl hr =>
    have hsame : SameMeaning (meaning (.binaryExpr pos operator left right))
        (meaning (AstNode.binaryExpr pos operator left right).erase) :=
      hl.1.bind fun l => hr.1.bind fun r => sameMeaning_operate operator l r
    exact ⟨hsame, hsame.bind fun _ => sameMeaning_rfl _⟩
  | assignment pos namePos symbol value hn _ hv =>
    have hsame : SameMeaning (meaning (.assignment pos (.identifier namePos symbol) value))
        (meaning (AstNode.assignment pos (.identifier namePos symbol) value).erase) :=
      hv.1.bind fun v => (sameMeaning_assign symbol v).bind fun _ => sameMeaning_rfl _
    exact ⟨hsame, hsame.bind fun _ => sameMeaning_rfl _⟩
  | varDecl pos name isConst value hn _ hv =>
    have hvalue := sameMeaning_or .null fun node hnode => (hv node hnode).1
    have hsame : SameMeaning (meaning (.varDecl pos name isConst value))
        (meaning (.varDecl .unknown name isConst (value.map AstNode.erase))) :=
      hvalue.bind fun v => (sameMeaning_declare name v isConst).bind fun _ => sameMeaning_rfl _
    cases value with
    | none => exact ⟨hsame, hsame.bind fun _ => sameMeaning_rfl _⟩
    | some value => exact ⟨hsame, hsame.bind fun _ => sameMeaning_rfl _⟩
  | print pos newline args hargs =>
    have hsame : SameMeaning (meaning (.exprCall pos (if newline then "println" else "print") args))
        (meaning (AstNode.exprCall pos (if newline then "println" else "print") args).erase) :=
      (sameMeaning_printed hargs).bind fun outs => sameMeaning_printOut _ outs
    exact ⟨hsame, hsame.bind fun _ => sameMeaning_rfl _⟩
  | block pos children _ hchildren =>
    have hall := sameMeaning_all fun stmt hstmt => (hchildren stmt hstmt).1
    exact ⟨(sameMeaning_rfl _).bind fun _ => hall.bind fun _ => sameMeaning_rfl _, hall⟩
  | ifStmt pos condition ifBlock elseBlock _ _ _ hc hi he =>
    have helse := sameMeaning_or .null fun node hnode => (he node hnode).1
    have hsame : SameMeaning (meaning (.ifStmt pos condition ifBlock elseBlock))
        (meaning (.ifStmt .unknown condition.erase ifBlock.erase (elseBlock.map AstNode.erase))) := by
      refine hc.1.bind fun v => sameMeaning_ite ?_ ?_
      · exact hi.1.bind fun _ => sameMeaning_rfl _
      · exact helse.bind fun _ => sameMeaning_rfl _
    cases elseBlock with
    | none => exact ⟨hsame, hsame.bind fun _ => sameMeaning_rfl _⟩
    | some elseBlock => exact ⟨hsame, hsame.bind fun _ => sameMeaning_rfl _⟩
  | loopStmt pos iterCount varname body _ _ _ hc hb =>
    have hcount := sameMeaning_or (.boolean true) fun node hnode => (hc node hnode).1
    have hsame : SameMeaning (meaning (.loopStmt pos iterCount varname body))
        (meaning (.loopStmt .unknown (iterCount.map AstNode.erase) varname body.erase)) := by
      rw [meaning_loopStmt, meaning_loopStmt]
      exact hcount.bind fun count => sameMeaning_repeated hb.2 varname count
    cases iterCount with
    | none => exact ⟨hsame, hsame.bind fun _ => sameMeaning_rfl _⟩
    | some iterCount => exact ⟨hsame, hsame.bind fun _ => sameMeaning_rfl _⟩

/-! ## Trees without places -/

theorem Quiet.of_erase : ∀ node : AstNode, Quiet node.erase → Quiet node
  | .intLit pos intval, _ => .intLit pos intval
  | .identifier pos symbol, h => by
    rw [AstNode.erase] at h
    cases h with
    | identifier _ _ hn => exact .identifier pos symbol hn
  | .binaryExpr pos operator left right, h => by
    rw [AstNode.erase] at h
    cases h with
    | binaryExpr _ _ _ _ hl hr => exact .binaryExpr pos operator left right (of_erase left hl) (of_erase right hr)
  | .varDecl _ _ _ value, h => by cases value <;> cases h
  | .ifStmt _ _ _ elseBlock, h => by cases elseBlock <;> cases h
  | .loopStmt _ iterCount _ _, h => by cases iterCount <;> cases h
  | .root .., h | .string .., h | .assignment .., h | .exprCall .., h | .fnDecl .., h | .arrayLit .., h
  | .importStmt _, h | .block .., h => by cases h

theorem Printable.of_erase (h : Printable node.erase) : Printable node := by
  generalize hnode : node.erase = tree at h
  cases h with
  | quiet h =>
    rw [← hnode] at h
    exact .quiet (Quiet.of_erase node h)
  | string pos strval =>
    cases node with
    | string pos strval => exact .string pos strval
    | varDecl _ _ _ value => cases value <;> cases hnode
    | ifStmt _ _ _ elseBlock => cases elseBlock <;> cases hnode
    | loopStmt _ iterCount _ _ => cases iterCount <;> cases hnode
    | _ => cases hnode

theorem identifier_of_erase {symbol : String} (h : node.erase = .identifier pos symbol) :
    ∃ pos', node = .identifier pos' symbol := by
  cases node with
  | identifier pos' symbol' =>
    obtain ⟨-, rfl⟩ := AstNode.identifier.inj h
    exact ⟨pos', rfl⟩
  | varDecl _ _ _ value => cases value <;> cases h
  | ifStmt _ _ _ elseBlock => cases elseBlock <;> cases h
  | loopStmt _ iterCount _ _ => cases iterCount <;> cases h
  | _ => cases h

theorem printable_of_erase : ∀ nodes : List AstNode, (∀ arg ∈ eraseAll nodes, Printable arg) → ∀ arg ∈ nodes, Printable arg
  | [], _ => List.forall_mem_nil _
  | node :: nodes, h => by
    rw [eraseAll, List.forall_mem_cons] at h
    exact List.forall_mem_cons.mpr ⟨h.1.of_erase, printable_of_erase nodes h.2⟩

mutual

/-- Which trees have a meaning does not depend on their places. -/
theorem FirstOrder.of_erase : ∀ node : AstNode, FirstOrder node.erase → FirstOrder node
  | .intLit pos intval, _ => .intLit pos intval
  | .identifier pos symbol, h => by
    rw [AstNode.erase] at h
    cases h with
    | identifier _ _ hn => exact .identifier pos symbol hn
  | .binaryExpr pos operator left right, h => by
    rw [AstNode.erase] at h
    cases h with
    | binaryExpr _ _ _ _ hl hr => exact .binaryExpr pos operator left right (FirstOrder.of_erase left hl) (FirstOrder.of_erase right hr)
  | .assignment pos assignee value, h => by
    rw [AstNode.erase] at h
    generalize hassignee : assignee.erase = tree at h
    cases h with
    | assignment _ _ symbol _ hn hv =>
      obtain ⟨namePos, rfl⟩ := identifier_of_erase hassignee
      exact .assignment pos namePos symbol value hn (FirstOrder.of_erase value hv)
  | .varDecl pos name isConst none, h => by
    rw [AstNode.erase] at h
    cases h with
    | varDecl _ _ _ _ hn _ => exact .varDecl pos name isConst none hn fun node hnode => by cases hnode
  | .varDecl pos name isConst (some value), h => by
    rw [AstNode.erase] at h
    cases h with
    | varDecl _ _ _ _ hn hv =>
      refine .varDecl pos name isConst (some value) hn fun node hnode => ?_
      obtain rfl := Option.some.inj hnode
      exact FirstOrder.of_erase value (hv _ rfl)
  | .exprCall pos identifier args, h => by
    rw [AstNode.erase] at h
    generalize hargs : eraseAll args = trees at h
    cases h with
    | print _ newline _ h =>
      rw [← hargs] at h
      exact .print pos newline args (printable_of_erase args h)
  | .block pos children, h => by
    rw [AstNode.erase] at h
    cases h with
    | block _ _ h => exact .block pos children (firstOrder_of_erase children h)
  | .ifStmt pos condition ifBlock none, h => by
    rw [AstNode.erase] at h
    cases h with
    | ifStmt _ _ _ _ hc hi _ =>
      exact .ifStmt pos condition ifBlock none (FirstOrder.of_erase condition hc) (FirstOrder.of_erase ifBlock hi)
        fun node hnode => by cases hnode
  | .ifStmt pos condition ifBlock (some elseBlock), h => by
    rw [AstNode.erase] at h
    cases h with
    | ifStmt _ _ _ _ hc hi he =>
      refine .ifStmt pos condition ifBlock (some elseBlock) (FirstOrder.of_erase condition hc) (FirstOrder.of_erase ifBlock hi)
        fun node hnode => ?_
      obtain rfl := Option.some.inj hnode
      exact FirstOrder.of_erase elseBlock (he _ rfl)
  | .loopStmt pos none varname body, h => by
    rw [AstNode.erase] at h
    cases h with
    | loopStmt _ _ _ _ _ hv hb =>
      exact .loopStmt pos none varname body (fun node hnode => by cases hnode) hv (FirstOrder.of_erase body hb)
  | .loopStmt pos (some iterCount) varname body, h => by
    rw [AstNode.erase] at h
    cases h with
    | loopStmt _ _ _ _ hc hv hb =>
      refine .loopStmt pos (some iterCount) varname body (fun node hnode => ?_) hv (FirstOrder.of_erase body hb)
      obtain rfl := Option.some.inj hnode
      exact FirstOrder.of_erase iterCount (hc _ rfl)
  | .root .., h | .string .., h | .fnDecl .., h | .arrayLit .., h | .importStmt _, h => by cases h

theorem firstOrder_of_erase : ∀ nodes : List AstNode, (∀ stmt ∈ eraseAll nodes, FirstOrder stmt) →
    ∀ stmt ∈ nodes, FirstOrder stmt
  | [], _ => List.forall_mem_nil _
  | node :: nodes, h => by
    rw [eraseAll, List.forall_mem_cons] at h
    exact List.forall_mem_cons.mpr ⟨FirstOrder.of_erase node h.1, firstOrder_of_erase nodes h.2⟩

end

/-! ## Files -/

/-- What is the same as a program with other places is the same as the program, up to the places. -/
theorem agrees_of_sameMeaning {x y : Meaning Scalar} {memory : Memory} {r : EStateM.Result Err (World Machine Event) Val}
    {Q : Val → World Machine Event → Scalar → Memory → Prop}
    (h : Running.Agrees Unspecified Q Stops r (x memory)) (hsame : SameMeaning x y) :
    Running.Agrees Unspecified Q StopsSomewhere r (y memory) := by
  have hmemory := hsame memory memory rfl
  generalize x memory = p at h hmemory
  generalize y memory = q at hmemory ⊢
  cases hmemory with
  | unspecified h => exact h.elim
  | ok hq =>
    obtain ⟨rfl, rfl⟩ := hq
    cases h with
    | ok h => exact .ok h
  | @error halt memory halt' memory' hq =>
    obtain ⟨hhalt, rfl⟩ := hq
    cases h with
    | error h => exact .error ⟨halt, hhalt, h⟩
    | unspecified hu =>
      have hu : halt = .unspecified := hu
      subst hu
      refine .unspecified ?_
      cases halt' with
      | unspecified => rfl
      | _ => cases hhalt

theorem root_of_erase (h : node.erase = .root pos nodes) :
    ∃ pos' nodes', node = .root pos' nodes' ∧ eraseAll nodes' = nodes := by
  cases node with
  | root pos' nodes' =>
    obtain ⟨-, rfl⟩ := AstNode.root.inj h
    exact ⟨pos', nodes', rfl, rfl⟩
  | varDecl _ _ _ value => cases value <;> cases h
  | ifStmt _ _ _ elseBlock => cases elseBlock <;> cases h
  | loopStmt _ iterCount _ _ => cases iterCount <;> cases h
  | _ => cases h

/-- A tree is run as the tree without its places means. -/
theorem agrees_of_erase {stmts : List AstNode} (h : ∀ stmt ∈ stmts, FirstOrder stmt)
    (hnode : node.erase = .root .unknown stmts) : ∃ n, ∀ fuel ≥ n, ∀ stdin strerror,
      Running.Agrees Unspecified (fun v w value memory => v.Is value ∧ HasWritten w memory) StopsSomewhere
        (runProgram fuel node stdin strerror) (meaning (.root .unknown stmts) .start) := by
  obtain ⟨pos, nodes, rfl, rfl⟩ := root_of_erase hnode
  have hnodes := firstOrder_of_erase nodes h
  obtain ⟨n, hn⟩ := runsAsMeant_of_nodeMeans (means_root hnodes pos)
  have hsame : SameMeaning (meaning (.root pos nodes)) (meaning (.root .unknown (eraseAll nodes))) :=
    sameMeaning_last (fun stmt hstmt => (hnodes stmt hstmt).sameMeaning_body.1) .null
  exact ⟨n, fun fuel hfuel stdin strerror => agrees_of_sameMeaning (hn fuel hfuel stdin strerror) hsame⟩

/-- `var n = 3; loop (n) i { if (i % 2 == 1) println("odd", i); else println(i / 2); } println(10 - n * (n + 1));` -/
def numberStmts : List Stmt :=
  [.varInit false "n" (.intLit ⟨3, by decide⟩),
    .loopCount (.identifier "n") (some "i") (.block [.ifElse
      (.binary .opCmpEq (.binary .opModulus (.identifier "i") (.intLit ⟨2, by decide⟩)) (.intLit ⟨1, by decide⟩))
      (.exprStmt (.call "println" [.string "odd", .identifier "i"]))
      (.exprStmt (.call "println" [.binary .opDivide (.identifier "i") (.intLit ⟨2, by decide⟩)]))]),
    .exprStmt (.call "println" [.binary .opMinus (.intLit ⟨10, by decide⟩)
      (.binary .opTimes (.identifier "n") (.binary .opPlus (.identifier "n") (.intLit ⟨1, by decide⟩)))])]

theorem plainAll_numberStmts : plainAll numberStmts = true := rfl

theorem isWritable_numberStmts : (printStmts numberStmts).all isWritable = true := by decide +kernel

def printsNumbers : Program := ⟨numberStmts, plainAll_numberStmts, isWritable_numberStmts⟩

end Blaze
