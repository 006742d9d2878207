import ValueFlow.Proofs.FlowGraph.Drafts
/-!
Execution of structured statements, for any meaning of their parts.

A meaning says what items do to a state, how conditions turn out, and how loops go over their
elements. Jumps are endings that the enclosing constructs catch or pass on. The number given to an
execution bounds the rounds of each loop.
-/

namespace ValueFlow

/-- How the execution of a body ends. -/
inductive Ending where
  /-- At the end of the body. -/
  | done
  | broke
  | continued
  | returned
  /-- At a condition or a loop head whose question has no answer. -/
  | starved
  /-- At a part without a result, or because a loop takes more rounds than allowed. -/
  | failed
deriving DecidableEq, Repr

/-- The end of an execution and the state in which it was reached. -/
structure Ran (σ : Type) where
  ending : Ending
  state : σ
deriving DecidableEq, Repr

namespace Ran

variable {σ : Type}

/-- Goes on after an execution that reached its end. -/
def andThen (r : Ran σ) (k : σ → Ran σ) : Ran σ :=
  match r.ending with
  | .done => k r.state
  | _ => r

/-- Goes on with a result, if there is one. -/
def orElse {α : Type} (result : Option α) (ending : Ending) (s : σ) (k : α → Ran σ) : Ran σ :=
  match result with
  | some a => k a
  | none => ⟨ending, s⟩

@[simp] theorem andThen_done (s : σ) (k : σ → Ran σ) : andThen ⟨.done, s⟩ k = k s := rfl

@[simp] theorem orElse_some {α : Type} (a : α) (ending : Ending) (s : σ) (k : α → Ran σ) :
    orElse (some a) ending s k = k a := rfl

@[simp] theorem orElse_none {α : Type} (ending : Ending) (s : σ) (k : α → Ran σ) :
    orElse none ending s k = ⟨ending, s⟩ := rfl

end Ran

/-- What the parts of a body do. Loops keep track of the elements that they still go over. -/
structure Meaning (σ ι : Type) where
  item : BlockItem → σ → Option σ
  /-- The outcome of a condition that was just evaluated. -/
  test : Expr → σ → Option (Bool × σ)
  /-- The elements that a loop goes over. -/
  opens : LoopHead → σ → Option ι
  /-- Whether a loop takes another round. -/
  asks : LoopHead → ι → σ → Option (Bool × σ)
  /-- The start of a round, and the elements that are left for later rounds. -/
  starts : LoopHead → ι → σ → Option (ι × σ)

namespace Meaning

variable {σ ι : Type} (m : Meaning σ ι)

open Ran (orElse)

def runItems (items : List BlockItem) (s : σ) : Option σ :=
  items.foldlM (fun s i => m.item i s) s

/-- Goes on after a round of a loop: back to the head, out of the loop, or out of its body. -/
def afterRound (r : Ran σ) (again : σ → Ran σ) : Ran σ :=
  match r.ending with
  | .done | .continued => again r.state
  | .broke => ⟨.done, r.state⟩
  | _ => r

def rounds (head : LoopHead) (round : σ → Ran σ) : Nat → ι → σ → Ran σ
  | 0, _, s => ⟨.failed, s⟩
  | n + 1, it, s =>
      orElse (m.runItems head.header s) .failed s fun s =>
        orElse (m.asks head it s) .starved s fun
          | (false, s) => ⟨.done, s⟩
          | (true, s) =>
              orElse (m.starts head it s) .failed s fun (it, s) =>
                afterRound (round s) (rounds head round n it)

/-- A loop with what comes before its first round. -/
def runLoop (n : Nat) (head : LoopHead) (round : σ → Ran σ) (s : σ) : Ran σ :=
  orElse (m.runItems head.before s) .failed s fun s =>
    orElse (m.opens head s) .failed s fun it => m.rounds head round n it s

mutual

def runStmt (n : Nat) : Stmt → σ → Ran σ
  | .ifElse _ test body orelse, s =>
      orElse (m.item (.condition test) s) .failed s fun s =>
        orElse (m.test test s) .starved s fun
          | (true, s) => runBody n body s
          | (false, s) => runBody n orelse s
  | .whileLoop _ test body, s => m.runLoop n (.whileTrue test) (runBody n body) s
  | .forLoop id target iter body, s => m.runLoop n (.forEach id target iter) (runBody n body) s
  | .ret id value, s => orElse (m.item (.statement (.ret id value)) s) .failed s (⟨.returned, ·⟩)
  | .brk _, s => ⟨.broke, s⟩
  | .cont _, s => ⟨.continued, s⟩
  | .assign id target value, s =>
      orElse (m.item (.statement (.assign id target value)) s) .failed s (⟨.done, ·⟩)
  | .expr id value, s => orElse (m.item (.statement (.expr id value)) s) .failed s (⟨.done, ·⟩)
  | .pass id, s => orElse (m.item (.statement (.pass id)) s) .failed s (⟨.done, ·⟩)
  | .functionDef id defId name params body, s =>
      orElse (m.item (.statement (.functionDef id defId name params body)) s) .failed s
        (⟨.done, ·⟩)
  | .classDef id defId name bases body, s =>
      orElse (m.item (.statement (.classDef id defId name bases body)) s) .failed s (⟨.done, ·⟩)

def runBody (n : Nat) : List Stmt → σ → Ran σ
  | [], s => ⟨.done, s⟩
  | stmt :: rest, s => (runStmt n stmt s).andThen (runBody n rest)

end

variable {m}

theorem runStmt_plain {n : Nat} {stmt : Stmt} (h : stmt.isPlain = true) (s : σ) :
    m.runStmt n stmt s = orElse (m.item (.statement stmt) s) .failed s (⟨.done, ·⟩) := by
  cases stmt with
  | assign | expr | pass | functionDef | classDef => rw [runStmt]
  | ifElse | whileLoop | forLoop | ret | brk | cont => cases h

theorem runStmt_loop {n : Nat} {stmt : Stmt} {head : LoopHead} {body : List Stmt}
    (h : stmt.loop? = some (head, body)) (s : σ) :
    m.runStmt n stmt s = m.runLoop n head (m.runBody n body) s := by
  cases stmt with
  | whileLoop | forLoop =>
      cases h
      rw [runStmt]
  | assign | expr | pass | functionDef | classDef | ifElse | ret | brk | cont => cases h

end Meaning

end ValueFlow
