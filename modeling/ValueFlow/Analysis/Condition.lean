import ValueFlow.Program.Tree
import ValueFlow.State.ProgramState
/-!
What is known once a condition has turned out one way.

Variables are narrowed by comparisons with them, by their own truth, and through negation,
conjunction that holds and disjunction that fails. A condition that is known to turn out the other
way leaves nothing reachable.
-/

namespace ValueFlow

namespace Value

/-- The values of a description that are true: neither `None` nor zero. -/
def truthy (v : Value) : Value :=
  let v := v.meet .notNull
  if v.isNumeric then v.exclude 0 else v

/-- The values of a description that are false; of values other than numbers nothing is known. -/
def falsy (v : Value) : Value := if v.isNumeric then v.meet (.constant 0) else v

end Value

namespace ProgramState

def refine (s : ProgramState) (x : String) (v : Value) (domains : DomainSet) : ProgramState :=
  { s with env := s.env.refine x v domains }

variable (eval : Expr → ProgramState → Value) (domains : DomainSet)

/-- Narrows the variable that stands on one side of a comparison with another value. -/
def compareWith (op : CompOp) (side other : Expr) (s : ProgramState) : ProgramState :=
  match side.name? with
  | some x => s.refine x ((s.env.get x).restrict op (eval other s)) domains
  | none => s

/-- Narrows the variables of a condition with a known outcome. -/
def narrow : Expr → Bool → ProgramState → ProgramState
  | .unaryOp _ .not operand, outcome, s => narrow operand (!outcome) s
  | .boolOp _ op left right, outcome, s =>
      if decide (op = .and) = outcome then narrow right outcome (narrow left outcome s) else s
  | .compare _ op left right, outcome, s =>
      let op := if outcome then op else op.negate
      compareWith eval domains op.flip right left (compareWith eval domains op left right s)
  | .name _ x, outcome, s =>
      let v := s.env.get x
      s.refine x (if outcome then v.truthy else v.falsy) domains
  | _, _, s => s

/-- The state once a condition has turned out one way. -/
def assume (s : ProgramState) (cond : Expr) (outcome : Bool) : ProgramState :=
  if !s.isReachable then s
  else if (eval cond s).truthiness = some (!outcome) then bottom
  else
    let narrowed := narrow eval domains cond outcome s
    if narrowed.env.reachable then narrowed else bottom

end ProgramState

end ValueFlow
