import ValueFlow.Program.Tree
/-!
Walks over expressions and statements in source preorder.

A walk is given twice: by recursion on the tree, and as a loop over a stack of what is still to be
met, which needs no more room for deeper trees.
-/

namespace ValueFlow

mutual

/-- An expression followed by its parts, each with its own parts, in source order. -/
def Expr.walk : Expr → List Expr
  | .literal id v => [.literal id v]
  | .name id n => [.name id n]
  | .unsupported id w => [.unsupported id w]
  | .binOp id op l r => .binOp id op l r :: (l.walk ++ r.walk)
  | .boolOp id op l r => .boolOp id op l r :: (l.walk ++ r.walk)
  | .compare id op l r => .compare id op l r :: (l.walk ++ r.walk)
  | .unaryOp id op e => .unaryOp id op e :: e.walk
  | .attr id e a => .attr id e a :: e.walk
  | .subscript id v i => .subscript id v i :: (v.walk ++ i.walk)
  | .call id f args => .call id f args :: (f.walk ++ Expr.walkAll args)
  | .collection id k elements => .collection id k elements :: Expr.walkAll elements

/-- The walks of several expressions, one after the other. -/
def Expr.walkAll : List Expr → List Expr
  | [] => []
  | e :: rest => e.walk ++ Expr.walkAll rest

end

mutual

/-- How many levels of parts an expression has. -/
def Expr.height : Expr → Nat
  | .literal _ _ | .name _ _ | .unsupported _ _ => 1
  | .binOp _ _ l r | .boolOp _ _ l r | .compare _ _ l r => max l.height r.height + 1
  | .unaryOp _ _ e | .attr _ e _ => e.height + 1
  | .subscript _ v i => max v.height i.height + 1
  | .call _ f args => max f.height (Expr.heightAll args) + 1
  | .collection _ _ elements => Expr.heightAll elements + 1

def Expr.heightAll : List Expr → Nat
  | [] => 0
  | e :: rest => max e.height (Expr.heightAll rest)

end

mutual

/-- A statement followed by those of the bodies it controls; definitions are not entered. -/
def Stmt.walk : Stmt → List Stmt
  | .ifElse id test body orelse =>
      .ifElse id test body orelse :: (Stmt.walkAll body ++ Stmt.walkAll orelse)
  | .whileLoop id test body => .whileLoop id test body :: Stmt.walkAll body
  | .forLoop id target iter body => .forLoop id target iter body :: Stmt.walkAll body
  | .assign id target value => [.assign id target value]
  | .expr id value => [.expr id value]
  | .ret id value => [.ret id value]
  | .brk id => [.brk id]
  | .cont id => [.cont id]
  | .pass id => [.pass id]
  | .functionDef id defId name params body => [.functionDef id defId name params body]
  | .classDef id defId name bases body => [.classDef id defId name bases body]

/-- The walks of several statements, one after the other. -/
def Stmt.walkAll : List Stmt → List Stmt
  | [] => []
  | s :: rest => s.walk ++ Stmt.walkAll rest

end

/-- Every expression of a body with the statement that evaluates it. -/
def walkExprs (body : List Stmt) : List (Stmt × Expr) :=
  (Stmt.walkAll body).flatMap fun s => (Expr.walkAll s.ownExprs).map (s, ·)

namespace Expr

theorem walk_eq (e : Expr) : e.walk = e :: walkAll e.children := by
  cases e <;> simp [walk, walkAll, children]

theorem walkAll_eq (l : List Expr) : walkAll l = l.flatMap walk := by
  induction l with
  | nil => rfl
  | cons e rest ih => rw [walkAll, ih, List.flatMap_cons]

theorem walkAll_append (l m : List Expr) : walkAll (l ++ m) = walkAll l ++ walkAll m := by
  rw [walkAll_eq, walkAll_eq, walkAll_eq, List.flatMap_append]

/-- Puts the parts of an expression on a stack, the last part first. -/
def pushParts : Expr → List Expr → List Expr
  | .literal _ _, stack | .name _ _, stack | .unsupported _ _, stack => stack
  | .binOp _ _ l r, stack | .boolOp _ _ l r, stack | .compare _ _ l r, stack => l :: r :: stack
  | .unaryOp _ _ e, stack | .attr _ e _, stack => e :: stack
  | .subscript _ v i, stack => v :: i :: stack
  | .call _ f args, stack => f :: args.foldr List.cons stack
  | .collection _ _ elements, stack => elements.foldr List.cons stack

theorem pushParts_eq (e : Expr) (stack : List Expr) : e.pushParts stack = e.children ++ stack := by
  cases e <;> simp [pushParts, children]

/-- Meets the expressions on a stack from the top, each followed by its parts. -/
def visit : List Expr → List Expr
  | [] => []
  | e :: stack => e :: visit (e.pushParts stack)
termination_by stack => (walkAll stack).length
decreasing_by
  rw [pushParts_eq, walkAll_append, walkAll, walk_eq]
  exact Nat.lt_succ_self _

end Expr

namespace Stmt

theorem walkAll_eq (l : List Stmt) : walkAll l = l.flatMap walk := by
  induction l with
  | nil => rfl
  | cons s rest ih => rw [walkAll, ih, List.flatMap_cons]

theorem walkAll_append (l m : List Stmt) : walkAll (l ++ m) = walkAll l ++ walkAll m := by
  rw [walkAll_eq, walkAll_eq, walkAll_eq, List.flatMap_append]

theorem walk_eq (s : Stmt) : s.walk = s :: walkAll s.nestedBodies.flatten := by
  cases s <;> simp [walk, walkAll, walkAll_append, nestedBodies]

/-- Puts the statements that a statement controls on a stack, the last body first. -/
def pushBodies (s : Stmt) (stack : List Stmt) : List Stmt :=
  s.nestedBodies.foldr (fun body stack => body.foldr List.cons stack) stack

theorem pushBodies_eq (s : Stmt) (stack : List Stmt) :
    s.pushBodies stack = s.nestedBodies.flatten ++ stack := by
  cases s <;> simp [pushBodies, nestedBodies]

/-- Meets the statements on a stack from the top, each followed by those it controls. -/
def visit : List Stmt → List Stmt
  | [] => []
  | s :: stack => s :: visit (s.pushBodies stack)
termination_by stack => (walkAll stack).length
decreasing_by
  rw [pushBodies_eq, walkAll_append, walkAll, walk_eq]
  exact Nat.lt_succ_self _

end Stmt

/-- Every expression of a body with the statement that evaluates it, met in loops. -/
def visitExprs (body : List Stmt) : List (Stmt × Expr) :=
  (Stmt.visit body).flatMap fun s => (s.ownExprs.flatMap fun e => Expr.visit [e]).map (s, ·)

end ValueFlow
