import ValueFlow.FlowGraph.Lowering
/-!
Which bodies have no flow graph, and what the error says.

A jump is judged by where it stands: `Stmt.occurrences` is the walk over a body that also says of
every statement whether a loop of the body encloses it. Lowering goes through the body in the same
order, code after a jump included, so its error is about the first statement of this walk that is
misplaced (`error?_lowerBody`). Main statement: `build_fails_exactly`.
-/

namespace ValueFlow

/-- A statement of a walk over a body, and whether a loop of the body encloses it. -/
structure Occurrence where
  inLoop : Bool
  stmt : Stmt

mutual

/-- The walk over a statement that keeps track of the loops around. -/
def Stmt.occurrences (inLoop : Bool) : Stmt → List Occurrence
  | .ifElse id test body orelse =>
      ⟨inLoop, .ifElse id test body orelse⟩ ::
        (Stmt.occurrencesAll inLoop body ++ Stmt.occurrencesAll inLoop orelse)
  | .whileLoop id test body => ⟨inLoop, .whileLoop id test body⟩ :: Stmt.occurrencesAll true body
  | .forLoop id target iter body =>
      ⟨inLoop, .forLoop id target iter body⟩ :: Stmt.occurrencesAll true body
  | .assign id target value => [⟨inLoop, .assign id target value⟩]
  | .expr id value => [⟨inLoop, .expr id value⟩]
  | .ret id value => [⟨inLoop, .ret id value⟩]
  | .brk id => [⟨inLoop, .brk id⟩]
  | .cont id => [⟨inLoop, .cont id⟩]
  | .pass id => [⟨inLoop, .pass id⟩]
  | .functionDef id defId name params body => [⟨inLoop, .functionDef id defId name params body⟩]
  | .classDef id defId name bases body => [⟨inLoop, .classDef id defId name bases body⟩]

/-- The walks over several statements, one after the other. -/
def Stmt.occurrencesAll (inLoop : Bool) : List Stmt → List Occurrence
  | [] => []
  | s :: rest => s.occurrences inLoop ++ Stmt.occurrencesAll inLoop rest

end

namespace Stmt

mutual

theorem map_stmt_occurrences (inLoop : Bool) (s : Stmt) :
    (s.occurrences inLoop).map Occurrence.stmt = s.walk := by
  cases s with
  | ifElse id test body orelse =>
      rw [occurrences, walk, List.map_cons, List.map_append, map_stmt_occurrencesAll,
        map_stmt_occurrencesAll]
  | whileLoop id test body => rw [occurrences, walk, List.map_cons, map_stmt_occurrencesAll]
  | forLoop id target iter body => rw [occurrences, walk, List.map_cons, map_stmt_occurrencesAll]
  | assign | expr | ret | brk | cont | pass | functionDef | classDef =>
      rw [occurrences, walk]
      rfl

/-- The walk that keeps track of loops meets the statements of the walk, in the same order. -/
theorem map_stmt_occurrencesAll (inLoop : Bool) (body : List Stmt) :
    (occurrencesAll inLoop body).map Occurrence.stmt = walkAll body := by
  cases body with
  | nil => rw [occurrencesAll, walkAll, List.map_nil]
  | cons s rest =>
      rw [occurrencesAll, walkAll, List.map_append, map_stmt_occurrences, map_stmt_occurrencesAll]

end

end Stmt

namespace FlowGraph

/-- A statement that may not stand where it does, with the error about it. -/
inductive Offends (u : Owner) : Occurrence → MalformedBody → Prop
  | brk {id} : Offends u ⟨false, .brk id⟩ ⟨u.function, id, .breakOutsideLoop⟩
  | cont {id} : Offends u ⟨false, .cont id⟩ ⟨u.function, id, .continueOutsideLoop⟩
  | ret {inLoop id value} : u.mayReturn = false →
      Offends u ⟨inLoop, .ret id value⟩ ⟨u.function, id, .returnOutsideFunction⟩
  /-- The error about a class is reported at the first `return` of its body. -/
  | classDef {inLoop id defId name bases body before ret after} :
      Stmt.walkAll body = before ++ ret :: after → ret.isReturn = true →
      (∀ s ∈ before, s.isReturn = false) →
      Offends u ⟨inLoop, .classDef id defId name bases body⟩
        ⟨u.function, ret.id, .returnInClass name⟩

/-- The error about a statement, if it is misplaced. -/
def fault? (u : Owner) : Occurrence → Option MalformedBody
  | ⟨inLoop, .brk id⟩ => if inLoop then none else some (u.misplaced id .breakOutsideLoop)
  | ⟨inLoop, .cont id⟩ => if inLoop then none else some (u.misplaced id .continueOutsideLoop)
  | ⟨_, .ret id _⟩ => if u.mayReturn then none else some (u.misplaced id .returnOutsideFunction)
  | ⟨_, .classDef _ _ name _ body⟩ =>
      ((Stmt.walkAll body).find? Stmt.isReturn).map fun r => u.misplaced r.id (.returnInClass name)
  | _ => none

theorem offends_iff {u : Owner} {p : Occurrence} {m : MalformedBody} :
    Offends u p m ↔ fault? u p = some m := by
  constructor
  · rintro (_ | _ | hreturn | ⟨hbody, hret, hbefore⟩)
    · rfl
    · rfl
    · rw [fault?, hreturn]
      rfl
    · have hfirst : (Stmt.walkAll _).find? Stmt.isReturn = some _ :=
        List.find?_eq_some_iff_append.2 ⟨hret, _, _, hbody, fun s hs => by rw [hbefore s hs]; rfl⟩
      rw [fault?, hfirst]
      rfl
  · obtain ⟨inLoop, s⟩ := p
    intro h
    cases s with
    | brk id =>
        cases inLoop <;> cases h
        exact .brk
    | cont id =>
        cases inLoop <;> cases h
        exact .cont
    | ret id value =>
        rw [fault?] at h
        cases hreturn : u.mayReturn with
        | true => rw [hreturn] at h; cases h
        | false => rw [hreturn] at h; cases h; exact .ret hreturn
    | classDef id defId name bases body =>
        obtain ⟨ret, hfirst, rfl⟩ := Option.map_eq_some_iff.1 h
        obtain ⟨hret, before, after, hbody, hbefore⟩ := List.find?_eq_some_iff_append.1 hfirst
        exact .classDef hbody hret fun s hs => by simpa using hbefore s hs
    | assign | expr | ifElse | whileLoop | forLoop | pass | functionDef => cases h

section Errors

variable {ε α β : Type}

def error? : Except ε α → Option ε
  | .error e => some e
  | .ok _ => none

theorem error?_eq_some {x : Except ε α} {e : ε} : error? x = some e ↔ x = .error e := by
  cases x with
  | error e' => rw [error?, Option.some.injEq, Except.error.injEq]
  | ok a => exact ⟨fun h => (by cases h), fun h => (by cases h)⟩

theorem error?_eq_none {x : Except ε α} : error? x = none ↔ ∃ a, x = .ok a := by
  cases x with
  | error e => exact ⟨fun h => (by cases h), fun ⟨a, h⟩ => (by cases h)⟩
  | ok a => exact ⟨fun _ => ⟨a, rfl⟩, fun _ => rfl⟩

/-- A second step whose error does not depend on what the first returns. -/
theorem error?_bind {x : Except ε α} {f : α → Except ε β} {o o' : Option ε}
    (hx : error? x = o) (hf : ∀ a, error? (f a) = o') : error? (x >>= f) = o.or o' := by
  subst hx
  cases x with
  | error e => rfl
  | ok a => exact hf a

/-- A second step that does not fail. -/
theorem error?_bind_ok {x : Except ε α} {f : α → Except ε β} {o : Option ε}
    (hx : error? x = o) (hf : ∀ a, error? (f a) = none) : error? (x >>= f) = o :=
  (error?_bind hx hf).trans Option.or_none

end Errors

mutual

theorem error?_lowerStmt (u : Owner) (loop : Option LoopFrame) (s : Stmt) (current : Nat)
    (d : Draft) :
    error? (lowerStmt u loop s current d) = (s.occurrences loop.isSome).findSome? (fault? u) := by
  cases s with
  | assign | expr | pass | functionDef =>
      rw [lowerStmt, Stmt.occurrences]
      rfl
  | classDef id defId name bases body =>
      rw [lowerStmt, Stmt.occurrences, List.findSome?_singleton, fault?]
      cases (Stmt.walkAll body).find? Stmt.isReturn with
      | none => rfl
      | some ret => rfl
  | ret id value =>
      rw [lowerStmt, Stmt.occurrences, List.findSome?_singleton, fault?]
      cases u.mayReturn <;> rfl
  | brk id => cases loop <;> rw [lowerStmt, Stmt.occurrences] <;> rfl
  | cont id => cases loop <;> rw [lowerStmt, Stmt.occurrences] <;> rfl
  | ifElse id test body orelse =>
      rw [lowerStmt, Stmt.occurrences, List.findSome?_cons_of_isNone rfl, List.findSome?_append]
      exact error?_bind (error?_lowerBody u loop body _ _) fun r =>
        error?_bind_ok (error?_lowerBody u loop orelse _ _) fun _ => rfl
  | whileLoop id test body =>
      rw [lowerStmt, Stmt.occurrences, List.findSome?_cons_of_isNone rfl]
      exact error?_bind_ok (error?_lowerBody u (some _) body _ _) fun _ => rfl
  | forLoop id target iter body =>
      rw [lowerStmt, Stmt.occurrences, List.findSome?_cons_of_isNone rfl]
      exact error?_bind_ok (error?_lowerBody u (some _) body _ _) fun _ => rfl

/-- The error of lowering is that of the first misplaced statement, wherever the body is lowered
to. -/
theorem error?_lowerBody (u : Owner) (loop : Option LoopFrame) (body : List Stmt)
    (current : Option Nat) (d : Draft) :
    error? (lowerBody u loop body current d) =
      (Stmt.occurrencesAll loop.isSome body).findSome? (fault? u) := by
  cases body with
  | nil =>
      rw [lowerBody, Stmt.occurrencesAll]
      rfl
  | cons s rest =>
      rw [Stmt.occurrencesAll, List.findSome?_append]
      cases current with
      | none =>
          rw [lowerBody]
          exact error?_bind (error?_lowerStmt u loop s _ _) fun _ =>
            error?_lowerBody u loop rest _ _
      | some block =>
          rw [lowerBody]
          exact error?_bind (error?_lowerStmt u loop s _ _) fun _ =>
            error?_lowerBody u loop rest _ _

end

/-- The error of building a graph is that of the first misplaced statement. -/
theorem error?_build (u : Owner) (body : List Stmt) :
    error? (build u body) = (Stmt.occurrencesAll false body).findSome? (fault? u) :=
  error?_bind_ok (error?_lowerBody u none body _ _) fun _ => rfl

/-- A body has no flow graph exactly if some statement of it is misplaced: a jump without a loop of
this body around it, a `return` where none is allowed, or a class whose body returns. The walk meets
every statement in source order, code after a jump included, and enters no definition. The error
is about the first misplaced statement. -/
theorem build_fails_exactly (u : Owner) (body : List Stmt) :
    (Stmt.occurrencesAll false body).map Occurrence.stmt = Stmt.walkAll body ∧
      ((∃ g, build u body = .ok g) ↔ ∀ p ∈ Stmt.occurrencesAll false body, ∀ m, ¬ Offends u p m) ∧
      ∀ m, build u body = .error m ↔
        ∃ before p after, Stmt.occurrencesAll false body = before ++ p :: after ∧ Offends u p m ∧
          ∀ q ∈ before, ∀ m', ¬ Offends u q m' := by
  have hsound (p : Occurrence) : fault? u p = none ↔ ∀ m, ¬ Offends u p m := by
    simp only [offends_iff, Option.eq_none_iff_forall_ne_some, ne_eq]
  refine ⟨Stmt.map_stmt_occurrencesAll false body, ?_, fun m => ?_⟩
  · rw [← error?_eq_none, error?_build, List.findSome?_eq_none_iff]
    simp only [hsound]
  · rw [← error?_eq_some, error?_build, List.findSome?_eq_some_iff]
    simp only [hsound, offends_iff]

/-- Code that is never run is judged as well. -/
example : build ⟨"f", true⟩ [.ret 0 none, .whileLoop 1 (.name 2 "n") [.brk 3], .cont 4] =
    .error ⟨"f", 4, .continueOutsideLoop⟩ := rfl

end FlowGraph

end ValueFlow
