import ValueFlow.Proofs.FlowGraph.Simulation
/-!
Executions that keep a record of the items they run.

Keeping the record changes nothing else (`map_runBody_recorded`). What is on record stands at places
of the flow graph where closed assertions hold of the state before the item
(`located_of_runBody`).
-/

namespace ValueFlow

namespace Ran

variable {σ τ α β : Type} {f : σ → τ}

/-- The same end with another view of the state. -/
def map (f : σ → τ) (r : Ran σ) : Ran τ := ⟨r.ending, f r.state⟩

theorem map_andThen {r : Ran σ} {k : σ → Ran σ} {k' : τ → Ran τ} (h : ∀ s, (k s).map f = k' (f s)) :
    (r.andThen k).map f = (r.map f).andThen k' := by
  obtain ⟨ending, s⟩ := r
  cases ending with
  | done => exact h s
  | broke | continued | returned | starved | failed => rfl

theorem map_orElse {g : α → β} {result : Option α} {result' : Option β} {ending : Ending} {s : σ}
    {k : α → Ran σ} {k' : β → Ran τ} (hresult : result.map g = result')
    (hk : ∀ a, (k a).map f = k' (g a)) :
    (orElse result ending s k).map f = orElse result' ending (f s) k' := by
  subst hresult
  cases result with
  | none => rfl
  | some a => exact hk a

end Ran

namespace Meaning

variable {σ ι : Type} {m : Meaning σ ι}

/-- The meaning that also keeps the items it runs, each with the state before it, latest first. -/
def recorded (m : Meaning σ ι) : Meaning (σ × List (BlockItem × σ)) ι where
  item i s := (m.item i s.1).map fun t => (t, (i, s.1) :: s.2)
  test e s := (m.test e s.1).map fun r => (r.1, r.2, s.2)
  opens head s := m.opens head s.1
  asks head it s := (m.asks head it s.1).map fun r => (r.1, r.2, s.2)
  starts head it s := (m.starts head it s.1).map fun r => (r.1, r.2, s.2)

theorem map_item_recorded (i : BlockItem) (s : σ × List (BlockItem × σ)) :
    (m.recorded.item i s).map Prod.fst = m.item i s.1 := by
  show ((m.item i s.1).map _).map Prod.fst = _
  rw [Option.map_map]
  exact Option.map_id'

theorem map_runItems_recorded (its : List BlockItem) (s : σ × List (BlockItem × σ)) :
    (m.recorded.runItems its s).map Prod.fst = m.runItems its s.1 := by
  induction its generalizing s with
  | nil => rfl
  | cons i its ih =>
      unfold runItems at ih ⊢
      rw [List.foldlM_cons, List.foldlM_cons, ← map_item_recorded i s]
      cases m.recorded.item i s with
      | none => rfl
      | some t => exact ih t

theorem map_answer_recorded {α : Type} (r : Option (α × σ)) (log : List (BlockItem × σ)) :
    (r.map fun r => (r.1, r.2, log)).map (fun r => (r.1, r.2.1)) = r := by
  rw [Option.map_map]
  exact Option.map_id'

theorem map_afterRound {r : Ran (σ × List (BlockItem × σ))}
    {again : σ × List (BlockItem × σ) → Ran (σ × List (BlockItem × σ))} {again' : σ → Ran σ}
    (h : ∀ s, (again s).map Prod.fst = again' s.1) :
    (afterRound r again).map Prod.fst = afterRound (r.map Prod.fst) again' := by
  obtain ⟨ending, s⟩ := r
  cases ending with
  | done | continued => exact h s
  | broke | returned | starved | failed => rfl

theorem map_rounds_recorded {head : LoopHead}
    {round : σ × List (BlockItem × σ) → Ran (σ × List (BlockItem × σ))} {round' : σ → Ran σ}
    (h : ∀ s, (round s).map Prod.fst = round' s.1) (n : Nat) (it : ι)
    (s : σ × List (BlockItem × σ)) :
    (m.recorded.rounds head round n it s).map Prod.fst = m.rounds head round' n it s.1 := by
  induction n generalizing it s with
  | zero => rfl
  | succ n ih =>
      rw [rounds, rounds]
      refine Ran.map_orElse (map_runItems_recorded _ s) fun t => ?_
      refine Ran.map_orElse (map_answer_recorded _ t.2) fun answer => ?_
      obtain ⟨o, t⟩ := answer
      cases o with
      | false => rfl
      | true =>
          refine Ran.map_orElse (map_answer_recorded _ t.2) fun start => ?_
          show _ = afterRound (round' start.2.1) (m.rounds head round' n start.1)
          rw [← h]
          exact map_afterRound fun u => ih start.1 u

mutual

theorem map_runStmt_recorded (n : Nat) (stmt : Stmt) (s : σ × List (BlockItem × σ)) :
    (m.recorded.runStmt n stmt s).map Prod.fst = m.runStmt n stmt s.1 := by
  cases stmt with
  | assign | expr | pass | functionDef | classDef | ret =>
      rw [runStmt, runStmt]
      exact Ran.map_orElse (map_item_recorded _ s) fun _ => rfl
  | brk | cont => rw [runStmt, runStmt]; rfl
  | ifElse id test body orelse =>
      rw [runStmt, runStmt]
      refine Ran.map_orElse (map_item_recorded _ s) fun t => ?_
      refine Ran.map_orElse (map_answer_recorded _ t.2) fun answer => ?_
      obtain ⟨o, t⟩ := answer
      cases o with
      | true => exact map_runBody_recorded n body t
      | false => exact map_runBody_recorded n orelse t
  | whileLoop id test body =>
      rw [runStmt, runStmt]
      refine Ran.map_orElse (map_runItems_recorded _ s) fun t => ?_
      refine Ran.map_orElse (Option.map_id') fun it => ?_
      exact map_rounds_recorded (map_runBody_recorded n body) n it t
  | forLoop id target iter body =>
      rw [runStmt, runStmt]
      refine Ran.map_orElse (map_runItems_recorded _ s) fun t => ?_
      refine Ran.map_orElse (Option.map_id') fun it => ?_
      exact map_rounds_recorded (map_runBody_recorded n body) n it t

/-- Keeping a record changes nothing else. -/
theorem map_runBody_recorded (n : Nat) (body : List Stmt) (s : σ × List (BlockItem × σ)) :
    (m.recorded.runBody n body s).map Prod.fst = m.runBody n body s.1 := by
  cases body with
  | nil => rw [runBody, runBody]; rfl
  | cons stmt rest =>
      rw [runBody, runBody, ← map_runStmt_recorded n stmt s]
      exact Ran.map_andThen (map_runBody_recorded n rest)

end

end Meaning

namespace FlowGraph

variable {σ ι : Type} {m : Meaning σ ι} {c : Chart} {a : Assertions σ ι}

/-- Whether all items of a record stand where the assertions hold of the states before them. -/
def Located (c : Chart) (a : Assertions σ ι) (record : List (BlockItem × σ)) : Prop :=
  ∀ v ∈ record, ∃ b k, (c.items b)[k]? = some v.1 ∧ a.here b k v.2

theorem Located.cons {record : List (BlockItem × σ)} (h : Located c a record) {b k : Nat}
    {i : BlockItem} {s : σ} (hi : (c.items b)[k]? = some i) (hs : a.here b k s) :
    Located c a ((i, s) :: record) := by
  intro v hv
  rcases List.mem_cons.1 hv with rfl | hv
  · exact ⟨b, k, hi, hs⟩
  · exact h v hv

/-- Assertions about states with a record of what was run. -/
def Assertions.recorded (a : Assertions σ ι) (c : Chart) :
    Assertions (σ × List (BlockItem × σ)) ι where
  here b k s := a.here b k s.1 ∧ Located c a s.2
  live := a.live
  final ending s := a.final ending s.1 ∧ Located c a s.2

theorem Closed.recorded (h : Closed m c a) : Closed m.recorded c (a.recorded c) where
  item := by
    rintro b k i s s' ⟨hs, hrecord⟩ hi hplain hrun
    obtain ⟨t, ht, rfl⟩ := Option.map_eq_some_iff.1 hrun
    exact ⟨h.item hs hi hplain ht, hrecord.cons hi hs⟩
  test := by
    rintro b cond o s s' e ⟨hs, hrecord⟩ hlast hrun he hb hkind
    obtain ⟨t, ht, heq⟩ := Option.map_eq_some_iff.1 hrun
    cases heq
    exact ⟨h.test hs hlast ht he hb hkind, hrecord⟩
  testStarves := by
    rintro b cond s e ⟨hs, hrecord⟩ hlast hrun he hb hkind
    exact ⟨h.testStarves hs hlast (Option.map_eq_none_iff.1 hrun) he hb hkind, hrecord⟩
  opens := by
    rintro b head s it ⟨hs, -⟩ hitems hopens
    exact h.opens hs hitems hopens
  asks := by
    rintro b head it o s s' e hlive ⟨hs, hrecord⟩ hitems hrun he hb hkind
    obtain ⟨t, ht, heq⟩ := Option.map_eq_some_iff.1 hrun
    cases heq
    exact ⟨h.asks hlive hs hitems ht he hb hkind, hrecord⟩
  asksStarves := by
    rintro b head it s e hlive ⟨hs, hrecord⟩ hitems hrun he hb hkind
    exact ⟨h.asksStarves hlive hs hitems (Option.map_eq_none_iff.1 hrun) he hb hkind, hrecord⟩
  starts := by
    rintro b head it it' s s' e hlive hitems he hb hkind hfirst ⟨hs, hrecord⟩ hrun
    obtain ⟨t, ht, heq⟩ := Option.map_eq_some_iff.1 hrun
    cases heq
    obtain ⟨hlive', hs'⟩ := h.starts hlive hitems he hb hkind hfirst hs ht
    exact ⟨hlive', hs', hrecord⟩
  jump := by
    rintro b s e ⟨hs, hrecord⟩ he hb hkind hne
    exact ⟨h.jump hs he hb hkind hne, hrecord⟩
  falls := by
    rintro b s e ⟨hs, hrecord⟩ he hb hkind htarget
    exact ⟨h.falls hs he hb hkind htarget, hrecord⟩
  returns := by
    rintro b k i s s' e ⟨hs, hrecord⟩ hi hreturn hlast hrun he hb hkind htarget
    obtain ⟨t, ht, rfl⟩ := Option.map_eq_some_iff.1 hrun
    exact ⟨h.returns hs hi hreturn hlast ht he hb hkind htarget, hrecord.cons hi hs⟩
  stops := by
    rintro b k s ⟨hs, hrecord⟩
    exact ⟨h.stops hs, hrecord⟩

/-- Every item that an execution runs stands where closed assertions hold, if they hold at the
entry. -/
theorem located_of_runBody {u : Owner} {body : List Stmt} {g : FlowGraph}
    (hbuild : build u body = .ok g) (hg : Closed m g.chart a) {s : σ} (hs : a.here g.entry 0 s)
    (n : Nat) : Located g.chart a (m.recorded.runBody n body (s, [])).state.2 :=
  (final_of_runBody hbuild hg.recorded ⟨hs, fun _ hv => absurd hv List.not_mem_nil⟩ n rfl).2

end FlowGraph

end ValueFlow
