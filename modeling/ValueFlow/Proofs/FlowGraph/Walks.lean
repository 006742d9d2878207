import ValueFlow.Proofs.FlowGraph.Simulation
/-!
Lowering keeps the meaning of a body.

Given in advance how every question of a run turns out, a body can be executed as it stands, and
its graph can be walked block by block. Main statement: both do the same items in the same order,
use up the same answers and end in the same way (`walk_iff_recorded`).
-/

namespace ValueFlow

/-- The items that were done, and the answers that are left. -/
structure Trail where
  items : List BlockItem
  answers : List Bool

namespace Trail

def record (t : Trail) (i : BlockItem) : Trail := { t with items := t.items ++ [i] }

def answer (t : Trail) : Option (Bool × Trail) :=
  match t.answers with
  | [] => none
  | o :: rest => some (o, { t with answers := rest })

@[simp] theorem answers_record (t : Trail) (i : BlockItem) : (t.record i).answers = t.answers := rfl

@[simp] theorem answers_foldl_record (its : List BlockItem) (t : Trail) :
    (its.foldl record t).answers = t.answers := by
  induction its generalizing t with
  | nil => rfl
  | cons i its ih => exact ih (t.record i)

theorem length_of_answer {t t' : Trail} {o : Bool} (h : t.answer = some (o, t')) :
    t'.answers.length + 1 = t.answers.length := by
  rw [answer] at h
  split at h
  · cases h
  · next rest hrest =>
      cases h
      rw [hrest]
      rfl

end Trail

/-- Items are recorded; conditions turn out, and loops go on, as the answers say. -/
def recording : Meaning Trail Unit where
  item i t := some (t.record i)
  test _ t := t.answer
  opens _ _ := some ()
  asks _ _ t := t.answer
  starts head _ t := some ((), head.first.foldl Trail.record t)

/-- Executes a body. Every round of a loop takes an answer, so no loop has more rounds than there
are answers. -/
def recorded (body : List Stmt) (answers : List Bool) : Ran Trail :=
  recording.runBody (answers.length + 1) body ⟨[], answers⟩

/-- The end of an execution that was not cut short and took no answers back. -/
def Within (t : Trail) (r : Ran Trail) : Prop :=
  r.ending ≠ .failed ∧ r.state.answers.length ≤ t.answers.length

namespace Within

variable {t : Trail} {r : Ran Trail}

theorem mono {t' : Trail} (h : Within t' r) (ht : t'.answers.length ≤ t.answers.length) :
    Within t r := ⟨h.1, Nat.le_trans h.2 ht⟩

theorem andThen {k : Trail → Ran Trail} (h : Within t r)
    (hk : ∀ t', t'.answers.length ≤ t.answers.length → Within t' (k t')) :
    Within t (r.andThen k) := by
  rw [Ran.andThen]
  split
  · exact (hk _ h.2).mono h.2
  · exact h

theorem afterRound {again : Trail → Ran Trail} (h : Within t r)
    (hagain : ∀ t', t'.answers.length ≤ t.answers.length → Within t' (again t')) :
    Within t (Meaning.afterRound r again) := by
  rw [Meaning.afterRound]
  split
  · exact (hagain _ h.2).mono h.2
  · exact (hagain _ h.2).mono h.2
  · exact ⟨nofun, h.2⟩
  · exact h

end Within

theorem runItems_recording (its : List BlockItem) (t : Trail) :
    recording.runItems its t = some (its.foldl Trail.record t) := by
  induction its generalizing t with
  | nil => rfl
  | cons i its ih => exact ih (t.record i)

/-- Every round takes an answer, so a loop ends within one round more than there are answers. -/
theorem within_rounds {head : LoopHead} {round : Trail → Ran Trail} {n : Nat}
    (hround : ∀ t, t.answers.length < n → Within t (round t)) :
    ∀ k ≤ n, ∀ t, t.answers.length < k → Within t (recording.rounds head round k () t) := by
  intro k
  induction k with
  | zero => exact fun _ t ht => absurd ht (Nat.not_lt_zero _)
  | succ k ih =>
      intro hk t ht
      rw [Meaning.rounds, runItems_recording, Ran.orElse_some]
      have hlen := congrArg List.length (Trail.answers_foldl_record head.header t)
      generalize head.header.foldl Trail.record t = t₁ at hlen
      cases hask : recording.asks head () t₁ with
      | none => exact ⟨Ending.noConfusion, Nat.le_of_eq hlen⟩
      | some p =>
          obtain ⟨o, t₂⟩ := p
          have hlen₂ := Trail.length_of_answer hask
          cases o with
          | false =>
              refine ⟨Ending.noConfusion, ?_⟩
              show t₂.answers.length ≤ _
              omega
          | true =>
              have hlen₃ := congrArg List.length (Trail.answers_foldl_record head.first t₂)
              generalize hfirst : head.first.foldl Trail.record t₂ = t₃ at hlen₃
              have hstarts : recording.starts head () t₂ = some ((), t₃) := by
                rw [← hfirst]
                rfl
              simp only [Ran.orElse_some, hstarts]
              refine ((hround t₃ (by omega)).afterRound fun t' ht' => ?_).mono (by omega)
              exact ih (by omega) t' (by omega)

theorem within_runLoop {head : LoopHead} {round : Trail → Ran Trail} {n : Nat} {t : Trail}
    (hround : ∀ t, t.answers.length < n → Within t (round t)) (ht : t.answers.length < n) :
    Within t (recording.runLoop n head round t) := by
  rw [Meaning.runLoop, runItems_recording, Ran.orElse_some]
  have hlen := congrArg List.length (Trail.answers_foldl_record head.before t)
  generalize head.before.foldl Trail.record t = t₁ at hlen
  exact (within_rounds hround n (Nat.le_refl _) t₁ (by omega)).mono (Nat.le_of_eq hlen)

mutual

theorem within_runStmt {n : Nat} :
    ∀ (stmt : Stmt) (t : Trail), t.answers.length < n → Within t (recording.runStmt n stmt t)
  | .ifElse _ test body orelse, t, ht => by
      have hitem : recording.item (.condition test) t = some (t.record (.condition test)) := rfl
      rw [Meaning.runStmt, hitem, Ran.orElse_some]
      cases htest : recording.test test (t.record (.condition test)) with
      | none => exact ⟨nofun, Nat.le_refl _⟩
      | some p =>
          obtain ⟨o, t'⟩ := p
          have hlen := Trail.length_of_answer htest
          rw [Trail.answers_record] at hlen
          cases o with
          | true => exact (within_runBody body t' (by omega)).mono (by omega)
          | false => exact (within_runBody orelse t' (by omega)).mono (by omega)
  | .whileLoop _ test body, t, ht => by
      rw [Meaning.runStmt]
      exact within_runLoop (fun t ht => within_runBody body t ht) ht
  | .forLoop id target iter body, t, ht => by
      rw [Meaning.runStmt]
      exact within_runLoop (fun t ht => within_runBody body t ht) ht
  | .ret _ _, t, _ | .brk _, t, _ | .cont _, t, _ | .assign _ _ _, t, _ | .expr _ _, t, _
  | .pass _, t, _ | .functionDef _ _ _ _ _, t, _ | .classDef _ _ _ _ _, t, _ => by
      rw [Meaning.runStmt]
      exact ⟨nofun, Nat.le_refl _⟩

/-- With more rounds allowed than there are answers, no execution is cut short. -/
theorem within_runBody {n : Nat} :
    ∀ (body : List Stmt) (t : Trail), t.answers.length < n →
      Within t (recording.runBody n body t)
  | [], t, _ => by rw [Meaning.runBody]; exact ⟨nofun, Nat.le_refl _⟩
  | stmt :: rest, t, ht => by
      rw [Meaning.runBody]
      exact (within_runStmt stmt t ht).andThen fun t' ht' =>
        within_runBody rest t' (Nat.lt_of_le_of_lt ht' ht)

end

namespace FlowGraph

/-- A walk through a graph, from a place in a block to an end: items are done in order, the edge
for the next answer is taken where a block branches, and the only edge out elsewhere. A walk that
falls through to the exit is done, and one that gets there by a return has returned. -/
inductive Walk (g : FlowGraph) : Nat → Nat → Trail → Ran Trail → Prop
  | item {b k i t r} : (g.block b).items[k]? = some i → Walk g b (k + 1) (t.record i) r →
      Walk g b k t r
  | branch {b e o t t' r} : e ∈ g.outgoing b → e.kind.outcome? = some o → t.answer = some (o, t') →
      Walk g e.target 0 t' r → Walk g b (g.block b).items.length t r
  | starve {b e o t} : e ∈ g.outgoing b → e.kind.outcome? = some o → t.answer = none →
      Walk g b (g.block b).items.length t ⟨.starved, t⟩
  | jump {b e t r} : g.outgoing b = [e] → e.kind.outcome? = none → e.target ≠ g.exit →
      Walk g e.target 0 t r → Walk g b (g.block b).items.length t r
  | fall {b e t} : g.outgoing b = [e] → e.kind = .sequential → e.target = g.exit →
      Walk g b (g.block b).items.length t ⟨.done, t⟩
  | ret {b e t} : g.outgoing b = [e] → e.kind = .returnOut → e.target = g.exit →
      Walk g b (g.block b).items.length t ⟨.returned, t⟩

section Outgoing

variable {outs : List Edge} {e e' : Edge} {o : Bool}

theorem Finished.eq_singleton (h : Finished outs) (he : e ∈ outs) (hk : e.kind.outcome? = none) :
    outs = [e] := by
  obtain ⟨e₁, rfl, -⟩ | ⟨yes, no, rfl, hyes, hno⟩ := h
  · rw [List.mem_singleton.1 he]
  · simp only [List.mem_cons, List.not_mem_nil, or_false] at he
    rcases he with rfl | rfl
    · rw [hyes] at hk
      cases hk
    · rw [hno] at hk
      cases hk

/-- There is one edge for each outcome. -/
theorem Finished.eq_of_outcome (h : Finished outs) (he : e ∈ outs) (he' : e' ∈ outs)
    (hk : e.kind.outcome? = some o) (hk' : e'.kind.outcome? = some o) : e = e' := by
  obtain ⟨e₁, rfl, -⟩ | ⟨yes, no, rfl, hyes, hno⟩ := h
  · rw [List.mem_singleton.1 he, List.mem_singleton.1 he']
  · have differ : yes.kind.outcome? ≠ no.kind.outcome? := by
      rw [hyes, hno]
      decide
    simp only [List.mem_cons, List.not_mem_nil, or_false] at he he'
    rcases he with rfl | rfl <;> rcases he' with rfl | rfl
    · rfl
    · exact absurd (hk.trans hk'.symm) differ
    · exact absurd (hk'.trans hk.symm) differ
    · rfl

theorem Wired.finished_of_mem {g : FlowGraph} (h : g.Wired) {b : Nat} (he : e ∈ g.outgoing b) :
    Finished (g.outgoing b) := by
  obtain ⟨hedge, rfl⟩ := h.mem_outgoing.1 he
  exact h.finished e.source (h.edge_lt e hedge).1 (h.source_ne_exit hedge)

end Outgoing

namespace Walk

variable {g : FlowGraph} {b k : Nat} {t : Trail} {r r' : Ran Trail}

/-- A walk past some items starts before them. -/
theorem items {its : List BlockItem} (hits : its <+: (g.block b).items.drop k)
    (h : Walk g b (k + its.length) (its.foldl Trail.record t) r) : Walk g b k t r := by
  induction its generalizing k t with
  | nil => exact h
  | cons i its ih =>
      obtain ⟨post, hpost⟩ := hits
      have hi : (g.block b).items[k]? = some i := by
        rw [← Nat.add_zero k, ← List.getElem?_drop, ← hpost]
        rfl
      refine .item hi (ih ⟨post, ?_⟩ ?_)
      · rw [← List.drop_drop, ← hpost]
        rfl
      · rw [Nat.add_assoc, Nat.add_comm 1]
        exact h

/-- An edge that is the only one out of its block is for no outcome. -/
theorem not_outcome {e e' : Edge} {o : Bool} (h : g.outgoing b = [e]) (hk : e.kind.outcome? = none)
    (he' : e' ∈ g.outgoing b) : e'.kind.outcome? ≠ some o := by
  rw [h] at he'
  rw [List.mem_singleton.1 he', hk]
  nofun

/-- No two walks from one place end differently. -/
theorem unique (hg : g.Wired) (h : Walk g b k t r) (h' : Walk g b k t r') : r = r' := by
  induction h generalizing r' with
  | item hi _ ih =>
      cases h' with
      | item hi' h' =>
          cases hi.symm.trans hi'
          exact ih h'
      | branch | starve | jump | fall | ret => simp at hi
  | branch he hk ha _ ih =>
      cases h' with
      | item hi' => simp at hi'
      | branch he' hk' ha' h' =>
          cases ha.symm.trans ha'
          cases (hg.finished_of_mem he).eq_of_outcome he he' hk hk'
          exact ih h'
      | starve he' hk' ha' => cases ha.symm.trans ha'
      | jump hout hk' => exact absurd hk (not_outcome hout hk' he)
      | fall hout hk' | ret hout hk' => exact absurd hk (not_outcome hout (by rw [hk']; rfl) he)
  | starve he hk ha =>
      cases h' with
      | item hi' => simp at hi'
      | branch he' hk' ha' h' => cases ha.symm.trans ha'
      | starve => rfl
      | jump hout hk' => exact absurd hk (not_outcome hout hk' he)
      | fall hout hk' | ret hout hk' => exact absurd hk (not_outcome hout (by rw [hk']; rfl) he)
  | jump hout hk hne _ ih =>
      cases h' with
      | item hi' => simp at hi'
      | branch he' hk' | starve he' hk' => exact absurd hk' (not_outcome hout hk he')
      | jump hout' hk' hne' h' =>
          cases hout.symm.trans hout'
          exact ih h'
      | fall hout' hk' hexit | ret hout' hk' hexit =>
          cases hout.symm.trans hout'
          exact absurd hexit hne
  | fall hout hk hexit =>
      cases h' with
      | item hi' => simp at hi'
      | branch he' hk' | starve he' hk' =>
          exact absurd hk' (not_outcome hout (by rw [hk]; rfl) he')
      | jump hout' hk' hne =>
          cases hout.symm.trans hout'
          exact absurd hexit hne
      | fall => rfl
      | ret hout' hk' =>
          cases hout.symm.trans hout'
          cases hk.symm.trans hk'
  | ret hout hk hexit =>
      cases h' with
      | item hi' => simp at hi'
      | branch he' hk' | starve he' hk' =>
          exact absurd hk' (not_outcome hout (by rw [hk]; rfl) he')
      | jump hout' hk' hne =>
          cases hout.symm.trans hout'
          exact absurd hexit hne
      | fall hout' hk' =>
          cases hout.symm.trans hout'
          cases hk.symm.trans hk'
      | ret => rfl

end Walk

/-- Walks from a place go on a walk from a start. -/
def continuing (g : FlowGraph) (b : Nat) (t : Trail) : Assertions Trail Unit where
  here b' k t' := ∀ r, Walk g b' k t' r → Walk g b 0 t r
  live _ _ _ := True
  final ending t' := ending ≠ .failed → Walk g b 0 t ⟨ending, t'⟩

theorem closed_continuing {g : FlowGraph} (hg : g.Wired) (b : Nat) (t : Trail) :
    Closed recording g.chart (continuing g b t) := by
  have single : ∀ {e}, e ∈ g.edges → e.kind.outcome? = none → g.outgoing e.source = [e] :=
    fun he hk =>
      have hmem := hg.mem_outgoing.2 ⟨he, rfl⟩
      (hg.finished_of_mem hmem).eq_singleton hmem hk
  refine
    { item := ?item, test := ?test, testStarves := ?testStarves, opens := fun _ _ _ => trivial,
      asks := ?asks, asksStarves := ?asksStarves, starts := ?starts, jump := ?jump,
      falls := ?falls, returns := ?returns, stops := fun _ hne => absurd rfl hne }
  case item =>
    intro b k i s s' hs hi _ hrun r hr
    cases hrun
    exact hs r (.item hi hr)
  case test =>
    rintro b cond o s s' e hs - hrun he rfl ho r hr
    exact hs r (.branch (hg.mem_outgoing.2 ⟨he, rfl⟩) ho hrun hr)
  case testStarves =>
    rintro b cond s e hs - hrun he rfl hk -
    exact hs _ (.starve (hg.mem_outgoing.2 ⟨he, rfl⟩) (congrArg _ hk) hrun)
  case asks =>
    rintro b head it o s s' e - hs - hrun he rfl ho r hr
    exact hs r (.branch (hg.mem_outgoing.2 ⟨he, rfl⟩) ho hrun hr)
  case asksStarves =>
    rintro b head it s e - hs - hrun he rfl hk -
    exact hs _ (.starve (hg.mem_outgoing.2 ⟨he, rfl⟩) (congrArg _ hk) hrun)
  case starts =>
    intro b head it it' s s' e _ _ _ _ _ hfirst hs hrun
    cases hrun
    refine ⟨trivial, fun r hr => hs r (Walk.items hfirst ?_)⟩
    rwa [Nat.zero_add]
  case jump =>
    rintro b s e hs he rfl hk hne r hr
    exact hs r (.jump (single he hk) hk hne hr)
  case falls =>
    rintro b s e hs he rfl hk hexit -
    exact hs _ (.fall (single he (by rw [hk]; rfl)) hk hexit)
  case returns =>
    rintro b k i s s' e hs hi - hlast hrun he rfl hk hexit -
    cases hrun
    refine hs _ (.item hi ?_)
    rw [hlast]
    exact .ret (single he (by rw [hk]; rfl)) hk hexit

/-- Whatever the answers are, the walk through the graph of a body has the items, the remaining
answers and the end of the execution of the body, and there is no other walk. -/
theorem walk_iff_recorded {u : Owner} {body : List Stmt} {g : FlowGraph}
    (h : build u body = .ok g) (answers : List Bool) (r : Ran Trail) :
    Walk g g.entry 0 ⟨[], answers⟩ r ↔ recorded body answers = r := by
  have hg := build_wired h
  have hwithin := within_runBody body ⟨[], answers⟩ (Nat.lt_succ_self answers.length)
  have hwalk : Walk g g.entry 0 ⟨[], answers⟩ (recorded body answers) :=
    final_of_runBody h (closed_continuing hg g.entry ⟨[], answers⟩) (fun _ hr => hr) _ rfl hwithin.1
  constructor
  · exact fun hr => hwalk.unique hg hr
  · rintro rfl
    exact hwalk

def firstTrue : List Stmt :=
  [.forLoop 0 "x" (.name 1 "xs")
    [.ifElse 2 (.name 3 "x") [.ret 4 (some (.name 5 "x"))] [.cont 6], .pass 7]]

theorem walk_iff_recorded_firstTrue :
    ∃ g, build ⟨"f", true⟩ firstTrue = .ok g ∧
      Walk g g.entry 0 ⟨[], [true, false, true, true, false]⟩
        ⟨.returned,
          ⟨[.evaluate (.name 1 "xs"), .bind 0 "x" (.name 1 "xs"), .condition (.name 3 "x"),
            .bind 0 "x" (.name 1 "xs"), .condition (.name 3 "x"),
            .statement (.ret 4 (some (.name 5 "x")))], [false]⟩⟩ := by
  have hbuilt : ∃ g, build ⟨"f", true⟩ firstTrue = .ok g := ⟨_, rfl⟩
  obtain ⟨g, hg⟩ := hbuilt
  exact ⟨g, hg, (walk_iff_recorded hg _ _).2 rfl⟩

end FlowGraph

end ValueFlow
