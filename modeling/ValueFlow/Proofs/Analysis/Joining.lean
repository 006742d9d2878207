import Mathlib.Data.List.Induction
import ValueFlow.Proofs.Analysis.Canonical
/-!
The inputs that calls pass to a function can be joined in any order.

What is recorded about a function is the join of all inputs of its calls. For canonical inputs it
hangs on neither their order nor their grouping, and its arguments are above those of every call.
-/

namespace ValueFlow

section Arguments

variable {as bs cs : List Value}

theorem zipWith_join_comm (ha : ∀ v ∈ as, v.Canonical) (hb : ∀ v ∈ bs, v.Canonical) :
    List.zipWith Value.join as bs = List.zipWith Value.join bs as := by
  induction as generalizing bs with
  | nil => rw [List.zipWith_nil_left, List.zipWith_nil_right]
  | cons a as ih =>
      cases bs with
      | nil => rfl
      | cons b bs =>
          rw [List.forall_mem_cons] at ha hb
          rw [List.zipWith_cons_cons, List.zipWith_cons_cons, ih ha.2 hb.2,
            Value.join_comm ha.1 hb.1]

theorem zipWith_join_assoc (ha : ∀ v ∈ as, v.Canonical) (hb : ∀ v ∈ bs, v.Canonical)
    (hc : ∀ v ∈ cs, v.Canonical) :
    List.zipWith Value.join (List.zipWith Value.join as bs) cs =
      List.zipWith Value.join as (List.zipWith Value.join bs cs) := by
  induction as generalizing bs cs with
  | nil => simp only [List.zipWith_nil_left]
  | cons a as ih =>
      cases bs with
      | nil => simp only [List.zipWith_nil_left, List.zipWith_nil_right]
      | cons b bs =>
          cases cs with
          | nil => simp only [List.zipWith_nil_right]
          | cons c cs =>
              rw [List.forall_mem_cons] at ha hb hc
              simp only [List.zipWith_cons_cons]
              rw [ih ha.2 hb.2 hc.2, Value.join_assoc ha.1 hb.1 hc.1]

theorem canonical_zipWith_join (ha : ∀ v ∈ as, v.Canonical) (hb : ∀ v ∈ bs, v.Canonical) :
    ∀ v ∈ List.zipWith Value.join as bs, v.Canonical := by
  induction as generalizing bs with
  | nil =>
      intro v hv
      rw [List.zipWith_nil_left] at hv
      cases hv
  | cons a as ih =>
      cases bs with
      | nil => exact fun v hv => nomatch hv
      | cons b bs =>
          rw [List.forall_mem_cons] at ha hb
          rw [List.zipWith_cons_cons, List.forall_mem_cons]
          exact ⟨ha.1.join hb.1, ih ha.2 hb.2⟩

end Arguments

namespace CallInput

variable {a b c : CallInput}

theorem Canonical.join (ha : a.Canonical) (hb : b.Canonical) : (a.join b).Canonical where
  args := canonical_zipWith_join ha.args hb.args
  heap := ha.heap.join hb.heap
  reachable := (Heap.joins_join ha.reachable hb.reachable).reachable

theorem join_comm (ha : a.Canonical) (hb : b.Canonical) : a.join b = b.join a := by
  rw [CallInput.join, CallInput.join, zipWith_join_comm ha.args hb.args,
    Heap.join_comm ha.reachable hb.reachable ha.heap hb.heap]

theorem join_assoc (ha : a.Canonical) (hb : b.Canonical) (hc : c.Canonical) :
    (a.join b).join c = a.join (b.join c) := by
  simp only [CallInput.join]
  rw [zipWith_join_assoc ha.args hb.args hc.args,
    Heap.join_assoc ha.reachable hb.reachable hc.reachable ha.heap hb.heap hc.heap]

/-- Whether every argument is described by that of a second input. -/
def ArgsBelow (a b : CallInput) : Prop :=
  ∀ (k : Nat) (v : Value), a.args[k]? = some v → ∃ w : Value, b.args[k]? = some w ∧ v.leq w = true

theorem ArgsBelow.refl (a : CallInput) : a.ArgsBelow a := fun _ v hv => ⟨v, hv, Value.leq_refl v⟩

theorem ArgsBelow.trans (hab : a.ArgsBelow b) (hbc : b.ArgsBelow c) : a.ArgsBelow c := by
  intro k u hu
  obtain ⟨v, hv, huv⟩ := hab k u hu
  obtain ⟨w, hw, hvw⟩ := hbc k v hv
  exact ⟨w, hw, Value.leq_trans huv hvw⟩

theorem length_args_join (h : a.args.length = b.args.length) :
    (a.join b).args.length = b.args.length := by
  rw [CallInput.join, List.length_zipWith, h, Nat.min_self]

theorem getElem?_args_join {k : Nat} {v w : Value} (hv : a.args[k]? = some v)
    (hw : b.args[k]? = some w) : (a.join b).args[k]? = some (v.join w) := by
  rw [CallInput.join, List.getElem?_zipWith, hv, hw]

theorem argsBelow_join_left (h : a.args.length = b.args.length) : a.ArgsBelow (a.join b) := by
  intro k v hv
  have hk : k < b.args.length := h ▸ (List.getElem?_eq_some_iff.1 hv).1
  exact ⟨_, getElem?_args_join hv (List.getElem?_eq_getElem hk), Value.leq_join_left _ _⟩

theorem argsBelow_join_right (h : a.args.length = b.args.length) : b.ArgsBelow (a.join b) := by
  intro k w hw
  have hk : k < a.args.length := h ▸ (List.getElem?_eq_some_iff.1 hw).1
  exact ⟨_, getElem?_args_join (List.getElem?_eq_getElem hk) hw, Value.leq_join_right _ _⟩

/-- The join of inputs; of no inputs there is none. -/
def joinAll : List CallInput → Option CallInput
  | [] => none
  | c :: rest => some (rest.foldl join c)

variable {l m : List CallInput}

theorem joinAll_concat (l : List CallInput) (c : CallInput) :
    joinAll (l ++ [c]) = Option.merge join (joinAll l) (some c) := by
  cases l with
  | nil => rfl
  | cons d rest =>
      show some ((rest ++ [c]).foldl join d) = some ((rest.foldl join d).join c)
      rw [List.foldl_append]
      rfl

theorem joinAll_eq_none_iff : joinAll l = none ↔ l = [] := by
  cases l with
  | nil => exact ⟨fun _ => rfl, fun _ => rfl⟩
  | cons c rest => exact ⟨fun h => (nomatch h), fun h => (nomatch h)⟩

theorem canonical_of_joinAll (hl : ∀ c ∈ l, c.Canonical) : ∀ s ∈ joinAll l, s.Canonical := by
  cases l with
  | nil => exact fun s hs => nomatch hs
  | cons c rest =>
      rw [List.forall_mem_cons] at hl
      intro s hs
      cases hs
      exact List.foldlRecOn rest join hl.1 fun _ ha b hb => ha.join (hl.2 b hb)

/-- Parts of a list can be joined first. -/
theorem joinAll_append (hl : ∀ c ∈ l, c.Canonical) (hm : ∀ c ∈ m, c.Canonical) :
    joinAll (l ++ m) = Option.merge join (joinAll l) (joinAll m) := by
  induction m using List.reverseRecOn with
  | nil =>
      rw [List.append_nil]
      cases joinAll l <;> rfl
  | append_singleton m c ih =>
      have hm' : ∀ d ∈ m, d.Canonical := fun d hd => hm d (List.mem_append_left _ hd)
      have hc : ∀ d ∈ some c, d.Canonical := fun d hd =>
        Option.some.inj hd ▸ hm c (List.mem_append_right _ List.mem_cons_self)
      rw [← List.append_assoc, joinAll_concat, ih hm', joinAll_concat]
      exact merge_assoc_of (fun _ _ _ => join_assoc) (canonical_of_joinAll hl)
        (canonical_of_joinAll hm') hc

/-- Inputs can be joined in any order. -/
theorem joinAll_perm (h : l.Perm m) (hl : ∀ c ∈ l, c.Canonical) : joinAll l = joinAll m := by
  have cons (c : CallInput) (l : List CallInput) (hl : ∀ d ∈ c :: l, d.Canonical) :
      joinAll (c :: l) = Option.merge join (some c) (joinAll l) := by
    rw [List.forall_mem_cons] at hl
    exact joinAll_append (fun d hd => List.mem_singleton.1 hd ▸ hl.1) hl.2
  induction h with
  | nil => rfl
  | cons c h ih =>
      have htail := (List.forall_mem_cons.1 hl).2
      have hl' := hl
      rw [List.forall_mem_cons] at hl'
      rw [cons _ _ hl, cons _ _ (List.forall_mem_cons.2
        ⟨hl'.1, fun d hd => htail d (h.mem_iff.2 hd)⟩), ih htail]
  | swap c d l =>
      obtain ⟨hd, hcl⟩ := List.forall_mem_cons.1 hl
      obtain ⟨hc, hrest⟩ := List.forall_mem_cons.1 hcl
      have hcomm : joinAll ([d] ++ [c]) = joinAll ([c] ++ [d]) := congrArg some (join_comm hd hc)
      have hpair : ∀ e ∈ [d] ++ [c], e.Canonical := fun e he => hl e (by
        rcases List.mem_append.1 he with he | he
        · exact List.mem_singleton.1 he ▸ List.mem_cons_self
        · exact List.mem_singleton.1 he ▸ List.mem_cons_of_mem _ List.mem_cons_self)
      have hpair' : ∀ e ∈ [c] ++ [d], e.Canonical := fun e he =>
        hpair e (List.perm_append_comm.mem_iff.2 he)
      show joinAll (([d] ++ [c]) ++ l) = joinAll (([c] ++ [d]) ++ l)
      rw [joinAll_append hpair hrest, joinAll_append hpair' hrest, hcomm]
  | trans h _ ih ih' => rw [ih hl, ih' fun c hc => hl c (h.mem_iff.2 hc)]

/-- The arguments of a join are above those of all inputs of one length. -/
theorem argsBelow_of_joinAll {n : Nat} {s : CallInput} (hl : ∀ c ∈ l, c.args.length = n)
    (hs : joinAll l = some s) : s.args.length = n ∧ ∀ c ∈ l, c.ArgsBelow s := by
  induction l using List.reverseRecOn generalizing s with
  | nil => cases hs
  | append_singleton l c ih =>
      have hc : c.args.length = n := hl c (List.mem_append_right _ List.mem_cons_self)
      rw [joinAll_concat] at hs
      cases hjoin : joinAll l with
      | none =>
          rw [hjoin] at hs
          cases hs
          rw [joinAll_eq_none_iff.1 hjoin]
          exact ⟨hc, fun d hd => List.mem_singleton.1 hd ▸ .refl _⟩
      | some t =>
          rw [hjoin] at hs
          cases hs
          obtain ⟨ht, hbelow⟩ := ih (fun d hd => hl d (List.mem_append_left _ hd)) hjoin
          have hlength : t.args.length = c.args.length := ht.trans hc.symm
          refine ⟨(length_args_join hlength).trans hc, fun d hd => ?_⟩
          rcases List.mem_append.1 hd with hd | hd
          · exact (hbelow d hd).trans (argsBelow_join_left hlength)
          · rw [List.mem_singleton.1 hd]
            exact argsBelow_join_right hlength

end CallInput

namespace CallInputs

/-- The inputs that calls pass to one function. -/
def inputsFor (f : Nat) (calls : List (Nat × CallInput)) : List CallInput :=
  (calls.filter fun c => decide (c.1 = f)).map Prod.snd

theorem mem_inputsFor {f : Nat} {calls : List (Nat × CallInput)} {c : CallInput} :
    c ∈ inputsFor f calls ↔ (f, c) ∈ calls := by
  constructor
  · intro h
    obtain ⟨⟨f', c'⟩, hq, rfl⟩ := List.mem_map.1 h
    obtain ⟨hq, hf⟩ := List.mem_filter.1 hq
    have hf : f' = f := of_decide_eq_true hf
    exact hf ▸ hq
  · exact fun h => List.mem_map.2 ⟨(f, c), List.mem_filter.2 ⟨h, decide_eq_true rfl⟩, rfl⟩

/-- What is recorded about a function is the join of all that calls pass to it. -/
theorem get?_recordAll (calls : List (Nat × CallInput)) (f : Nat) :
    (recordAll ∅ calls).get? f = CallInput.joinAll (inputsFor f calls) := by
  induction calls using List.reverseRecOn with
  | nil => rfl
  | append_singleton calls c ih =>
      rw [recordAll_append, inputsFor, List.filter_append, List.map_append]
      show ((recordAll ∅ calls).insertWith CallInput.join c.1 c.2).get? f = _
      rw [SortedMap.get?_insertWith]
      by_cases hc : f = c.1
      · have hfilter : ([c].filter fun c => decide (c.1 = f)) = [c] :=
          List.filter_cons_of_pos (decide_eq_true hc.symm)
        rw [if_pos hc, hfilter]
        show _ = CallInput.joinAll (inputsFor f calls ++ [c.2])
        rw [CallInput.joinAll_concat, ← hc, ih]
        cases CallInput.joinAll (inputsFor f calls) <;> rfl
      · have hfilter : ([c].filter fun c => decide (c.1 = f)) = [] :=
          List.filter_cons_of_neg fun h => hc (of_decide_eq_true h).symm
        rw [if_neg hc, hfilter, List.map_nil, List.append_nil, ih]
        rfl

end CallInputs

end ValueFlow
