import ValueFlow.Proofs.PointsTo.Soundness
/-!
A pass that adds nothing has found all that can be derived.

In such a pass every constraint met the facts as they are in the end, and every function that a
call entered is among those that were reached. Main statement: `found_of_derives`.
-/

namespace ValueFlow

open Numbering (Says SaysCall)

namespace PointerPass

open PointerFacts (Grows)

variable {depth : Nat} {p q r : PointerPass}

/-- Whether a pass went on from one state to another. -/
structure Advances (depth : Nat) (p q : PointerPass) : Prop where
  facts : Grows p.facts q.facts
  contexts : p.contexts.Extends q.contexts
  proper : p.contexts.Proper depth → q.contexts.Proper depth
  reached : p.reached ⊆ q.reached

theorem Advances.refl (p : PointerPass) : Advances depth p p :=
  ⟨.refl _, .refl _, id, List.Subset.refl _⟩

theorem Advances.trans (hpq : Advances depth p q) (hqr : Advances depth q r) :
    Advances depth p r :=
  ⟨hpq.facts.trans hqr.facts, hpq.contexts.trans hqr.contexts, fun h => hqr.proper (hpq.proper h),
    List.Subset.trans hpq.reached hqr.reached⟩

theorem advances_update {change : PointerFacts → PointerFacts} (h : Grows p.facts (change p.facts)) :
    Advances depth p (p.update change) := ⟨h, .refl _, id, List.Subset.refl _⟩

variable (depth) in
theorem advances_enter (scene : PointerScene) (c : PointerCall) (receiver : Option Nat) (skip : Nat)
    (p : PointerPass) (t : Nat) : Advances depth p (enter scene c receiver skip p t) where
  facts := grows_enter scene c receiver skip p t
  contexts := ContextTable.extends_intern _ _
  proper h := (h.intern _).1
  reached := List.subset_cons_self _ _

variable (depth) in
theorem advances_dispatch (scene : PointerScene) (c : PointerCall) (method : String)
    (p : PointerPass) (object : Nat) : Advances depth p (dispatch scene c method p object) := by
  unfold dispatch
  split
  · exact (advances_update (PointerFacts.grows_addTarget _ _ _)).trans
      (advances_enter depth scene _ _ _ _ _)
  · exact .refl p

section Folds

variable {β : Type} {step : PointerPass → β → PointerPass}
  (hstep : ∀ p b, Advances depth p (step p b))
include hstep

theorem Advances.foldl (l : List β) (p : PointerPass) : Advances depth p (l.foldl step p) := by
  induction l generalizing p with
  | nil => exact .refl p
  | cons b rest ih => exact (hstep p b).trans (ih _)

/-- Every step of a fold was taken from some state on the way. -/
theorem Advances.exists_between {l : List β} {b : β} (hb : b ∈ l) (p : PointerPass) :
    ∃ q, Advances depth p q ∧ Advances depth (step q b) (l.foldl step p) := by
  obtain ⟨front, back, rfl⟩ := List.append_of_mem hb
  rw [List.foldl_append]
  exact ⟨_, foldl hstep front p, foldl hstep back _⟩

end Folds

variable (depth) in
theorem advances_call (scene : PointerScene) (p : PointerPass) (c : PointerCall) :
    Advances depth p (call scene p c) := by
  unfold call
  split
  · exact .foldl (fun p t => advances_enter depth scene c none 0 p t) _ p
  · exact (advances_update (PointerFacts.grows_addVar _ _ _)).trans
      (.foldl (fun p t => advances_enter depth scene c _ 1 p t) _ _)
  · exact .foldl (fun p o => advances_dispatch depth scene c _ p o) _ p

variable (depth) in
theorem advances_apply (scene : PointerScene) (p : PointerPass) (c : Constraint) :
    Advances depth p (apply scene p c) := by
  cases c with
  | alloc | copy | load | store =>
      exact ⟨grows_apply scene p _, .refl _, id, List.Subset.refl _⟩
  | call c => exact advances_call depth scene p c

/-- Whether a pass went on from one state to another without adding a fact. -/
structure Coasts (depth : Nat) (p q : PointerPass) : Prop extends Advances depth p q where
  same : q.facts = p.facts

/-- Where nothing was added on the whole way, nothing was added on a part of it. -/
theorem Coasts.split (h : Coasts depth p r) (hpq : Advances depth p q) (hqr : Advances depth q r) :
    Coasts depth p q ∧ Coasts depth q r := by
  have hback : Grows q.facts p.facts := h.same ▸ hqr.facts
  have hsame : q.facts = p.facts := hpq.facts.eq_of_back hback
  exact ⟨⟨hpq, hsame⟩, ⟨hqr, h.same.trans hsame.symm⟩⟩

theorem Coasts.exists_between {β : Type} {step : PointerPass → β → PointerPass}
    (hstep : ∀ p b, Advances depth p (step p b)) {l : List β} {b : β} (hb : b ∈ l)
    (hpr : Coasts depth p r) (hl : Advances depth (l.foldl step p) r) :
    ∃ q, Coasts depth p q ∧ Coasts depth q r ∧ Coasts depth q (step q b) ∧
      Coasts depth (step q b) r := by
  obtain ⟨q, hpq, hqr⟩ := Advances.exists_between hstep hb p
  have hqr := hqr.trans hl
  obtain ⟨hfront, hback⟩ := hpr.split hpq ((hstep q b).trans hqr)
  exact ⟨q, hfront, hback, hback.split (hstep q b) hqr⟩

end PointerPass

namespace FlowProgram

open PointerPass (Advances Coasts advances_enter advances_dispatch advances_apply)

variable {P : FlowProgram} {p q r : PointerPass} {c : PointerCall} {objects : Array HeapObject}

/-- What entering a function has left when a pass is over. -/
structure Entered (P : FlowProgram) (r : PointerPass) (c : PointerCall) (receiver : Option Nat)
    (skip t context : Nat) : Prop where
  reached : (t, context) ∈ r.reached
  path : ∀ κ, r.contexts.paths[c.context]? = some κ →
    r.contexts.paths[context]? = some (P.push κ t)
  receiver : ∀ o ∈ receiver, ∀ self rest, P.index.params t = self :: rest →
    o ∈ r.facts.objects (.named t context self)
  args : ∀ q ∈ c.args.zip ((P.index.params t).drop skip), ∀ o ∈ r.facts.objects q.1,
    o ∈ r.facts.objects (.named t context q.2)
  result : ∀ o ∈ r.facts.objects (.result t context), o ∈ r.facts.objects c.result

/-- What a call has left when a pass is over. -/
def Ran (P : FlowProgram) (objects : Array HeapObject) (r : PointerPass) (c : PointerCall) : Prop :=
  match c.target with
  | .static functions => ∀ t ∈ functions, ∃ context, P.Entered r c none 0 t context
  | .construct object constructor => object ∈ r.facts.objects c.result ∧
      ∀ t ∈ constructor, ∃ context, P.Entered r c (some object) 1 t context
  | .dispatch method receiver => ∀ o ∈ r.facts.objects receiver, ∀ t,
      (P.scene objects).method? method o = some t → t ∈ r.facts.targets.getD c.site ∅ ∧
        ∃ context, P.Entered r c (some o) 1 t context

theorem grows_receive (index : ProgramIndex) (receiver : Option Nat) (t context : Nat)
    (f : PointerFacts) : f.Grows (PointerPass.receive index receiver t context f) := by
  unfold PointerPass.receive
  split
  · exact PointerFacts.grows_addVar _ _ _
  · exact .refl f

theorem grows_passArgs (names : List String) (t context : Nat) (args : List PointerVar)
    (f : PointerFacts) : f.Grows (PointerPass.passArgs names t context args f) :=
  PointerFacts.Grows.foldl id (fun f _ => PointerFacts.grows_addVar f _ _) _ f

/-- If entering a function adds no fact, then none of its parts does. -/
theorem parts_of_enter {index : ProgramIndex} {receiver : Option Nat} {names : List String}
    {t context : Nat} {args : List PointerVar} {result : PointerVar} {f : PointerFacts}
    (h : (PointerPass.passArgs names t context args
      (PointerPass.receive index receiver t context f)).copy (.result t context) result = f) :
    PointerPass.receive index receiver t context f = f ∧
      PointerPass.passArgs names t context args f = f ∧ f.copy (.result t context) result = f := by
  have hreceive := grows_receive index receiver t context f
  have hpass := grows_passArgs names t context args (PointerPass.receive index receiver t context f)
  have hcopy (g : PointerFacts) : g.Grows (g.copy (.result t context) result) :=
    PointerFacts.grows_addVar _ _ _
  have hback := hpass.trans (hcopy _)
  rw [h] at hback
  have hreceived := hreceive.eq_of_back hback
  rw [hreceived] at h hpass
  have hback := hcopy (PointerPass.passArgs names t context args f)
  rw [h] at hback
  have hpassed := hpass.eq_of_back hback
  rw [hpassed] at h
  exact ⟨hreceived, hpassed, h⟩

/-- A function that was entered without adding a fact had been given all before. -/
theorem entered_of_enter {receiver : Option Nat} {skip t : Nat} (hproper : p.contexts.Proper P.depth)
    {κ : List Nat} (hcontext : p.contexts.paths[c.context]? = some κ)
    (h : Coasts P.depth p (p.enter (P.scene objects) c receiver skip t))
    (hr : Coasts P.depth (p.enter (P.scene objects) c receiver skip t) r) :
    ∃ context, P.Entered r c receiver skip t context := by
  have hfacts : r.facts = p.facts := hr.same.trans h.same
  obtain ⟨hreceive, hpass, hcopy⟩ := parts_of_enter h.same
  refine ⟨(p.contexts.push c.context t).1, hr.reached List.mem_cons_self, ?_, ?_, ?_, ?_⟩
  · intro κ' hκ'
    cases ((h.trans hr.toAdvances).contexts hcontext).symm.trans hκ'
    exact hr.contexts (push_spec hproper hcontext t).2
  · intro o ho self rest hparams
    rw [hfacts]
    cases ho
    have heq : PointerPass.receive P.index (some o) t (p.contexts.push c.context t).1 p.facts =
        p.facts.addVar (.named t (p.contexts.push c.context t).1 self) (.singleton o) := by
      simp only [PointerPass.receive, hparams]
    exact PointerFacts.mem_of_addVar_eq (heq.symm.trans hreceive) (SortedSet.mem_singleton.2 rfl)
  · intro pair hpair o ho
    rw [hfacts] at ho ⊢
    obtain ⟨g, rfl, heq⟩ := PointerFacts.settled_of_foldl id (fun f (q : PointerVar × String) =>
      PointerFacts.grows_addVar f (.named t (p.contexts.push c.context t).1 q.2)
        (f.objects q.1)) hpass pair hpair
    exact PointerFacts.mem_of_addVar_eq heq ho
  · intro o ho
    rw [hfacts] at ho ⊢
    exact PointerFacts.mem_of_addVar_eq hcopy ho

/-- In a pass that adds no fact, every call has left all that it can. -/
theorem ran_of_call (hproper : p.contexts.Proper P.depth) {κ : List Nat}
    (hcontext : p.contexts.paths[c.context]? = some κ)
    (h : Coasts P.depth p (p.call (P.scene objects) c))
    (hr : Coasts P.depth (p.call (P.scene objects) c) r) : P.Ran objects r c := by
  have hpr : Coasts P.depth p r := ⟨h.trans hr.toAdvances, hr.same.trans h.same⟩
  have hadvances := hr.toAdvances
  unfold PointerPass.call at hadvances
  unfold Ran
  cases htarget : c.target with
  | static functions =>
      rw [htarget] at hadvances
      intro t ht
      obtain ⟨q, hpq, -, hq, hqr⟩ := hpr.exists_between
        (fun p t => advances_enter P.depth (P.scene objects) c none 0 p t) ht hadvances
      exact entered_of_enter (hpq.proper hproper) (hpq.contexts hcontext) hq hqr
  | construct object constructor =>
      rw [htarget] at hadvances
      have hnew : Advances P.depth p (p.update (·.addVar c.result (.singleton object))) :=
        PointerPass.advances_update (PointerFacts.grows_addVar _ _ _)
      have hrest := (Advances.foldl (fun p t => advances_enter P.depth (P.scene objects) c
        (some object) 1 p t) constructor.toList _).trans hadvances
      obtain ⟨hfirst, hback⟩ := hpr.split hnew hrest
      constructor
      · rw [hpr.same]
        exact PointerFacts.mem_of_addVar_eq hfirst.same (SortedSet.mem_singleton.2 rfl)
      · intro t ht
        obtain ⟨q, hpq, -, hq, hqr⟩ := hback.exists_between
          (fun p t => advances_enter P.depth (P.scene objects) c (some object) 1 p t)
          (Option.mem_toList.2 ht) hadvances
        exact entered_of_enter (hpq.proper (hfirst.proper hproper))
          (hpq.contexts (hfirst.contexts hcontext)) hq hqr
  | dispatch method receiver =>
      rw [htarget] at hadvances
      intro o ho t ht
      rw [hpr.same] at ho
      obtain ⟨q, hpq, hqr, hq, hdr⟩ := hpr.exists_between
        (fun p o => advances_dispatch P.depth (P.scene objects) c method p o) ho hadvances
      have heq : q.dispatch (P.scene objects) c method o = (q.update (·.addTarget c.site t)).enter
          (P.scene objects) c (some o) 1 t := by
        rw [PointerPass.dispatch, ht]
      rw [heq] at hq hdr
      have hnew : Advances P.depth q (q.update (·.addTarget c.site t)) :=
        PointerPass.advances_update (PointerFacts.grows_addTarget _ _ _)
      obtain ⟨hfirst, hback⟩ := hq.split hnew (advances_enter P.depth _ c (some o) 1 _ t)
      constructor
      · rw [hqr.same, ← hfirst.same]
        exact PointerFacts.mem_grow.2 (.inr ⟨rfl, SortedSet.mem_singleton.2 rfl⟩)
      · have hproper' : (q.update (·.addTarget c.site t)).contexts.Proper P.depth :=
          hpq.proper hproper
        have hcontext' : (q.update (·.addTarget c.site t)).contexts.paths[c.context]? = some κ :=
          hpq.contexts hcontext
        exact entered_of_enter hproper' hcontext' hback hdr

/-- What a pass that adds nothing leaves, where constraints and objects are those of the functions
that were reached. -/
structure Closed (P : FlowProgram) (constraints : List Constraint) (objects : Array HeapObject)
    (reached : List (Nat × Nat)) (r : PointerPass) : Prop where
  proper : Numbering.Proper P.depth ⟨r.contexts, objects⟩
  roots : ∀ f < P.index.functions.size, ∃ c, r.contexts.paths[c]? = some (P.root f) ∧
    (f, c) ∈ reached
  made : ∀ pair ∈ reached, ∀ κ, r.contexts.paths[pair.2]? = some κ → ∀ flow ∈ P.flows pair.1 κ,
    ∃ con ∈ constraints, Says ⟨r.contexts, objects⟩ con flow
  holds : ∀ con ∈ constraints, con.Holds r.facts
  ran : ∀ c, .call c ∈ constraints → P.Ran objects r c
  entered : r.reached ⊆ reached

/-- Whether a pass has found a fact. -/
def Found (P : FlowProgram) (objects : Array HeapObject) (reached : List (Nat × Nat))
    (r : PointerPass) : FlowFact → Prop
  | .reached f κ => ∃ c, r.contexts.paths[c]? = some κ ∧ (f, c) ∈ reached
  | .refers place made => ∃ v o, Numbering.place? ⟨r.contexts, objects⟩ v = some place ∧
      Numbering.creation? ⟨r.contexts, objects⟩ o = some made ∧ o ∈ r.facts.objects v
  | .holds base field made => ∃ a o, Numbering.creation? ⟨r.contexts, objects⟩ a = some base ∧
      Numbering.creation? ⟨r.contexts, objects⟩ o = some made ∧ o ∈ r.facts.held a field
  | .runs site t => t ∈ r.facts.targets.getD site ∅
  | .enters d made skip t => ∃ c receiver context, SaysCall ⟨r.contexts, objects⟩ c d ∧
      (∀ m ∈ made, ∃ o ∈ receiver, Numbering.creation? ⟨r.contexts, objects⟩ o = some m) ∧
      P.Entered r c receiver skip t context

section Found

variable {constraints : List Constraint} {reached : List (Nat × Nat)}
  (h : P.Closed constraints objects reached r)
include h

/-- Every flow of a function that was reached has its constraint. -/
theorem Closed.exists_constraint {f : Nat} {κ : List Nat}
    (hr : P.Found objects reached r (.reached f κ)) {flow : Flow} (hflow : flow ∈ P.flows f κ) :
    ∃ con ∈ constraints, Says ⟨r.contexts, objects⟩ con flow := by
  obtain ⟨c, hc, hmem⟩ := hr
  exact h.made (f, c) hmem κ hc flow hflow

theorem Closed.exists_call {f : Nat} {κ : List Nat} (hr : P.Found objects reached r (.reached f κ))
    {d : FlowCall} (hflow : .call d ∈ P.flows f κ) :
    ∃ c, .call c ∈ constraints ∧ SaysCall ⟨r.contexts, objects⟩ c d := by
  obtain ⟨con, hcon, hmeans⟩ := h.exists_constraint hr hflow
  cases hmeans with
  | call hcall => exact ⟨_, hcon, hcall⟩

/-- A variable of a known place has all that was found for the place. -/
theorem Closed.mem_objects {v : PointerVar} {place : Place} {made : Creation}
    (hfound : P.Found objects reached r (.refers place made))
    (hv : Numbering.place? ⟨r.contexts, objects⟩ v = some place) :
    ∃ o ∈ r.facts.objects v, Numbering.creation? ⟨r.contexts, objects⟩ o = some made := by
  obtain ⟨w, o, hw, hmade, ho⟩ := hfound
  cases h.proper.place?_injective hv hw
  exact ⟨o, ho, hmade⟩

theorem Closed.found_dispatch {f : Nat} {κ : List Nat} {d : FlowCall} {method : String}
    {receiver : Place} {made : Creation} {t : Nat}
    (hr : P.Found objects reached r (.reached f κ)) (hflow : .call d ∈ P.flows f κ)
    (htarget : d.target = .dispatch method receiver)
    (ho : P.Found objects reached r (.refers receiver made)) (ht : P.method? method made = some t) :
    P.Found objects reached r (.runs d.site t) ∧
      P.Found objects reached r (.enters d (some made) 1 t) := by
  obtain ⟨c, hcon, hcall⟩ := h.exists_call hr hflow
  have hsame := hcall.target
  have hran := h.ran c hcon
  rw [htarget] at hsame
  unfold Ran at hran
  generalize c.target = target at hsame hran
  cases hsame with
  | dispatch _ hv =>
      obtain ⟨o, ho, hmade⟩ := h.mem_objects ho hv
      rw [← method?_eq hmade] at ht
      obtain ⟨hruns, context, hentered⟩ := hran o ho t ht
      rw [hcall.site] at hruns
      refine ⟨hruns, c, some o, context, hcall, fun m hm => ⟨o, rfl, ?_⟩, hentered⟩
      rwa [← Option.some.inj hm]

/-- What a pass that adds nothing leaves is all that can be derived. -/
theorem found_of_derives {fact : FlowFact} (hd : P.Derives fact) :
    P.Found objects reached r fact := by
  induction hd with
  | root hf => exact h.roots _ hf
  | alloc _ hflow hr =>
      obtain ⟨con, hcon, hmeans⟩ := h.exists_constraint hr hflow
      cases hmeans with
      | alloc ho hdest => exact ⟨_, _, hdest, ho, h.holds _ hcon⟩
  | copy _ hflow _ hr ho =>
      obtain ⟨con, hcon, hmeans⟩ := h.exists_constraint hr hflow
      cases hmeans with
      | copy hsource hdest =>
          obtain ⟨o, ho, hmade⟩ := h.mem_objects ho hsource
          exact ⟨_, o, hdest, hmade, h.holds _ hcon o ho⟩
  | load _ hflow _ _ hr ha ho =>
      obtain ⟨con, hcon, hmeans⟩ := h.exists_constraint hr hflow
      cases hmeans with
      | load hbase field hdest =>
          obtain ⟨a, ha, hbase⟩ := h.mem_objects ha hbase
          obtain ⟨b, o, hb, hmade, ho⟩ := ho
          cases h.proper.creation?_injective hbase hb
          exact ⟨_, o, hdest, hmade, h.holds _ hcon a ha o ho⟩
  | store _ hflow _ _ hr ha ho =>
      obtain ⟨con, hcon, hmeans⟩ := h.exists_constraint hr hflow
      cases hmeans with
      | store hbase field hsource =>
          obtain ⟨a, ha, hbase⟩ := h.mem_objects ha hbase
          obtain ⟨o, ho, hmade⟩ := h.mem_objects ho hsource
          exact ⟨a, o, hbase, hmade, h.holds _ hcon a ha o ho⟩
  | static _ hflow htarget ht hr =>
      obtain ⟨c, hcon, hcall⟩ := h.exists_call hr hflow
      have hsame := hcall.target
      have hran := h.ran c hcon
      rw [htarget] at hsame
      unfold Ran at hran
      generalize c.target = target at hsame hran
      cases hsame with
      | static =>
          obtain ⟨context, hentered⟩ := hran _ ht
          exact ⟨c, none, context, hcall, fun m hm => (Option.not_mem_none m hm).elim, hentered⟩
  | construct _ hflow htarget hr =>
      obtain ⟨c, hcon, hcall⟩ := h.exists_call hr hflow
      have hsame := hcall.target
      have hran := h.ran c hcon
      rw [htarget] at hsame
      unfold Ran at hran
      generalize c.target = target at hsame hran
      cases hsame with
      | construct ho => exact ⟨_, _, hcall.result, ho, hran.1⟩
  | init _ hflow htarget hr =>
      obtain ⟨c, hcon, hcall⟩ := h.exists_call hr hflow
      have hsame := hcall.target
      have hran := h.ran c hcon
      rw [htarget] at hsame
      unfold Ran at hran
      generalize c.target = target at hsame hran
      cases hsame with
      | construct ho =>
          obtain ⟨context, hentered⟩ := hran.2 _ rfl
          refine ⟨c, _, context, hcall, fun m hm => ⟨_, rfl, ?_⟩, hentered⟩
          rwa [← Option.some.inj hm]
  | dispatch _ hflow htarget _ ht hr ho => exact (h.found_dispatch hr hflow htarget ho ht).2
  | target _ hflow htarget _ ht hr ho => exact (h.found_dispatch hr hflow htarget ho ht).1
  | reach _ hd =>
      obtain ⟨c, receiver, context, hcall, -, hentered⟩ := hd
      exact ⟨context, hentered.path _ hcall.context, h.entered hentered.reached⟩
  | receiver _ hparams hd =>
      obtain ⟨c, receiver, context, hcall, hreceiver, hentered⟩ := hd
      obtain ⟨o, ho, hmade⟩ := hreceiver _ rfl
      exact ⟨_, o, Numbering.place?_named (hentered.path _ hcall.context) _ _, hmade,
        hentered.receiver o ho _ _ hparams⟩
  | arg _ hpair _ hd ho =>
      obtain ⟨c, receiver, context, hcall, -, hentered⟩ := hd
      obtain ⟨v, hv, hmem⟩ := exists_of_mem_zip hcall.args.flip _ hpair
      obtain ⟨o, ho, hmade⟩ := h.mem_objects ho hv
      exact ⟨_, o, Numbering.place?_named (hentered.path _ hcall.context) _ _, hmade,
        hentered.args _ hmem o ho⟩
  | result _ _ hd ho =>
      obtain ⟨c, receiver, context, hcall, -, hentered⟩ := hd
      obtain ⟨o, ho, hmade⟩ := h.mem_objects ho
        (Numbering.place?_result (hentered.path _ hcall.context) _)
      exact ⟨_, o, hcall.result, hmade, hentered.result o ho⟩

end Found

end FlowProgram

end ValueFlow
