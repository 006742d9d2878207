import ValueFlow.Proofs.PointsTo.Growth
import ValueFlow.Proofs.PointsTo.Numbering
/-!
A pass over constraints finds nothing that cannot be derived.

Main statement: `sound_run`, if all constraints stand for flows of functions that can be reached,
then all facts and all functions that a pass adds can be derived.
-/

namespace ValueFlow

open Numbering (Says SaysCall)

namespace PointerPass

/-- Gives the first parameter of a function its receiver. -/
def receive (index : ProgramIndex) (receiver : Option Nat) (function context : Nat)
    (f : PointerFacts) : PointerFacts :=
  match receiver, index.params function with
  | some object, self :: _ => f.addVar (.named function context self) (.singleton object)
  | _, _ => f

/-- Gives the parameters of a function their arguments. -/
def passArgs (names : List String) (function context : Nat) (args : List PointerVar)
    (f : PointerFacts) : PointerFacts :=
  (args.zip names).foldl (fun f q => f.copy q.1 (.named function context q.2)) f

theorem enter_eq (scene : PointerScene) (call : PointerCall) (receiver : Option Nat) (skip : Nat)
    (p : PointerPass) (function : Nat) : enter scene call receiver skip p function =
      { facts := (passArgs ((scene.index.params function).drop skip) function
          (p.contexts.push call.context function).1 call.args
          (receive scene.index receiver function (p.contexts.push call.context function).1
            p.facts)).copy (.result function (p.contexts.push call.context function).1) call.result
        contexts := (p.contexts.push call.context function).2
        reached := (function, (p.contexts.push call.context function).1) :: p.reached } := rfl

end PointerPass

namespace FlowProgram

variable {P : FlowProgram} {N M : Numbering} {f : PointerFacts} {v source dest base : PointerVar}
  {field : PointerField}

/-- Whether a variable stands for a place that may refer to what an object stands for. -/
def Refers (P : FlowProgram) (N : Numbering) (v : PointerVar) (object : Nat) : Prop :=
  ∃ place made, N.place? v = some place ∧ N.creation? object = some made ∧
    P.Derives (.refers place made)

/-- Whether an object stands for one whose field may refer to what another stands for. -/
def Holds (P : FlowProgram) (N : Numbering) (a : Nat) (field : PointerField) (object : Nat) : Prop :=
  ∃ base made, N.creation? a = some base ∧ N.creation? object = some made ∧
    P.Derives (.holds base field made)

open PointerFacts (Filled filled_empty)

/-- Whether all facts can be derived, and no place has an entry without a fact. -/
structure Allows (P : FlowProgram) (N : Numbering) (f : PointerFacts) : Prop where
  var : ∀ ⦃v object⦄, object ∈ f.objects v → P.Refers N v object
  field : ∀ ⦃a field object⦄, object ∈ f.held a field → P.Holds N a field object
  target : ∀ ⦃site t : Nat⦄, t ∈ f.targets.getD site ∅ → P.Derives (.runs site t)
  filled : Filled f.vars ∧ Filled f.fields ∧ Filled f.targets

theorem allows_empty : P.Allows N .empty where
  var _ _ h := absurd h SortedSet.not_mem_empty
  field _ _ _ h := absurd h SortedSet.not_mem_empty
  target _ _ h := absurd h SortedSet.not_mem_empty
  filled := ⟨filled_empty, filled_empty, filled_empty⟩

theorem Refers.mono {object : Nat} (h : P.Refers N v object) (hNM : N.Extends M) :
    P.Refers M v object := by
  obtain ⟨place, made, hplace, hmade, hd⟩ := h
  exact ⟨place, made, hNM.place? hplace, hNM.creation? hmade, hd⟩

theorem Allows.mono (h : P.Allows N f) (hNM : N.Extends M) : P.Allows M f where
  var _ _ ho := (h.var ho).mono hNM
  field := by
    intro a field object ho
    obtain ⟨base, made, hbase, hmade, hd⟩ := h.field ho
    exact ⟨base, made, hNM.creation? hbase, hNM.creation? hmade, hd⟩
  target := h.target
  filled := h.filled

theorem Allows.addVar (h : P.Allows N f) {objects : SortedSet Nat}
    (hobjects : ∀ o ∈ objects, P.Refers N v o) : P.Allows N (f.addVar v objects) where
  var := by
    intro w o ho
    rcases PointerFacts.mem_grow.1 ho with hold | ⟨rfl, hnew⟩
    · exact h.var hold
    · exact hobjects o hnew
  field := h.field
  target := h.target
  filled := ⟨h.filled.1.grow _ _, h.filled.2⟩

theorem Allows.addField (h : P.Allows N f) {a : Nat} {objects : SortedSet Nat}
    (hobjects : ∀ o ∈ objects, P.Holds N a field o) : P.Allows N (f.addField a field objects) where
  var := h.var
  field := by
    intro b x o ho
    rcases PointerFacts.mem_grow.1 ho with hold | ⟨heq, hnew⟩
    · exact h.field hold
    · cases heq
      exact hobjects o hnew
  target := h.target
  filled := ⟨h.filled.1, h.filled.2.1.grow _ _, h.filled.2.2⟩

theorem Allows.addTarget (h : P.Allows N f) {site t : Nat} (ht : P.Derives (.runs site t)) :
    P.Allows N (f.addTarget site t) where
  var := h.var
  field := h.field
  target := by
    intro s u hu
    rcases PointerFacts.mem_grow.1 hu with hold | ⟨rfl, hnew⟩
    · exact h.target hold
    · rw [SortedSet.mem_singleton.1 hnew]
      exact ht
  filled := ⟨h.filled.1, h.filled.2.1, h.filled.2.2.grow _ _⟩

theorem Allows.addOne (h : P.Allows N f) {object : Nat} {place : Place} {made : Creation}
    (hv : N.place? v = some place) (hobject : N.creation? object = some made)
    (hd : P.Derives (.refers place made)) : P.Allows N (f.addVar v (.singleton object)) := by
  refine h.addVar fun o ho => ?_
  rw [SortedSet.mem_singleton.1 ho]
  exact ⟨place, made, hv, hobject, hd⟩

/-- A copy adds only what can be derived, if the source's references can be passed on. -/
theorem Allows.copy (h : P.Allows N f) {a b : Place} (hsource : N.place? source = some a)
    (hdest : N.place? dest = some b)
    (hd : ∀ made, P.Derives (.refers a made) → P.Derives (.refers b made)) :
    P.Allows N (f.copy source dest) := by
  refine h.addVar fun o ho => ?_
  obtain ⟨place, made, hplace, hmade, ho⟩ := h.var ho
  cases hsource.symm.trans hplace
  exact ⟨b, made, hdest, hmade, hd made ho⟩

theorem Allows.load (h : P.Allows N f) {a b : Place} (hbase : N.place? base = some a)
    (hdest : N.place? dest = some b)
    (hd : ∀ holder made, P.Derives (.refers a holder) → P.Derives (.holds holder field made) →
      P.Derives (.refers b made)) : P.Allows N (f.load base field dest) := by
  refine List.foldlRecOn (motive := fun g => P.Allows N g) _ _ h fun g hg holder hholder => ?_
  obtain ⟨place, m, hplace, hm, hrefers⟩ := h.var hholder
  cases hbase.symm.trans hplace
  refine hg.addVar fun o ho => ?_
  obtain ⟨m', made, hm', hmade, hholds⟩ := hg.field ho
  cases hm.symm.trans hm'
  exact ⟨b, made, hdest, hmade, hd m made hrefers hholds⟩

theorem Allows.store (h : P.Allows N f) {a b : Place} (hbase : N.place? base = some a)
    (hsource : N.place? source = some b)
    (hd : ∀ holder made, P.Derives (.refers a holder) → P.Derives (.refers b made) →
      P.Derives (.holds holder field made)) : P.Allows N (f.store base field source) := by
  refine List.foldlRecOn (motive := fun g => P.Allows N g) _ _ h fun g hg holder hholder => ?_
  obtain ⟨place, m, hplace, hm, hrefers⟩ := h.var hholder
  cases hbase.symm.trans hplace
  refine hg.addField fun o ho => ?_
  obtain ⟨place', made, hplace', hmade, ho⟩ := h.var ho
  cases hsource.symm.trans hplace'
  exact ⟨m, made, hm, hmade, hd m made hrefers ho⟩

/-- What is known of the program while the objects are as given. -/
def scene (P : FlowProgram) (objects : Array HeapObject) : PointerScene :=
  ⟨P.index, P.classes, objects⟩

theorem method?_eq {object : Nat} {made : Creation} (hmade : N.creation? object = some made)
    (method : String) : (P.scene N.objects).method? method object = P.method? method made := by
  obtain ⟨o, ho, h⟩ := Option.bind_eq_some_iff.1 hmade
  obtain ⟨κ, -, h⟩ := Option.bind_eq_some_iff.1 h
  cases h
  show (N.objects[object]?).bind _ = _
  rw [ho]
  rfl

/-- Whether all that a pass has found so far can be derived, with numbers that keep the meaning
they had before. -/
structure Sound (P : FlowProgram) (N : Numbering) (p : PointerPass) : Prop where
  contexts : p.contexts.Proper P.depth
  keeps : N.contexts.Extends p.contexts
  facts : P.Allows ⟨p.contexts, N.objects⟩ p.facts
  reached : ∀ q ∈ p.reached, ∃ κ, p.contexts.paths[q.2]? = some κ ∧ P.Derives (.reached q.1 κ)

variable {p : PointerPass}

theorem Sound.extends (h : P.Sound N p) : N.Extends ⟨p.contexts, N.objects⟩ :=
  ⟨h.keeps, fun _ _ ho => ho⟩

theorem Sound.update (h : P.Sound N p) {change : PointerFacts → PointerFacts}
    (hchange : P.Allows ⟨p.contexts, N.objects⟩ (change p.facts)) : P.Sound N (p.update change) :=
  ⟨h.contexts, h.keeps, hchange, h.reached⟩

variable {c : PointerCall} {d : FlowCall}

/-- The context of a function that a call enters. -/
theorem push_spec {t : ContextTable} (ht : t.Proper P.depth) {κ : List Nat}
    (hc : t.paths[c.context]? = some κ) (function : Nat) :
    (t.push c.context function).2.Proper P.depth ∧
      (t.push c.context function).2.paths[(t.push c.context function).1]? =
        some (P.push κ function) := by
  have hpath : t.path c.context = κ := by
    rw [ContextTable.path, Array.getD_eq_getD_getElem?, hc]
    rfl
  rw [ContextTable.push, hpath]
  exact ht.intern _

/-- Arguments that correspond are paired with the same parameters. -/
theorem exists_of_mem_zip {α β : Type} {R : α → β → Prop} {as : List α} {bs : List β}
    {names : List String} (h : List.Forall₂ R as bs) :
    ∀ q ∈ as.zip names, ∃ b, R q.1 b ∧ (b, q.2) ∈ bs.zip names := by
  induction h generalizing names with
  | nil => exact fun q hq => nomatch hq
  | cons hab _ ih =>
      cases names with
      | nil => exact fun q hq => nomatch hq
      | cons x names =>
          intro q hq
          rcases List.mem_cons.1 hq with rfl | hq
          · exact ⟨_, hab, List.mem_cons_self⟩
          · obtain ⟨b, hb, hmem⟩ := ih q hq
            exact ⟨b, hb, List.mem_cons_of_mem _ hmem⟩

section Enter

variable {t context skip : Nat} {made : Option Creation} (hd : P.Derives (.enters d made skip t))
  (hcontext : N.contexts.paths[context]? = some (P.push d.context t))
include hd hcontext

theorem Allows.receive (h : P.Allows N f) {receiver : Option Nat}
    (hreceiver : ∀ o ∈ receiver, ∃ m, made = some m ∧ N.creation? o = some m) :
    P.Allows N (PointerPass.receive P.index receiver t context f) := by
  unfold PointerPass.receive
  split
  · next object self rest hparams =>
      obtain ⟨m, rfl, hm⟩ := hreceiver object rfl
      exact h.addOne (Numbering.place?_named hcontext t self) hm (.receiver hd hparams)
  · exact h

theorem Allows.passArgs (h : P.Allows N f) {args : List PointerVar}
    (hargs : List.Forall₂ (fun v place => N.place? v = some place) args d.args) :
    P.Allows N (PointerPass.passArgs ((P.index.params t).drop skip) t context args f) := by
  refine List.foldlRecOn (motive := fun g => P.Allows N g) _ _ h fun g hg q hq => ?_
  obtain ⟨place, hplace, hmem⟩ := exists_of_mem_zip hargs q hq
  exact hg.copy hplace (Numbering.place?_named hcontext t q.2) fun made ho => .arg hd hmem ho

end Enter

theorem Sound.enter (h : P.Sound N p) (hcall : SaysCall N c d) {receiver : Option Nat}
    {made : Option Creation}
    (hreceiver : ∀ o ∈ receiver, ∃ m, made = some m ∧ N.creation? o = some m) {skip t : Nat}
    (hd : P.Derives (.enters d made skip t)) :
    P.Sound N (p.enter (P.scene N.objects) c receiver skip t) := by
  obtain ⟨hproper, hpath⟩ := push_spec h.contexts (h.keeps hcall.context) t
  have hextends : p.contexts.Extends (p.contexts.push c.context t).2 :=
    ContextTable.extends_intern _ _
  have hNp : Numbering.Extends ⟨p.contexts, N.objects⟩
      ⟨(p.contexts.push c.context t).2, N.objects⟩ := ⟨hextends, fun _ _ ho => ho⟩
  have hN := h.extends.trans hNp
  have hcall := hN.saysCall hcall
  rw [PointerPass.enter_eq]
  refine ⟨hproper, h.keeps.trans hextends, ?_, ?_⟩
  · refine (((h.facts.mono hNp).receive hd hpath ?_).passArgs hd hpath hcall.args).copy ?_
      hcall.result fun made ho => .result hd ho
    · intro o ho
      obtain ⟨m, hm, hcreation⟩ := hreceiver o ho
      exact ⟨m, hm, hN.creation? hcreation⟩
    · exact Numbering.place?_result hpath t
  · intro q hq
    rcases List.mem_cons.1 hq with rfl | hq
    · exact ⟨_, hpath, .reach hd⟩
    · obtain ⟨κ, hκ, hr⟩ := h.reached q hq
      exact ⟨κ, hextends hκ, hr⟩

/-- The numbers of a pass may be taken as those it started with. -/
theorem Sound.rebase (h : P.Sound N p) : P.Sound ⟨p.contexts, N.objects⟩ p :=
  ⟨h.contexts, .refl _, h.facts, h.reached⟩

theorem Sound.of_rebase {q : PointerPass} (h : P.Sound N p)
    (hq : P.Sound ⟨p.contexts, N.objects⟩ q) : P.Sound N q :=
  ⟨hq.contexts, h.keeps.trans hq.keeps, hq.facts, hq.reached⟩

section Flows

variable {function : Nat} {κ : List Nat} (hr : P.Derives (.reached function κ))
include hr

theorem Sound.dispatch (h : P.Sound N p) (hcall : SaysCall N c d)
    (hflow : .call d ∈ P.flows function κ) {method : String} {place : Place}
    (hd : d.target = .dispatch method place) {object : Nat} {made : Creation}
    (hmade : N.creation? object = some made) (hrefers : P.Derives (.refers place made)) :
    P.Sound N (p.dispatch (P.scene N.objects) c method object) := by
  unfold PointerPass.dispatch
  rw [method?_eq hmade]
  split
  · next t ht =>
      have htarget : P.Sound N (p.update (·.addTarget c.site t)) := by
        refine h.update (h.facts.addTarget ?_)
        rw [hcall.site]
        exact .target hr hflow hd hrefers ht
      refine htarget.enter hcall (fun o ho => ⟨made, rfl, ?_⟩) (.dispatch hr hflow hd hrefers ht)
      rwa [← Option.some.inj ho]
  · exact h

theorem Sound.call (h : P.Sound N p) (hcall : SaysCall N c d)
    (hflow : .call d ∈ P.flows function κ) : P.Sound N (p.call (P.scene N.objects) c) := by
  have htarget := hcall.target
  unfold PointerPass.call
  generalize hc : c.target = target at htarget
  generalize hd : d.target = target' at htarget
  cases htarget with
  | static functions =>
      exact List.foldlRecOn (motive := fun p => P.Sound N p) _ _ h fun q hq t ht =>
        hq.enter hcall (fun o ho => (Option.not_mem_none o ho).elim) (.static hr hflow hd ht)
  | @construct object made hmade constructor =>
      have hnew : P.Sound N (p.update (·.addVar c.result (.singleton object))) :=
        h.update (h.facts.addOne (h.extends.place? hcall.result) (h.extends.creation? hmade)
          (.construct hr hflow hd))
      refine List.foldlRecOn (motive := fun p => P.Sound N p) _ _ hnew fun q hq t ht => ?_
      rw [Option.mem_toList.1 ht] at hd
      refine hq.enter hcall (fun o ho => ⟨made, rfl, ?_⟩) (.init hr hflow hd)
      rwa [← Option.some.inj ho]
  | @dispatch method receiver place hplace =>
      -- The receiver objects are those known before the call, with the numbers they have then.
      have hcall' : SaysCall ⟨p.contexts, N.objects⟩ c d := h.extends.saysCall hcall
      refine h.of_rebase (List.foldlRecOn (motive := fun q => P.Sound ⟨p.contexts, N.objects⟩ q)
        _ _ h.rebase fun q hq object ho => ?_)
      obtain ⟨place', made, hplace', hmade, hrefers⟩ := h.facts.var ho
      cases (h.extends.place? hplace).symm.trans hplace'
      exact hq.dispatch hr hcall' hflow hd hmade hrefers

theorem Sound.apply (h : P.Sound N p) {con : Constraint} {flow : Flow} (hmeans : Says N con flow)
    (hflow : flow ∈ P.flows function κ) : P.Sound N (p.apply (P.scene N.objects) con) := by
  have hN := h.extends
  cases hmeans with
  | alloc ho hdest =>
      rw [PointerPass.apply]
      apply h.update
      exact h.facts.addOne (hN.place? hdest) (hN.creation? ho) (.alloc hr hflow)
  | copy hsource hdest =>
      rw [PointerPass.apply]
      apply h.update
      exact h.facts.copy (hN.place? hsource) (hN.place? hdest) fun _ ho => .copy hr hflow ho
  | load hbase field hdest =>
      rw [PointerPass.apply]
      apply h.update
      exact h.facts.load (hN.place? hbase) (hN.place? hdest) fun _ _ ha ho => .load hr hflow ha ho
  | store hbase field hsource =>
      rw [PointerPass.apply]
      apply h.update
      exact h.facts.store (hN.place? hbase) (hN.place? hsource)
        fun _ _ ha ho => .store hr hflow ha ho
  | call hcall => exact h.call hr hcall hflow

end Flows

/-- A pass over constraints that stand for flows of functions that can be reached finds only what
can be derived. -/
theorem sound_run {constraints : List Constraint} {facts : PointerFacts}
    (hcontexts : N.contexts.Proper P.depth) (hfacts : P.Allows N facts)
    (hconstraints : ∀ con ∈ constraints, ∃ function κ flow, P.Derives (.reached function κ) ∧
      flow ∈ P.flows function κ ∧ Says N con flow) :
    P.Sound N (.run (P.scene N.objects) constraints facts N.contexts) := by
  refine List.foldlRecOn (motive := fun p => P.Sound N p) _ _
    ⟨hcontexts, .refl _, hfacts, fun _ hq => nomatch hq⟩ fun p hp con hcon => ?_
  obtain ⟨function, κ, flow, hr, hflow, hmeans⟩ := hconstraints con hcon
  exact hp.apply hr hmeans hflow

end FlowProgram

end ValueFlow
