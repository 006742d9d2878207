import ValueFlow.Proofs.CallGraph.Bindings
import ValueFlow.Proofs.FlowGraph.Places
import ValueFlow.Proofs.FlowGraph.Simulation
import ValueFlow.Proofs.Objects.References
import ValueFlow.Proofs.Objects.States
/-!
Runs refer to nothing that the analysis of references does not know.

A run of a body is on a call path. As long as what it refers to is known for the path, the same
holds after every step, and what a function returns is known for the call. The functions considered
here leave all objects as they are.
-/

namespace ValueFlow

namespace World

variable {σ σ' τ : World} {may may' : Nat → Prop} {d : Datum}

/-- Whether a value is no object, or one of a constructor call of which something holds. -/
def Among (σ : World) (may : Nat → Prop) (d : Datum) : Prop :=
  ∀ l, d = .object l → ∃ site, σ.sites[l]? = some site ∧ may site

theorem among_scalar (σ : World) (may : Nat → Prop) (u : Scalar) : σ.Among may (.scalar u) :=
  fun _ h => nomatch h

theorem Among.mono (h : σ.Among may d) (hsub : ∀ site, may site → may' site) :
    σ.Among may' d := by
  intro l hl
  obtain ⟨site, hsite, hmay⟩ := h l hl
  exact ⟨site, hsite, hsub site hmay⟩

theorem Among.extend (h : σ.Among may d) (hext : σ.Extends σ') : σ'.Among may d := by
  intro l hl
  obtain ⟨site, hsite, hmay⟩ := h l hl
  exact ⟨site, hext.getElem? hsite, hmay⟩

/-- Whether two points of a run have the same objects with the same fields. -/
structure SameObjects (σ σ' : World) : Prop where
  sites : σ'.sites = σ.sites
  fields : σ'.fields = σ.fields

theorem SameObjects.refl (σ : World) : σ.SameObjects σ := ⟨rfl, rfl⟩

theorem SameObjects.trans (h : σ.SameObjects σ') (h' : σ'.SameObjects τ) : σ.SameObjects τ :=
  ⟨h'.sites.trans h.sites, h'.fields.trans h.fields⟩

theorem SameObjects.extends (h : σ.SameObjects σ') (hvars : σ'.vars = σ.vars) : σ.Extends σ' :=
  ⟨hvars, h.sites ▸ List.prefix_rfl, fun _ _ => by rw [h.fields]⟩

theorem SameObjects.among (h : σ.SameObjects σ') (hd : σ.Among may d) : σ'.Among may d := by
  rw [Among, h.sites]
  exact hd

end World

/-- Where a body runs: its function, the call path, and the names of the module, if they are not
those of the moment. -/
structure Activation where
  function : Nat
  context : List Nat
  globals : Option (String → Option Named)

namespace Activation

variable (a : Activation)

/-- What the names of the module stand for. -/
def moduleNames (σ : World) : String → Option Named := a.globals.getD σ.vars

/-- What calls do, down to a depth of calls. -/
def call (p : Program) (n : Nat) : Nat → String → List Datum → Exec Datum :=
  fun node name ds σ => p.invoke n (a.moduleNames σ) node name ds σ

end Activation

namespace Meaning

/-- A run that goes on after a step had not halted before it, and the step succeeded. -/
theorem running_of_perform {x : Exec Unit} {σ : World} (h : (perform x σ).halted = false) :
    σ.halted = false ∧ x σ = (some (), perform x σ) := by
  unfold perform at h ⊢
  split at h
  · next hhalted => cases hhalted.symm.trans h
  · next hrunning =>
      refine ⟨Bool.eq_false_iff.2 hrunning, ?_⟩
      rw [if_neg hrunning]
      rcases hx : x.run σ with ⟨_ | u, τ⟩
      · rw [hx] at h
        cases h
      · exact hx

theorem eq_of_decided {σ σ' : World} {o : Bool} (h : decided σ = some (o, σ')) : σ = σ' := by
  unfold decided at h
  split at h
  · cases h
  · exact congrArg Prod.snd (Option.some.inj h)

end Meaning

namespace FlowProgram

variable {P : FlowProgram} {a : Activation} {σ σ' : World} {x : String} {d : Datum}

abbrev at_ (P : FlowProgram) (a : Activation) : Frame := P.frame a.function a.context

/-- Whether a function may run where an activation is. -/
structure Places (P : FlowProgram) (a : Activation) : Prop where
  reached : P.Derives (.reached a.function a.context)
  ofModule : a.globals = none → a.function = moduleId ∧ a.context = P.root moduleId

/-- Whether all references in a point of a run are known. -/
structure Admits (P : FlowProgram) (a : Activation) (σ : World) : Prop where
  var : ∀ {x d}, σ.datum? x = some d → σ.Among (P.MayRefer ((P.at_ a).var x)) d
  global : ∀ {x d}, a.moduleNames σ x = some (.datum d) →
    σ.Among (P.MayRefer (.named moduleId (P.root moduleId) x)) d
  field : ∀ {l site : Nat} {x d}, σ.sites[l]? = some site → σ.fields l x = some d →
    σ.Among (P.MayHold site (.attr x)) d

theorem Places.var_eq (h : P.Places a) (hnone : a.globals = none) (x : String) :
    (P.at_ a).var x = .named moduleId (P.root moduleId) x := by
  obtain ⟨hfunction, hcontext⟩ := h.ofModule hnone
  rw [at_, hfunction, hcontext]
  rfl

theorem Admits.congr (h : P.Admits a σ) (hvars : σ'.vars = σ.vars) (hsame : σ.SameObjects σ') :
    P.Admits a σ' where
  var hx := by
    rw [World.datum?, hvars] at hx
    exact hsame.among (h.var hx)
  global hx := by
    rw [Activation.moduleNames, hvars] at hx
    exact hsame.among (h.global hx)
  field hl hd := by
    rw [hsame.sites] at hl
    rw [hsame.fields] at hd
    exact hsame.among (h.field hl hd)

theorem Admits.create (h : P.Admits a σ) (site : Nat) : P.Admits a (σ.create site) where
  var hx := (h.var hx).extend (World.extends_create σ site)
  global hx := (h.global hx).extend (World.extends_create σ site)
  field := by
    intro l t x d hl hd
    rcases World.getElem?_create hl with hold | ⟨rfl, -⟩
    · rw [(World.extends_create σ site).field hold] at hd
      exact (h.field hold hd).extend (World.extends_create σ site)
    · simp [World.create] at hd

/-- Binding a name of the body to what it may refer to, or to nothing. -/
theorem Admits.bind (h : P.Admits a σ) (hplaced : P.Places a) {b : Named}
    (hb : ∀ d, b = .datum d → σ.Among (P.MayRefer ((P.at_ a).var x)) d) :
    P.Admits a (σ.set x b) where
  var := by
    intro y e hy
    rw [World.datum?_set] at hy
    split at hy
    · next heq =>
        subst heq
        cases b with
        | datum e' =>
            cases hy
            exact hb e rfl
        | callable => cases hy
    · exact h.var hy
  global := by
    intro y e hy
    cases hglobals : a.globals with
    | some names =>
        refine h.global (x := y) ?_
        rw [Activation.moduleNames, hglobals] at hy ⊢
        exact hy
    | none =>
        rw [Activation.moduleNames, hglobals] at hy
        replace hy : (if y = x then some b else σ.vars y) = some (.datum e) := hy
        split at hy
        · next heq =>
            rw [heq, ← hplaced.var_eq hglobals]
            exact hb e (Option.some.inj hy)
        · refine h.global (x := y) ?_
          rw [Activation.moduleNames, hglobals]
          exact hy
  field := h.field

theorem Admits.setField (h : P.Admits a σ) {l site : Nat} (hl : σ.sites[l]? = some site)
    (hd : σ.Among (P.MayHold site (.attr x)) d) : P.Admits a (σ.setField l x d) where
  var hy := h.var hy
  global hy := h.global hy
  field := by
    intro m t y e hm he
    have hm : σ.sites[m]? = some t := hm
    rw [World.fields_setField] at he
    split at he
    · next heq =>
        obtain ⟨rfl, rfl⟩ := heq
        cases he
        cases hm.symm.trans hl
        exact hd
    · exact h.field hm he

end FlowProgram

/-- A function that returns ends without an error, at the end of its body or at a `return`. -/
theorem FunctionDef.result?_eq_some {r : Ran World} {u : Datum} (h : result? r = some u) :
    r.state.halted = false ∧
      (r.ending = .done ∧ u = .null ∨ r.ending = .returned ∧ r.state.datum? returnSlot = some u) := by
  unfold result? at h
  split at h
  · cases h
  · next hrunning =>
      refine ⟨Bool.eq_false_iff.2 hrunning, ?_⟩
      split at h
      · next hend => exact .inl ⟨hend, (Option.some.inj h).symm⟩
      · next hend => exact .inr ⟨hend, h⟩
      · cases h

namespace Program

variable {p : Program} {n : Nat} {globals : String → Option Named} {node : Nat} {name : String}
  {ds : List Datum} {σ : World}

/-- The run of the body of a function that is called. -/
def bodyRun (p : Program) (n : Nat) (globals : String → Option Named) (f : FunctionDef)
    (ds : List Datum) (σ : World) : Ran World :=
  (Meaning.objects (p.invoke n globals)).runBody n f.body
    { σ with vars := f.entryVars globals ds }

/-- A call of a class makes an object or fails. -/
theorem invoke_class (hclass : name ∈ p.classes.map ClassDef.name) :
    p.invoke n globals node name ds σ = (none, σ) ∨
      p.invoke n globals node name ds σ = (some (.object σ.sites.length), σ.create node) := by
  unfold invoke
  by_cases hname : globals name = some .callable
  · rw [if_pos hname, if_pos hclass]
    cases ds with
    | nil => exact .inr rfl
    | cons => exact .inl rfl
  · rw [if_neg hname]
    exact .inl rfl

/-- A call of a function runs its body or fails. -/
theorem invoke_function {f : FunctionDef} (hclass : name ∉ p.classes.map ClassDef.name)
    (hf : p.function? name = some f) :
    p.invoke n globals node name ds σ = (none, σ) ∨
      ∃ m, n = m + 1 ∧ ds.length = f.params.length ∧
        p.invoke n globals node name ds σ = (FunctionDef.result? (p.bodyRun m globals f ds σ),
          { (p.bodyRun m globals f ds σ).state with vars := σ.vars, halted := false }) := by
  unfold invoke
  by_cases hname : globals name = some .callable
  · rw [if_pos hname, if_neg hclass]
    cases n with
    | zero => exact .inl rfl
    | succ m =>
        rw [hf]
        dsimp only
        split
        · next hlength => exact .inr ⟨m, rfl, hlength, rfl⟩
        · exact .inl rfl
  · rw [if_neg hname]
    exact .inl rfl

end Program

namespace FlowProgram

variable {P : FlowProgram} {p : Program} {a : Activation} {n : Nat} {σ σ' τ : World} {d : Datum}

/-- Whether a run came from one known point to another by making objects at most, and in a function
without making any. -/
structure Leads (P : FlowProgram) (a : Activation) (σ σ' : World) : Prop where
  admits : P.Admits a σ'
  extended : σ.Extends σ'
  same : a.function ≠ moduleId → σ.SameObjects σ'

theorem Leads.refl (h : P.Admits a σ) : P.Leads a σ σ := ⟨h, .refl σ, fun _ => .refl σ⟩

theorem Leads.trans (h : P.Leads a σ σ') (h' : P.Leads a σ' τ) : P.Leads a σ τ :=
  ⟨h'.admits, h.extended.trans h'.extended, fun ha => (h.same ha).trans (h'.same ha)⟩

theorem Leads.of_same (h : P.Admits a σ) (hvars : σ'.vars = σ.vars) (hsame : σ.SameObjects σ') :
    P.Leads a σ σ' :=
  ⟨h.congr hvars hsame, hsame.extends hvars, fun _ => hsame⟩

/-- Whether a body is about to call a function with arguments of which all references are known. -/
structure Calls (P : FlowProgram) (p : Program) (a : Activation) (node : Nat) (name : String)
    (j : Nat) (f : FunctionDef) (places : List Place) (result : Place) (ds : List Datum)
    (σ : World) : Prop where
  placed : P.Places a
  runs : p.Runs node name j f
  flow : .call ⟨node, a.context, .static [j], places, result⟩ ∈ P.flows a.function a.context
  admits : P.Admits a σ
  args : List.Forall₂ (fun place d => σ.Among (P.MayRefer place) d) places ds

/-- Whether the functions that are called leave the run as it is and return what is known of the
call. -/
def CallsLead (P : FlowProgram) (p : Program) (n : Nat) (a : Activation) : Prop :=
  ∀ {node name j f places result ds σ u σ'}, P.Calls p a node name j f places result ds σ →
    a.call p n node name ds σ = (some u, σ') →
    (σ'.vars = σ.vars ∧ σ.SameObjects σ') ∧ σ'.Among (P.MayRefer result) u

/-- Whether the flows of an expression are among those of an activation. -/
def HasFlows (P : FlowProgram) (p : Program) (a : Activation) (e : Expr) : Prop :=
  ∀ flow ∈ (P.at_ a).exprFlows p.calls e, flow ∈ P.flows a.function a.context

theorem HasFlows.operand {e c : Expr} (h : P.HasFlows p a e) (hc : c ∈ e.operands) :
    P.HasFlows p a c :=
  fun flow hflow => h flow (Frame.mem_exprFlows_iff.2 (.inr ⟨c, hc, hflow⟩))

theorem HasFlows.own {e : Expr} (h : P.HasFlows p a e) {flow : Flow}
    (hflow : flow ∈ (P.at_ a).ownFlows p.calls e) : flow ∈ P.flows a.function a.context :=
  h flow (Frame.mem_exprFlows_iff.2 (.inl hflow))

theorem MayRefer.copy (hplaced : P.Places a) {source dest : Place} {site : Nat}
    (hflow : .copy source dest ∈ P.flows a.function a.context) (h : P.MayRefer source site) :
    P.MayRefer dest site := by
  obtain ⟨made, hsite, hd⟩ := h
  exact ⟨made, hsite, .copy hplaced.reached hflow hd⟩

section Expressions

/-- Evaluating expressions in turn gives what they may refer to, if this holds of each. -/
theorem leads_execAll {es : List Expr} {ds : List Datum} (hes : ∀ e ∈ es, ∀ {σ d σ'},
      P.Admits a σ → e.exec (a.call p n) σ = (some d, σ') →
      P.Leads a σ σ' ∧ σ'.Among (P.MayRefer ((P.at_ a).value e.id)) d)
    (hσ : P.Admits a σ) (hds : Expr.execAll (a.call p n) es σ = (some ds, σ')) :
    P.Leads a σ σ' ∧ List.Forall₂ (fun place d => σ'.Among (P.MayRefer place) d)
      (es.map fun e => (P.at_ a).value e.id) ds := by
  induction es generalizing σ ds with
  | nil =>
      rw [Expr.execAll] at hds
      cases hds
      exact ⟨.refl hσ, .nil⟩
  | cons e rest ih =>
      rw [Expr.execAll] at hds
      obtain ⟨d, σ₁, hd, hds⟩ := Exec.bind_eq_some hds
      obtain ⟨ds, σ₂, hrest, hds⟩ := Exec.bind_eq_some hds
      cases hds
      obtain ⟨hl, hamong⟩ := hes e List.mem_cons_self hσ hd
      obtain ⟨hr, hall⟩ := ih (fun c hc => hes c (List.mem_cons_of_mem _ hc)) hl.admits hrest
      exact ⟨hl.trans hr, .cons (hamong.extend hr.extended) hall⟩

/-- Where the arguments of a call were evaluated, the function is about to be called. -/
theorem Calls.of_exec {node j id : Nat} {name : String} {f : FunctionDef} {args : List Expr}
    {ds : List Datum} (hplaced : P.Places a) (hruns : p.Runs node name j f)
    (hflows : P.HasFlows p a (.call node (.name id name) args)) (hσ : P.Admits a σ)
    (hds : List.Forall₂ (fun place d => σ.Among (P.MayRefer place) d)
      (args.map fun e => (P.at_ a).value e.id) ds) :
    P.Calls p a node name j f (args.map fun e => (P.at_ a).value e.id) ((P.at_ a).value node) ds
      σ := by
  refine ⟨hplaced, hruns, hflows.own ?_, hσ, hds⟩
  show _ ∈ (P.at_ a).callFlows p.calls node none _
  rw [Frame.callFlows_runs _ hruns.site]
  exact List.mem_cons_self

variable (hplaced : P.Places a) (hcalls : P.CallsLead p n a)
  (hunique : ∀ {made made' : Creation}, P.Creates made → P.Creates made' →
    made.site = made'.site → made = made')
include hplaced hcalls hunique

/-- Evaluating an expression gives what it may refer to. -/
theorem leads_exec {e : Expr} (he : e.IsPlain p (a.function = moduleId)) (hflows : P.HasFlows p a e)
    (hσ : P.Admits a σ) (hd : e.exec (a.call p n) σ = (some d, σ')) :
    P.Leads a σ σ' ∧ σ'.Among (P.MayRefer ((P.at_ a).value e.id)) d := by
  induction he generalizing σ d σ' with
  | literal id value =>
      rw [Expr.exec] at hd
      obtain ⟨u, -, rfl⟩ := Option.map_eq_some_iff.1 (congrArg Prod.fst hd)
      cases congrArg Prod.snd hd
      exact ⟨.refl hσ, World.among_scalar _ _ u⟩
  | name id x =>
      rw [Expr.exec] at hd
      have hx : σ.datum? x = some d := congrArg Prod.fst hd
      cases congrArg Prod.snd hd
      exact ⟨.refl hσ, (hσ.var hx).mono fun _ =>
        .copy hplaced (hflows.own List.mem_cons_self)⟩
  | binOp id op hleft hright ihl ihr =>
      rw [Expr.exec] at hd
      obtain ⟨u, σ₁, hu, hd⟩ := Exec.bind_eq_some hd
      obtain ⟨v, σ₂, hv, hd⟩ := Exec.bind_eq_some hd
      obtain ⟨hl, -⟩ := ihl (hflows.operand List.mem_cons_self) hσ hu
      obtain ⟨hr, -⟩ := ihr (hflows.operand (List.mem_cons_of_mem _ List.mem_cons_self)) hl.admits hv
      cases congrArg Prod.snd hd
      obtain ⟨w, rfl⟩ := Datum.scalar_of_binary? (congrArg Prod.fst hd)
      exact ⟨hl.trans hr, World.among_scalar _ _ w⟩
  | compare id op hleft hright ihl ihr =>
      rw [Expr.exec] at hd
      obtain ⟨u, σ₁, hu, hd⟩ := Exec.bind_eq_some hd
      obtain ⟨v, σ₂, hv, hd⟩ := Exec.bind_eq_some hd
      obtain ⟨hl, -⟩ := ihl (hflows.operand List.mem_cons_self) hσ hu
      obtain ⟨hr, -⟩ := ihr (hflows.operand (List.mem_cons_of_mem _ List.mem_cons_self)) hl.admits hv
      obtain ⟨o, -, rfl⟩ := Option.map_eq_some_iff.1 (congrArg Prod.fst hd)
      cases congrArg Prod.snd hd
      exact ⟨hl.trans hr, World.among_scalar _ _ _⟩
  | @attr value id x hvalue ih =>
      rw [Expr.exec] at hd
      obtain ⟨b, σ₁, hb, hd⟩ := Exec.bind_eq_some hd
      obtain ⟨hl, hbase⟩ := ih (hflows.operand List.mem_cons_self) hσ hb
      have hfield : σ₁.field? b x = some d := congrArg Prod.fst hd
      cases congrArg Prod.snd hd
      refine ⟨hl.trans (.of_same hl.admits rfl ⟨rfl, rfl⟩), ?_⟩
      cases b with
      | scalar => cases hfield
      | object l =>
          obtain ⟨site, hl', owner, howner, hrefers⟩ := hbase l rfl
          refine (hl.admits.field hl' hfield).mono ?_
          rintro t ⟨base, made, hbase, hmade, hholds⟩
          have hsame := hunique (creates_of_derives hholds).1 (creates_of_derives hrefers)
            (hbase.trans howner.symm)
          subst hsame
          exact ⟨made, hmade, .load hplaced.reached (hflows.own List.mem_cons_self) hrefers hholds⟩
  | @create node g id hmakes hsite hclass =>
      have hd : p.invoke n (a.moduleNames σ) node g [] σ = (some d, σ') := by
        rw [Expr.exec, Expr.execAll] at hd
        exact hd
      have hmade : p.invoke n (a.moduleNames σ) node g [] σ = (none, σ) ∨
          p.invoke n (a.moduleNames σ) node g [] σ
            = (some (.object σ.sites.length), σ.create node) := Program.invoke_class hclass
      rcases hmade with heq | heq
      · cases heq.symm.trans hd
      · cases heq.symm.trans hd
        refine ⟨⟨hσ.create node, World.extends_create σ node, fun ha => absurd hmakes ha⟩, ?_⟩
        obtain ⟨className, -, hown⟩ := (P.at_ a).callFlows_creates hsite []
        have hflow : _ ∈ P.flows a.function a.context :=
          hflows.own (show _ ∈ (P.at_ a).callFlows p.calls node none [] by
            rw [hown]
            exact List.mem_cons_self)
        intro l hl
        cases hl
        exact ⟨node, by simp [World.create], _, rfl, .construct hplaced.reached hflow rfl⟩
  | @run node j g f args id hruns hargs ih =>
      rw [Expr.exec] at hd
      obtain ⟨_, _, hname, hd⟩ := Exec.bind_eq_some hd
      cases hname
      obtain ⟨ds, σ₁, hds, hd⟩ := Exec.bind_eq_some hd
      obtain ⟨hl, hamong⟩ := leads_execAll (fun e he {_ _ _} => ih e he (hflows.operand he)) hσ hds
      have hcall := Calls.of_exec hplaced hruns hflows hl.admits hamong
      obtain ⟨⟨hvars, hsame⟩, hresult⟩ := hcalls hcall hd
      exact ⟨hl.trans (.of_same hl.admits hvars hsame), hresult⟩

end Expressions

section Items

/-- What is known of an item of a body that runs: its nodes have identifiers of their own, its calls
make objects in the module at most, and its flows are among those of the body. -/
structure ItemOf (P : FlowProgram) (p : Program) (a : Activation) (i : BlockItem) : Prop where
  ids : i.nodes.Nodup
  plain : ∀ e ∈ i.exprs, e.IsPlain p (a.function = moduleId)
  flows : ∀ e ∈ i.exprs, P.HasFlows p a e
  kind : match i with
    | .statement s => (s.isObjectual = true ∨ s.isPlainCode = false) ∧
        (a.function ≠ moduleId → s.writesField = false) ∧
        ∀ flow ∈ (P.at_ a).stmtFlows p.calls s, flow ∈ P.flows a.function a.context
    | .condition _ => True
    | _ => False

variable (hplaced : P.Places a) (hcalls : P.CallsLead p n a)
  (hunique : ∀ {made made' : Creation}, P.Creates made → P.Creates made' →
    made.site = made'.site → made = made')
include hplaced hcalls hunique

/-- After an item that does not return, all references are still known. -/
theorem admits_item {i : BlockItem} (hi : P.ItemOf p a i) (hreturn : i.isReturn = false)
    (hσ : P.Admits a σ) (hrun : Meaning.execItem (a.call p n) i σ = (some (), σ')) :
    P.Admits a σ' ∧ (a.function ≠ moduleId → σ.SameObjects σ') := by
  have hexec : ∀ {e}, e ∈ i.exprs → ∀ {σ d σ'}, P.Admits a σ →
      e.exec (a.call p n) σ = (some d, σ') →
      P.Leads a σ σ' ∧ σ'.Among (P.MayRefer ((P.at_ a).value e.id)) d := fun he =>
    leads_exec hplaced hcalls hunique (hi.plain _ he) (hi.flows _ he)
  cases i with
  | statement s =>
      obtain ⟨hkind, hwrites, hflows⟩ := hi.kind
      cases s with
      | assign id target value =>
          cases target with
          | name node x =>
              obtain ⟨d, σ₁, hd, hrun⟩ := Exec.bind_eq_some hrun
              cases hrun
              obtain ⟨hl, hamong⟩ := hexec List.mem_cons_self hσ hd
              refine ⟨hl.admits.bind hplaced fun e he => ?_,
                fun ha => (hl.same ha).trans ⟨rfl, rfl⟩⟩
              cases he
              exact hamong.mono fun _ => .copy hplaced
                (hflows _ (List.mem_append_right _ List.mem_cons_self))
          | attr node base x =>
              obtain ⟨d, σ₁, hd, hrun⟩ := Exec.bind_eq_some hrun
              obtain ⟨b, σ₂, hb, hrun⟩ := Exec.bind_eq_some hrun
              obtain ⟨hl, hamong⟩ := hexec (List.mem_append_right _ List.mem_cons_self) hσ hd
              obtain ⟨hr, hbase⟩ := hexec (List.mem_append_left _ List.mem_cons_self) hl.admits hb
              cases b with
              | scalar => cases hrun
              | object l =>
                  cases hrun
                  refine ⟨?_, fun ha => absurd (hwrites ha) Bool.noConfusion⟩
                  obtain ⟨site, hsite, owner, howner, hrefers⟩ := hbase l rfl
                  have hrecorded : P.Admits a
                      { σ₂ with accesses := (node, .object l) :: σ₂.accesses } :=
                    hr.admits.congr rfl ⟨rfl, rfl⟩
                  refine hrecorded.setField hsite ((hamong.extend hr.extended).mono ?_)
                  rintro t ⟨made, hmade, hsource⟩
                  refine ⟨owner, made, howner, hmade, .store hplaced.reached (hflows _ ?_) hrefers
                    hsource⟩
                  exact List.mem_append_right _ (List.mem_append_right _ List.mem_cons_self)
          | subscript => rcases hkind with hkind | hkind <;> cases hkind
      | expr id e =>
          obtain ⟨d, σ₁, hd, hrun⟩ := Exec.bind_eq_some hrun
          cases hrun
          obtain ⟨hl, -⟩ := hexec List.mem_cons_self hσ hd
          exact ⟨hl.admits, hl.same⟩
      | pass =>
          cases hrun
          exact ⟨hσ, fun _ => .refl σ⟩
      | functionDef | classDef =>
          cases hrun
          exact ⟨hσ.bind hplaced nofun, fun _ => ⟨rfl, rfl⟩⟩
      | ret => cases hreturn
      | ifElse | whileLoop | forLoop | brk | cont => cases hrun
  | condition cond =>
      obtain ⟨d, σ₁, hd, hrun⟩ := Exec.bind_eq_some hrun
      cases hrun
      obtain ⟨hl, -⟩ := hexec List.mem_cons_self hσ hd
      exact ⟨hl.admits.congr rfl ⟨rfl, rfl⟩, fun ha => (hl.same ha).trans ⟨rfl, rfl⟩⟩
  | evaluate | bind => exact absurd hi.kind id

/-- What is returned is known of the body. -/
theorem among_return {i : BlockItem} (hi : P.ItemOf p a i) (hreturn : i.isReturn = true)
    (hσ : P.Admits a σ) (hrun : Meaning.execItem (a.call p n) i σ = (some (), σ')) :
    (a.function ≠ moduleId → σ.SameObjects σ') ∧ ∀ {d}, σ'.datum? returnSlot = some d →
      σ'.Among (P.MayRefer (.result a.function a.context)) d := by
  cases i with
  | statement s =>
      cases s with
      | ret id value =>
          cases value with
          | none =>
              cases hrun
              refine ⟨fun _ => ⟨rfl, rfl⟩, fun {d} hd => ?_⟩
              rw [World.datum?_set, if_pos rfl] at hd
              cases hd
              exact World.among_scalar _ _ _
          | some e =>
              obtain ⟨d, σ₁, hd, hrun⟩ := Exec.bind_eq_some hrun
              cases hrun
              obtain ⟨hl, hamong⟩ := leads_exec hplaced hcalls hunique
                (hi.plain e List.mem_cons_self) (hi.flows e List.mem_cons_self) hσ hd
              refine ⟨fun ha => (hl.same ha).trans ⟨rfl, rfl⟩, fun {u} hu => ?_⟩
              rw [World.datum?_set, if_pos rfl] at hu
              cases hu
              exact hamong.mono fun _ => .copy hplaced
                (hi.kind.2.2 _ (List.mem_append_right _ List.mem_cons_self))
      | assign | expr | pass | functionDef | classDef | ifElse | whileLoop | forLoop | brk | cont =>
          cases hreturn
  | condition | evaluate | bind => cases hreturn

end Items

section Bodies

open FlowGraph (Assertions)

/-- What is known of the references in the points of a run of a body, and of what it returns. A
function leaves all objects as they were. -/
def admissions (P : FlowProgram) (a : Activation) (start : World) : Assertions World Unit where
  here _ _ σ := σ.halted = false →
    P.Admits a σ ∧ (a.function ≠ moduleId → start.SameObjects σ)
  live _ _ _ := True
  final ending σ := σ.halted = false → (a.function ≠ moduleId → start.SameObjects σ) ∧
    (ending = .returned → ∀ {d}, σ.datum? returnSlot = some d →
      σ.Among (P.MayRefer (.result a.function a.context)) d)

variable {g : FlowGraph} (start : World)

variable (hplaced : P.Places a) (hcalls : P.CallsLead p n a)
  (hunique : ∀ {made made' : Creation}, P.Creates made → P.Creates made' →
    made.site = made'.site → made = made')
  (hitems : ∀ b, ∀ i ∈ (g.block b).items, P.ItemOf p a i)
include hplaced hcalls hunique hitems

/-- What is known of references is closed under the steps of runs. -/
theorem closed_admissions :
    FlowGraph.Closed (Meaning.objects (a.call p n)) g.chart (admissions P a start) where
  item := by
    intro b k i σ σ' hs hi hreturn hstep hrunning
    cases hstep
    obtain ⟨hσ, hrun⟩ := Meaning.running_of_perform hrunning
    obtain ⟨hadmits, hsame⟩ := hs hσ
    obtain ⟨hadmits', hsame'⟩ := admits_item hplaced hcalls hunique
      (hitems b i (List.mem_of_getElem? hi)) hreturn hadmits hrun
    exact ⟨hadmits', fun ha => (hsame ha).trans (hsame' ha)⟩
  test := by
    intro b cond o σ σ' e hs _ htest _ _ _
    rwa [← Meaning.eq_of_decided htest]
  testStarves hs _ _ _ _ _ hrunning := ⟨(hs hrunning).2, nofun⟩
  opens _ _ _ := trivial
  asks := by
    intro b head it o σ σ' e _ hs _ hasks _ _ _
    cases head with
    | whileTrue => rwa [← Meaning.eq_of_decided hasks]
    | forEach => cases hasks
  asksStarves _ hs _ _ _ _ _ hrunning := ⟨(hs hrunning).2, nofun⟩
  starts := by
    intro b head it it' σ σ' e _ _ _ _ _ _ hs hstarts
    cases head with
    | whileTrue =>
        cases hstarts
        exact ⟨trivial, hs⟩
    | forEach => cases hstarts
  jump hs _ _ _ _ := hs
  falls hs _ _ _ _ hrunning := ⟨(hs hrunning).2, nofun⟩
  returns := by
    intro b k i σ σ' e hs hi hreturn _ hstep _ _ _ _ hrunning
    cases hstep
    obtain ⟨hσ, hrun⟩ := Meaning.running_of_perform hrunning
    obtain ⟨hadmits, hsame⟩ := hs hσ
    obtain ⟨hsame', hamong⟩ := among_return hplaced hcalls hunique
      (hitems b i (List.mem_of_getElem? hi)) hreturn hadmits hrun
    exact ⟨fun ha => (hsame ha).trans (hsame' ha), fun _ => hamong⟩
  stops hs hrunning := ⟨(hs hrunning).2, nofun⟩

end Bodies

end FlowProgram

namespace Activation

def callee (a : Activation) (P : FlowProgram) (j : Nat) (σ : World) : Activation :=
  ⟨j, P.push a.context j, some (a.moduleNames σ)⟩

end Activation

namespace Program

namespace Numbered

variable {p : Program} (h : p.Numbered) {i j : Nat} {f g : FunctionInfo}
  (hf : (ProgramIndex.build p).functions[i]? = some f)
include h hf

theorem itemNodes_nodup : (Stmt.itemNodes f.body).Nodup := by
  have hids := h.ids
  rw [← h.flatMap_idsOf] at hids
  refine (Stmt.itemNodes_sublist f.body).nodup ((List.nodup_flatMap.1 hids).1 f ?_)
  exact Array.mem_toList_iff.2 (Array.mem_of_getElem? hf)

/-- No two functions share a node. -/
theorem eq_of_mem_itemNodes (hg : (ProgramIndex.build p).functions[j]? = some g) {n : Nat}
    (hi : n ∈ Stmt.itemNodes f.body) (hj : n ∈ Stmt.itemNodes g.body) : i = j := by
  have hids := h.ids
  rw [← h.flatMap_idsOf] at hids
  have hpairs := (List.nodup_flatMap.1 hids).2
  have apart : ∀ {i j : Nat} {f g : FunctionInfo},
      (ProgramIndex.build p).functions[i]? = some f →
      (ProgramIndex.build p).functions[j]? = some g →
      n ∈ Stmt.itemNodes f.body → n ∈ Stmt.itemNodes g.body → ¬ i < j := by
    intro i j f g hf hg hi hj hlt
    rw [← Array.getElem?_toList] at hf hg
    obtain ⟨hlt', rfl⟩ := List.getElem?_eq_some_iff.1 hf
    obtain ⟨hlt'', rfl⟩ := List.getElem?_eq_some_iff.1 hg
    exact List.pairwise_iff_getElem.1 hpairs i j hlt' hlt'' hlt
      ((Stmt.itemNodes_sublist _).mem hi) ((Stmt.itemNodes_sublist _).mem hj)
  exact Nat.le_antisymm (Nat.le_of_not_lt (apart hg hf hj hi)) (Nat.le_of_not_lt (apart hf hg hi hj))

end Numbered

/-- A program whose references are asked for, with the contexts of a configuration. -/
abbrev references (p : Program) (config : Config) : FlowProgram :=
  p.flowProgram config.pointerContextDepth.toNat

namespace IsObjectual

variable {p : Program} (h : p.IsObjectual) {config : Config} {a : Activation} {n node j : Nat}
  {name : String} {f : FunctionDef} {places : List Place} {result : Place} {ds : List Datum}
  {σ : World}

theorem places_callee (hcall : (p.references config).Calls p a node name j f places result ds σ) :
    (p.references config).Places (a.callee (p.references config) j σ) :=
  ⟨.reach (.static hcall.placed.reached hcall.flow rfl List.mem_cons_self), nofun⟩

include h in
theorem ne_module_of_runs (hruns : p.Runs node name j f) : j ≠ moduleId := by
  obtain ⟨site, hsite, -, htargets⟩ := hruns.site
  exact (h.target_of_site? hsite).2 j (by rw [htargets]; exact List.mem_cons_self)

include h in
/-- Where the body of a function starts, all references are known. -/
theorem admits_callee (hcall : (p.references config).Calls p a node name j f places result ds σ) :
    (p.references config).Admits (a.callee (p.references config) j σ)
      { σ with vars := f.entryVars (a.moduleNames σ) ds } where
  var := by
    intro x d hx
    have hindex : (p.references config).index.function? j = some f.info := hcall.runs.number
    have hne := h.ne_module_of_runs hcall.runs
    have hbound : ((p.references config).at_ (a.callee (p.references config) j σ)).bound =
        f.info.boundNames := by
      show ((((p.references config).index.function? j).map FunctionInfo.boundNames).getD ∅) = _
      rw [hindex]
      rfl
    have hlocal : f.info.boundNames.contains x = true ↔ x ∈ f.params ∨ x ∈ f.locals := by
      rw [SortedSet.contains_iff, FunctionInfo.mem_boundNames, FunctionDef.locals,
        List.mem_filterMap]
      rfl
    rw [Frame.var, hbound, show ((p.references config).at_ (a.callee (p.references config) j
      σ)).function = j from rfl, decide_eq_false hne, Bool.false_or]
    simp only [World.datum?, FunctionDef.entryVars] at hx
    by_cases hparam : x ∈ f.params
    · rw [if_pos (hlocal.2 (.inl hparam))]
      rw [if_pos hparam] at hx
      cases harg : ds[f.params.idxOf x]? with
      | none =>
          rw [harg] at hx
          cases hx
      | some e =>
          rw [harg] at hx
          cases hx
          obtain ⟨hlt, rfl⟩ := List.getElem?_eq_some_iff.1 harg
          have hlt' : f.params.idxOf x < places.length := hcall.args.length_eq ▸ hlt
          refine (hcall.args.get hlt' hlt).mono ?_
          rintro site ⟨made, hsite, hrefers⟩
          refine ⟨made, hsite, .arg (.static hcall.placed.reached hcall.flow rfl List.mem_cons_self)
            ?_ hrefers⟩
          rw [List.drop_zero, ProgramIndex.params, hindex]
          exact List.mem_iff_getElem.2 ⟨f.params.idxOf x, by
            rw [List.length_zip]
            exact lt_min hlt' (List.idxOf_lt_length_of_mem hparam), by
            rw [List.getElem_zip]
            exact Prod.ext rfl (List.getElem_idxOf (List.idxOf_lt_length_of_mem hparam))⟩
    · rw [if_neg hparam] at hx
      split at hx
      · next hmatch =>
          by_cases hlocals : x ∈ f.locals
          · rw [if_pos hlocals] at hmatch
            cases hmatch
          · rw [if_neg hlocals] at hmatch
            cases hx
            rw [if_neg fun hcontains => (hlocal.1 hcontains).elim hparam hlocals]
            exact hcall.admits.global hmatch
      · cases hx
  global hx := hcall.admits.global hx
  field hl hd := hcall.admits.field hl hd

section Bodies

variable (hread : p.FunctionsOnlyRead)
include h hread

/-- What is known of the items of a body, on whatever call path it runs. -/
theorem itemOf {g : FlowGraph} (hg : (p.facts config).graph? a.function = some g) (b : Nat) :
    ∀ i ∈ (g.block b).items, (p.references config).ItemOf p a i := by
  obtain ⟨info, hinfo, hbuild⟩ := graph?_eq_some hg
  refine FlowGraph.only_of_build hbuild (fun s hs hreturn i hi => ?_) b
  have hflows : ∀ flow ∈ ((p.references config).at_ a).stmtFlows p.calls s,
      flow ∈ (p.references config).flows a.function a.context :=
    fun flow hflow => (FlowProgram.mem_flows hinfo).2 ⟨s, hs, hflow⟩
  have hown := Stmt.exprs_subset_ownExprs hi
  refine ⟨?_, fun e he => h.isPlain_ownExprs hread hinfo hs e (hown he), fun e he flow hflow =>
    hflows flow (Frame.mem_stmtFlows_of_mem (hown he) hflow), ?_⟩
  · have hnodup := (List.nodup_flatMap.1 (h.numbered.itemNodes_nodup hinfo)).1 s hs
    exact (List.nodup_flatMap.1 hnodup).1 i hi
  · have hkind := h.stmt_of_mem hinfo hs
    have hwrites : a.function ≠ moduleId → s.writesField = false := fun ha => by
      rcases h.numbered.eq_module_or_exists hinfo with ⟨heq, -⟩ | ⟨-, d, hd, rfl⟩
      · exact absurd heq ha
      · exact hread.writes d hd s hs
    cases s with
    | assign | expr | pass | classDef | functionDef | ret =>
        cases List.mem_singleton.1 hi
        exact ⟨hkind, hwrites, hflows⟩
    | ifElse | whileLoop =>
        cases List.mem_singleton.1 hi
        exact trivial
    | forLoop => rcases hkind with hkind | hkind <;> cases hkind
    | brk | cont => cases hi

/-- Calls of functions leave the run as it is and return what is known of them. -/
theorem callsLead (hgraph : ∀ {i f}, (ProgramIndex.build p).functions[i]? = some f →
      ∃ g, (p.facts config).graph? i = some g) (n : Nat) (a : Activation) :
    (p.references config).CallsLead p n a := by
  induction n generalizing a with
  | zero =>
      intro node name j f places result ds σ u σ' hcall hu
      have hclass := h.not_mem_classes hcall.runs.function
      rcases invoke_function hclass hcall.runs.function with heq | ⟨m, hm, -⟩
      · cases heq.symm.trans hu
      · cases hm
  | succ n ih =>
      intro node name j f places result ds σ u σ' hcall hu
      have hclass := h.not_mem_classes hcall.runs.function
      rcases invoke_function hclass hcall.runs.function with heq | ⟨m, hm, -, heq⟩
      · cases heq.symm.trans hu
      · cases hm
        have hu := heq.symm.trans hu
        obtain ⟨g, hg⟩ := hgraph hcall.runs.number
        obtain ⟨info, hinfo, hbuild⟩ := graph?_eq_some hg
        cases hcall.runs.number.symm.trans hinfo
        have hclosed := FlowProgram.closed_admissions
          { σ with vars := f.entryVars (a.moduleNames σ) ds } (places_callee hcall) (ih _)
          (h.made_unique hread) (h.itemOf hread hg)
        have hfinal := FlowGraph.final_of_runBody hbuild hclosed
          (fun _ => ⟨h.admits_callee hcall, fun _ => .refl _⟩) n
          (show _ = p.bodyRun n (a.moduleNames σ) f ds σ from rfl)
        generalize p.bodyRun n (a.moduleNames σ) f ds σ = r at hfinal hu
        obtain ⟨hrunning, hend⟩ := FunctionDef.result?_eq_some (congrArg Prod.fst hu)
        cases congrArg Prod.snd hu
        obtain ⟨hsame, hamong⟩ := hfinal hrunning
        have hsame := hsame (h.ne_module_of_runs hcall.runs)
        refine ⟨⟨rfl, hsame.sites, hsame.fields⟩, ?_⟩
        rcases hend with ⟨-, rfl⟩ | ⟨hreturned, hu⟩
        · exact World.among_scalar _ _ _
        · refine World.Among.mono (hamong hreturned hu) ?_
          rintro site ⟨made, hsite, hrefers⟩
          exact ⟨made, hsite, .result (.static hcall.placed.reached hcall.flow rfl
            List.mem_cons_self) hrefers⟩

end Bodies

end IsObjectual

end Program

end ValueFlow
