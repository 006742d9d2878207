import ValueFlow.Proofs.Objects.Seeds
/-!
An access that is reported to be always one on `None` is one, if functions only read and nothing was
given up.

In such a program only the module makes objects and writes fields, so the abstract object of a
constructor call stands for the objects that the call made, and is a single one until the call is
made again. Functions that make objects or write fields break this: they are summarized from a heap
of which nothing is known, and in it every abstract object counts as a single one.
-/

namespace ValueFlow

/-- The analysis of a program with objects succeeds. If functions make no objects and write no
fields, and nothing was given up, then an access that is reported to be always one on `None` is made
on `None` whenever a run makes it, also a run that does not end. -/
theorem analyze_definiteNullDeref_receiver {p : Program} {config : Config} (n : Nat)
    (hp : p.IsObjectual) (hread : p.FunctionsOnlyRead) (hconfig : config.validate = .ok ()) :
    ∃ report, analyze p config false = .ok report ∧ (report.stats.degradedFunctions = 0 →
      ∀ d ∈ report.diagnostics, d.kind = .definiteNullDeref → ∀ u,
        (d.location, u) ∈ p.accesses n → u = .null) := by
  refine ⟨.ofOutcome (p.facts config) (p.facts config).run, ?_, ?_⟩
  · rw [analyze, hconfig]
    rfl
  · exact fun hkept d hd hkind u hu => hp.accesses_run hread hkept n hd hkind hu

/-- A program with a function that reads a field of what was cleared before the call. -/
def Program.peeking : Program where
  body :=
    [.classDef 1 2 "C" [] [.pass 3],
      .functionDef 4 5 "peek" ["a"] [.ret 6 (some (.attr 7 (.attr 8 (.name 9 "a") "x") "y"))],
      .assign 10 (.name 11 "c") (.call 12 (.name 13 "C") []),
      .assign 14 (.attr 15 (.name 16 "c") "x") (.literal 17 .none),
      .assign 18 (.name 19 "d") (.call 20 (.name 21 "peek") [.name 22 "c"])]

theorem Program.isObjectual_peeking : Program.peeking.IsObjectual where
  ids := by decide
  names := by decide
  params := by decide
  bases := by decide
  members := by decide
  statements := by decide
  expressions := by decide

theorem Program.functionsOnlyRead_peeking : Program.peeking.FunctionsOnlyRead where
  writes := by decide
  makes := by decide

set_option maxRecDepth 10000 in
theorem analyze_definiteNullDeref_receiver_peeking :
    ∃ report, analyze .peeking (.ofPreset .standard) false = .ok report ∧
      report.stats.degradedFunctions = 0 ∧
      ∃ d ∈ report.diagnostics, d.kind = .definiteNullDeref ∧
        ∃ u, (d.location, u) ∈ Program.peeking.accesses 1 ∧ u = .null := by
  have hkept : (AnalysisReport.ofOutcome (Program.peeking.facts (.ofPreset .standard))
      (Program.peeking.facts (.ofPreset .standard)).run).stats.degradedFunctions = 0 := by
    decide +kernel
  have hfound : ∃ d ∈ (AnalysisReport.ofOutcome (Program.peeking.facts (.ofPreset .standard))
      (Program.peeking.facts (.ofPreset .standard)).run).diagnostics,
      d.kind = .definiteNullDeref ∧
        ∃ a ∈ Program.peeking.accesses 1, a.1 = d.location := by
    decide +kernel
  have hconfig : (Config.ofPreset .standard).validate = .ok () := rfl
  obtain ⟨report, hreport, hright⟩ := analyze_definiteNullDeref_receiver 1
    Program.isObjectual_peeking Program.functionsOnlyRead_peeking hconfig
  cases hreport
  obtain ⟨d, hd, hkind, ⟨_, u⟩, ha, rfl⟩ := hfound
  exact ⟨_, rfl, hkept, d, hd, hkind, u, ha, hright hkept d hd hkind u ha⟩

/-- A program in which two objects of one constructor call are passed to a function that clears a
field of the second one. -/
def Program.clearedTwin : Program where
  body :=
    [.classDef 1 2 "C" [] [.pass 3],
      .functionDef 4 5 "make" [] [.ret 6 (some (.call 7 (.name 8 "C") []))],
      .functionDef 9 10 "f" ["a", "b"]
        [.assign 11 (.attr 12 (.name 13 "a") "x") (.name 14 "a"),
          .assign 15 (.attr 16 (.name 17 "b") "x") (.literal 18 .none),
          .ret 19 (some (.attr 20 (.name 21 "a") "x"))],
      .assign 22 (.name 23 "p") (.call 24 (.name 25 "make") []),
      .assign 26 (.name 27 "q") (.call 28 (.name 29 "make") []),
      .assign 30 (.name 31 "r") (.call 32 (.name 33 "f") [.name 34 "p", .name 35 "q"]),
      .assign 36 (.name 37 "s") (.attr 38 (.name 39 "r") "x")]

theorem Program.isObjectual_clearedTwin : Program.clearedTwin.IsObjectual where
  ids := by decide
  names := by decide
  params := by decide
  bases := by decide
  members := by decide
  statements := by decide
  expressions := by decide

set_option maxRecDepth 10000 in
/-- Where a function makes objects, an access that is reported to be always one on `None` can be
made on an object. -/
theorem exists_definiteNullDeref_object :
    ∃ (p : Program) (config : Config) (n : Nat) (report : AnalysisReport),
      p.IsObjectual ∧ config.validate = .ok () ∧ analyze p config false = .ok report ∧
      report.stats.degradedFunctions = 0 ∧
      ∃ d ∈ report.diagnostics, d.kind = .definiteNullDeref ∧
        ∃ l, (d.location, .object l) ∈ p.accesses n := by
  have hkept : (AnalysisReport.ofOutcome (Program.clearedTwin.facts (.ofPreset .standard))
      (Program.clearedTwin.facts (.ofPreset .standard)).run).stats.degradedFunctions = 0 := by
    decide +kernel
  have hfound : ∃ d ∈ (AnalysisReport.ofOutcome (Program.clearedTwin.facts (.ofPreset .standard))
      (Program.clearedTwin.facts (.ofPreset .standard)).run).diagnostics,
      d.kind = .definiteNullDeref ∧ (d.location, .object 0) ∈ Program.clearedTwin.accesses 1 := by
    decide +kernel
  obtain ⟨d, hd, hkind, ha⟩ := hfound
  exact ⟨.clearedTwin, .ofPreset .standard, 1, _, Program.isObjectual_clearedTwin, rfl, rfl, hkept,
    d, hd, hkind, 0, ha⟩

end ValueFlow
