import ToyUnix.Proofs.Shell.Parallel

/-!
What a command name stands for. Functions are looked up in the scopes from the inside to the
outside, before the built-ins of the shell, and those come before the programs that the host has;
what stands for nothing is reported. Main statement: `runCommand_innermost`.
-/

set_option autoImplicit false

namespace ToyUnix

namespace Context

/-- A context and those around it, from the inside to the outside. -/
def lineage : Context → List Context
  | .standalone title directory scope => [.standalone title directory scope]
  | .process p c config scope => [.process p c config scope]
  | .shell id scope settings host => .shell id scope settings host :: host.lineage
  | .nested scope parent => .nested scope parent :: parent.lineage

/-- The first context, going outwards, that declares a function of that name, and the function. -/
def innermost? (w : World) (name : String) (ctx : Context) : Option (Context × Instruction) :=
  ctx.lineage.findSome? fun owner => ((w.scope owner.ownScope).function? name).map (owner, ·)

def within (scopes : List Nat) (ctx : Context) : Context := scopes.foldr .nested ctx

def IsHost : Context → Prop
  | .standalone _ _ _ | .process _ _ _ _ => True
  | .shell _ _ _ _ | .nested _ _ => False

/-- The program that the host has for a name. -/
def program? (w : World) (name : String) (ctx : Context) : Option (String × Executable) :=
  ctx.host?.bind fun (p, c, _) =>
    (w.computers[c]?).bind fun computer => w.resolveProgram computer p name

section

variable {w : World} {name : String} {ctx owner host : Context} {body : Instruction}
  {id scope : Nat} {settings : ShellSettings}

theorem innermost?_shell : (Context.shell id scope settings host).innermost? w name =
    (((w.scope scope).function? name).map (Context.shell id scope settings host, ·)).or
      (host.innermost? w name) := by
  cases hfunction : (w.scope scope).function? name <;>
    simp [innermost?, lineage, ownScope, hfunction]

theorem innermost?_nested : (Context.nested scope host).innermost? w name =
    (((w.scope scope).function? name).map (Context.nested scope host, ·)).or
      (host.innermost? w name) := by
  cases hfunction : (w.scope scope).function? name <;>
    simp [innermost?, lineage, ownScope, hfunction]

theorem resolve?_innermost (h : ctx.innermost? w name = some (owner, body)) :
    ctx.resolve? w name = some (.function owner body) := by
  induction ctx with
  | standalone title directory s | process p c config s =>
    simp only [innermost?, lineage, ownScope, List.findSome?_singleton, Option.map_eq_some_iff] at h
    obtain ⟨found, hfunction, heq⟩ := h
    cases heq
    rw [resolve?, hfunction, Option.map_some]
  | shell id s settings host ih =>
    rw [innermost?_shell] at h
    rw [resolve?]
    cases hfunction : (w.scope s).function? name with
    | some found =>
      rw [hfunction] at h
      cases h
      rfl
    | none =>
      rw [hfunction] at h
      rw [ih h]
  | nested s parent ih =>
    rw [innermost?_nested] at h
    rw [resolve?]
    cases hfunction : (w.scope s).function? name with
    | some found =>
      rw [hfunction] at h
      cases h
      rfl
    | none =>
      rw [hfunction] at h
      exact ih h

theorem resolve?_host (hhost : ctx.IsHost) (h : ctx.innermost? w name = none) :
    ctx.resolve? w name = none := by
  cases ctx with
  | standalone title directory s | process p c config s =>
    simpa [innermost?, lineage, ownScope, resolve?] using h
  | shell id s settings host | nested s parent => exact hhost.elim

theorem resolve?_undeclared (hhost : host.IsHost) {scopes : List Nat}
    (h : (within scopes (.shell id scope settings host)).innermost? w name = none) :
    (within scopes (.shell id scope settings host)).resolve? w name =
      if isBuiltin name then some (.builtin id scope settings host) else none := by
  induction scopes with
  | nil =>
    obtain ⟨hown, hrest⟩ := Option.or_eq_none_iff.1 (innermost?_shell.symm.trans h)
    have hfunction := Option.map_eq_none_iff.1 hown
    simp only [within, List.foldr_nil, resolve?, hfunction, resolve?_host hhost hrest]
  | cons first scopes ih =>
    obtain ⟨hown, hrest⟩ := Option.or_eq_none_iff.1 (innermost?_nested.symm.trans h)
    have hfunction := Option.map_eq_none_iff.1 hown
    rw [← ih hrest]
    simp only [within, List.foldr_cons, resolve?, hfunction]

theorem host?_within (scopes : List Nat) :
    (within scopes (.shell id scope settings host)).host? = host.host? := by
  induction scopes with
  | nil => rfl
  | cons first scopes ih => exact ih

end

end Context

section

variable {call : Caller} {limit : Nat} {ctx : Context} {console : Console} {name : String}
  {args : List String} {w : World}

def launch (call : Caller) (limit : Nat) (config : ShellConfig) (p c : Nat) (computer : Computer)
    (console : Console) (path : String) (args : List String) (executable : Executable) :
    Job Int := fun w =>
  match w.processes.fork p with
  | (.error fault, forked) => .done { w with processes := forked } (.error fault)
  | (.ok child, forked) =>
    let forked : World := { w with processes := forked }
    (runExecutable call limit (some config) child c computer console path args executable
      (forked.updateProcesses (·.setName child (PathText.fileName path)))).bind fun s result =>
        .done (s.updateProcesses (·.kill child (exitCode result))) (catchEnd result)

theorem runUnknown_program {p c : Nat} {config : ShellConfig} {computer : Computer}
    {path : String} {executable : Executable} (hhost : ctx.host? = some (p, c, config))
    (hcomputer : w.computers[c]? = some computer)
    (hfound : w.resolveProgram computer p name = some (path, executable)) :
    runUnknown call limit console name args ctx w =
      launch call limit config p c computer console path args executable w := by
  rw [runUnknown_hosted hhost]
  change (executeProgram call limit (some config) p c console name args w).bind _ = _
  rw [executeProgram_forked hcomputer hfound, launch]
  cases w.processes.fork p with
  | mk outcome forked =>
    cases outcome with
    | error fault => rfl
    | ok child =>
      refine (Course.bind_assoc ..).trans (congrArg (fun f => Course.bind f _) ?_)
      funext s result
      cases catchEnd result <;> rfl

theorem runUnknown_missing (h : ctx.program? w name = none) :
    runUnknown call limit console name args ctx w =
      .done (console.writeLine w (notFoundMessage name)) (.ok 127) := by
  unfold Context.program? at h
  cases hhost : ctx.host? with
  | none =>
    rw [runUnknown_unhosted hhost]
    rfl
  | some host =>
    obtain ⟨p, c, config⟩ := host
    rw [hhost] at h
    have hnone : executeProgram call limit (some config) p c console name args w =
        .done w (.ok none) := by
      rw [executeProgram, Job.get_bind]
      cases hcomputer : w.computers[c]? with
      | none => rfl
      | some computer =>
        simp only [Option.bind_some, hcomputer] at h
        simp only [h]
        rfl
    rw [runUnknown_hosted hhost]
    change (executeProgram call limit (some config) p c console name args w).bind _ = _
    rw [hnone]
    rfl

end

section

variable (call : Caller) (limit : Nat) (scopes : List Nat) (id scope : Nat)
  (settings : ShellSettings) {host : Context} (console : Console) (name : String)
  (args : List String) (w : World)

/-- A command in scopes within a shell on a host. If a function of that name is declared anywhere
around, its body is run in the innermost context that declares one, and nothing else is run for the
command. Otherwise a built-in is run if there is one, otherwise the program that the host finds, and
otherwise there is the message that the command is not found. -/
theorem runCommand_innermost (hhost : host.IsHost) :
    let ctx := Context.within scopes (.shell id scope settings host)
    (isBuiltin name = true ↔
      name ∈ ["cd", "clear", "echo", "exit", "return", "test", "title", "[", "[["]) ∧
    (∀ owner body, ctx.innermost? w name = some (owner, body) →
      runCommand call limit ctx console name args w =
        (call owner console body (w.pushed owner.ownScope name args)).bind fun s result =>
          .done (s.popped owner.ownScope (w.scope owner.ownScope).nextFrame)
            (catchReturn result)) ∧
    (ctx.innermost? w name = none →
      (isBuiltin name = true →
        ∀ outcome t, runBuiltin id scope settings host console name args w = (outcome, t) →
          runCommand call limit ctx console name args w = .done t outcome) ∧
      (isBuiltin name = false →
        (∀ p c config home computer path executable, host = .process p c config home →
          w.computers[c]? = some computer →
          w.resolveProgram computer p name = some (path, executable) →
          runCommand call limit ctx console name args w =
            launch call limit config p c computer console path args executable w) ∧
        (host.program? w name = none →
          runCommand call limit ctx console name args w =
            .done (console.writeLine w ("sh: " ++ name ++ ": command not found")) (.ok 127)))) := by
  intro ctx
  refine ⟨List.contains_iff_mem, fun owner body h => ?_, fun hnone => ?_⟩
  · rw [runCommand_function (Context.resolve?_innermost h), callFunction_eq]
  · have hresolve := Context.resolve?_undeclared hhost hnone
    refine ⟨fun hbuiltin outcome t hrun => ?_, fun hbuiltin => ?_⟩
    · rw [if_pos hbuiltin] at hresolve
      rw [runCommand_builtin hresolve, Job.step, hrun]
    · rw [if_neg (by simp [hbuiltin])] at hresolve
      have hctx : ctx.host? = host.host? := Context.host?_within scopes
      refine ⟨?_, fun hmissing => ?_⟩
      · rintro p c config home computer path executable rfl hcomputer hfound
        rw [runCommand_unknown hresolve, runUnknown_program hctx hcomputer hfound]
      · have hprogram : ctx.program? w name = none := by
          rw [Context.program?, hctx]
          exact hmissing
        rw [runCommand_unknown hresolve, runUnknown_missing hprogram]
        rfl

end

namespace Sample

def layered : World :=
  { filed meddling with
    scopes := [{}, ({} : Scope).declare "echo" (.command [] [.ofText "pwd"]),
      ({} : Scope).declare "echo" (.command [] [.ofText "ls"]), {}] }

def layers : Context := .within [3, 2] boxShell

/-- `echo a` runs the function of the outer scope, `[ ]` the built-in and `/s` the script file; `g`
is nothing. -/
theorem layered_dispatch :
    runCommand (execute 9) 9 layers (.buffer 0) "echo" ["a"] layered =
      (execute 9 (.nested 2 boxShell) (.buffer 0) (.command [] [.ofText "ls"])
        (layered.pushed 2 "echo" ["a"])).bind (fun s result =>
          .done (s.popped 2 0) (catchReturn result)) ∧
    runCommand (execute 9) 9 layers (.buffer 0) "[" ["]"] layered = .done layered (.ok 1) ∧
    (∃ computer, runCommand (execute 9) 9 layers (.buffer 0) "/s" [] layered =
      launch (execute 9) 9 {} 0 0 computer (.buffer 0) "/s" [] (.script meddling) layered) ∧
    runCommand (execute 9) 9 layers (.buffer 0) "g" [] layered =
      .done ((Console.buffer 0).writeLine layered "sh: g: command not found") (.ok 127) := by
  have hrun (name : String) (args : List String) :=
    runCommand_innermost (execute 9) 9 [3, 2] 0 1 ⟨{}, {}, false, .buffer 0⟩ (.buffer 0) name args
      layered (show Context.IsHost (.process 0 0 {} 0) from trivial)
  refine ⟨?_, ?_, ?_, ?_⟩
  · obtain ⟨-, hecho, -⟩ := hrun "echo" ["a"]
    exact hecho (.nested 2 boxShell) (.command [] [.ofText "ls"]) (by decide +kernel)
  · obtain ⟨hbuiltin, -⟩ := (hrun "[" ["]"]).2.2 (by decide +kernel)
    exact hbuiltin (by decide) (.ok 1) layered (by rfl)
  · obtain ⟨-, hrest⟩ := (hrun "/s" []).2.2 (by decide +kernel)
    obtain ⟨computer, hcomputer⟩ : ∃ computer, layered.computers[0]? = some computer := ⟨_, rfl⟩
    have hfound : layered.resolveProgram computer 0 "/s" = some ("/s", .script meddling) := by
      cases hcomputer
      cbv
    exact ⟨computer, (hrest (by decide)).1 0 0 {} 0 computer "/s" _ rfl hcomputer hfound⟩
  · obtain ⟨-, hrest⟩ := (hrun "g" []).2.2 (by decide +kernel)
    exact (hrest (by decide)).2 (by decide +kernel)

end Sample

end ToyUnix
