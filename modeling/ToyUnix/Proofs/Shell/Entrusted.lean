import ToyUnix.Proofs.Shell.Restricted
import ToyUnix.Session

/-!
Entrusted runs. Functions run in the context that declares them, and programs and script files in
children of the host's process. So all that a context of the user's runs is done in processes of the
user, and the files stay in the user's custody: see `execute_restricted` and `cycle_restricted`.
-/

set_option autoImplicit false

namespace ToyUnix

open Job (Abides)
open World (Restricted)

variable {fs : FileSystem} {user : User} {start : Files}

def Caller.Restricted (fs : FileSystem) (user : User) (start : Files) (call : Caller) : Prop :=
  ∀ ctx console tree w, ctx.Owned fs user w →
    Abides (restricted fs user start) w (call ctx console tree)

theorem reportFault_restricted (settings : ShellSettings) (fault : Fault) (w : World) :
    Abides (restricted fs user start) w (reportFault settings fault) := by
  unfold reportFault
  split
  · exact .modify (Restricted.writeLine ..)
  · exact .throw fault

section Calls

variable {call : Caller} (hcall : call.Restricted fs user start) {ctx : Context} {w : World}
  {console : Console} {name : String} {args : List String}
include hcall

theorem callFunction_restricted (h : ctx.Owned fs user w) (body : Instruction) :
    Abides (restricted fs user start) w (callFunction call ctx body console name args) := by
  have hframe (w : World) (f : Scope → Scope) :
      Restricted fs user start w (w.updateScope ctx.ownScope f) := .of_eq rfl rfl rfl
  unfold callFunction
  refine .update_bind (hframe ..) ((hcall _ _ _ _ (h.later (hframe ..))).attempt.bind ?_)
  exact fun result s _ => .modify_bind (hframe ..) (.ofExcept _)

theorem tryCommand_restricted (h : ctx.Owned fs user w) :
    Abides (restricted fs user start) w (tryCommand call ctx console name args) := by
  refine .get_bind ?_
  split
  · exact .pure none
  · rename_i owner body hfound
    exact (callFunction_restricted hcall (h.around (Context.resolve?_function hfound).1) body).fmap _
  · exact (Abides.step (Restricted.runBuiltin ..)).fmap _

theorem runScript_restricted (h : ctx.Owned fs user w) (settings : ShellSettings) (text : String) :
    Abides (restricted fs user start) w (runScript call ctx settings text) := by
  unfold runScript
  split
  · exact (reportFault_restricted ..).bind fun _ s _ => .pure 2
  · have hmode (w : World) (mode : ShellMode) : Restricted fs user start w (setMode ctx mode w) :=
      .setMode ..
    refine .modify_bind (hmode ..) ((hcall _ _ _ _ (h.later (hmode ..))).attempt.bind ?_)
    refine fun result s _ => .modify_bind (hmode ..) ?_
    cases catchEnd result with
    | ok code => exact .pure code
    | error fault => exact (reportFault_restricted ..).bind fun _ s _ => .pure 1

theorem runScriptFile_restricted {p c : Nat} (hp : w.Owned user p)
    (hc : ∀ computer, w.computers[c]? = some computer → computer.fs = fs) (config : ShellConfig)
    (path source : String) :
    Abides (restricted fs user start) w
      (runScriptFile call config p c console path source args) := by
  unfold runScriptFile
  have hhost : Restricted fs user start w
      (w.addScope.2.updateScope w.scopes.length (·.setArguments path args)) := .of_eq rfl rfl rfl
  have hshell (w : World) : Restricted fs user start w (addShell w config.defaultTitle).2 :=
    .of_eq rfl rfl rfl
  refine .update_bind hhost (.update_bind (hshell _) (runScript_restricted hcall ?_ _ source))
  have howned : (Context.process p c config w.scopes.length).Owned fs user w := by
    intro q d other hother
    cases hother
    exact ⟨hp, hc⟩
  exact howned.later (hhost.trans (hshell _))

theorem executeProgram_restricted (hstart : start.Homely fs user) {p c : Nat}
    (hp : w.Owned user p) (hc : ∀ computer, w.computers[c]? = some computer → computer.fs = fs)
    (limit : Nat) (scripts : Option ShellConfig) :
    Abides (restricted fs user start) w
      (executeProgram call limit scripts p c console name args) := by
  refine .get_bind ?_
  split
  · exact .pure none
  rename_i computer hcomputer
  split
  · exact .pure none
  rename_i path executable _
  have hfork : Restricted fs user start w (w.onProcesses (·.fork p)).2 := .fork w p
  refine .step_bind hfork fun child hchild => ?_
  have hname (w : World) :
      Restricted fs user start w (w.updateProcesses (·.setName child (PathText.fileName path))) :=
    .setName ..
  refine .modify_bind (hname _) ?_
  have howned := (hp.child hchild).later (hname (w.onProcesses (·.fork p)).2).processes
  refine Abides.bind (Abides.attempt ?_) fun result s _ => ?_
  · cases executable with
    | native program => exact program.run_restricted hstart limit ⟨howned, hc computer hcomputer⟩
    | script source =>
      cases scripts with
      | none => exact .throw _
      | some config => exact runScriptFile_restricted hcall howned hc config path source
  · cases catchEnd result with
    | ok code => exact .modify_bind (Restricted.kill ..) (.pure _)
    | error fault => exact .modify_bind (Restricted.kill ..) (.throw fault)

theorem runUnknown_restricted (hstart : start.Homely fs user) (limit : Nat)
    (h : ctx.Owned fs user w) :
    Abides (restricted fs user start) w (runUnknown call limit console name args ctx) := by
  have hmissing (w : World) :
      Abides (restricted fs user start) w (reportNotFound console name) :=
    .modify_bind (Restricted.writeLine ..) (.pure 127)
  induction ctx with
  | standalone title directory scope => exact hmissing w
  | process p c config scope =>
    obtain ⟨hp, hc⟩ := h p c config rfl
    refine (executeProgram_restricted hcall hstart hp hc limit _).bind fun found s _ => ?_
    cases found with
    | none => exact hmissing s
    | some code => exact .pure code
  | shell id scope settings host ih => exact ih h
  | nested scope parent ih => exact ih h

theorem runSimple_restricted (hstart : start.Homely fs user) (limit : Nat)
    (h : ctx.Owned fs user w) (assignments : List (String × Word)) (words : List Word) :
    Abides (restricted fs user start) w
      (runSimple call limit ctx console assignments words) := by
  have hstatus (code : Int) (w : World) : Restricted fs user start w (setStatus ctx code w) :=
    .set ..
  have hassign : Restricted fs user start w (assign ctx assignments w) := .assign ..
  refine .update_bind hassign ?_
  have h := h.later hassign
  cases expandAll w ctx words with
  | nil => exact .modify_bind (hstatus ..) (.pure 0)
  | cons name args =>
    refine Abides.bind (Abides.bind (tryCommand_restricted hcall h) fun found s hs => ?_)
      fun code s _ => .modify_bind (hstatus ..) (.pure code)
    cases found with
    | none => exact runUnknown_restricted hcall hstart limit (h.later hs)
    | some code => exact .pure code

/-- By induction on the tree; what is run next finds the context as much the user's as before. -/
theorem Instruction.run_restricted (hstart : start.Homely fs user) (limit : Nat)
    (tree : Instruction) (h : ctx.Owned fs user w) (console : Console) :
    Abides (restricted fs user start) w (tree.run call limit ctx console) := by
  induction tree generalizing ctx console w with
  | empty => exact .pure 0
  | command assignments words => exact runSimple_restricted hcall hstart limit h assignments words
  | pipe left right ihleft ihright =>
    have hpipe : Restricted fs user start w (Console.addPipe w console).2 := .of_eq rfl rfl rfl
    have h := h.later hpipe
    refine .update_bind hpipe ((ihleft h _).bind fun _ s hs => ?_)
    let pipe := (Console.addPipe w console).1
    have hdrain : Restricted fs user start s (pipe.drain s).2 := .drain ..
    have hinput : Restricted fs user start s
        (Console.addInput (pipe.drain s).2 (pipe.drain s).1 console).2 :=
      hdrain.trans (.of_eq rfl rfl rfl)
    exact .update_bind hinput (ihright (h.later (hs.trans hinput)) _)
  | sequential first next ihfirst ihnext =>
    exact (ihfirst h console).bind fun _ s hs => ihnext (h.later hs) console
  | parallel first next ihfirst ihnext =>
    refine (Abides.both (ihfirst h console) fun s hs => ?_).bind fun _ s _ => .ofExcept _
    exact ihnext (h.later hs) console
  | conditional logic left right ihleft ihright =>
    refine (ihleft h console).bind fun code s hs => ?_
    split
    · exact ihright (h.later hs) console
    · exact .pure code
  | redirect mode target inner ih =>
    have hopen := Restricted.openConsole hstart w h console (expandOne w ctx target) mode
    refine .step_bind hopen fun redirected _ => (ih (h.later hopen) redirected).attempt.bind ?_
    refine fun result s _ => (Abides.step (Restricted.flush hstart ..)).attempt.bind ?_
    exact fun flushed s _ => .modify_bind (Restricted.closeConsole hstart ..) (.ofExcept _)
  | function name body _ =>
    have hdeclare : Restricted fs user start w (ctx.declare w name body) := .of_eq rfl rfl rfl
    exact .modify_bind hdeclare (.pure 0)
  | «scoped» inner ih =>
    have hscope : Restricted fs user start w w.addScope.2 := .of_eq rfl rfl rfl
    have hnested : (Context.nested w.scopes.length ctx).Owned fs user w := h
    exact .update_bind hscope (ih (hnested.later hscope) console)

end Calls

theorem execute_restricted (hstart : start.Homely fs user) (depth : Nat) :
    (execute depth).Restricted fs user start := by
  induction depth with
  | zero => exact fun _ _ _ _ _ => .exhausted
  | succ depth ih => exact fun ctx console tree w h => tree.run_restricted ih hstart depth h console

namespace Shell

theorem readLogical_restricted (settings : ShellSettings) (limit : Nat) (before : String)
    (w : World) : Restricted fs user start w (readLogical settings limit before w).2 := by
  induction limit generalizing before w with
  | zero => exact .refl w
  | succ limit ih =>
    have hread : Restricted fs user start w (settings.console.readLine w).2 := .readLine ..
    simp only [readLogical]
    split <;> rename_i heq <;> rw [heq] at hread
    · exact hread
    · split
      · exact hread
      · exact (hread.trans (.write ..)).trans (ih ..)

variable {call : Caller} (hcall : call.Restricted fs user start) {shell : Context} {w : World}
  {settings : ShellSettings}
include hcall

theorem drain_restricted (h : shell.Owned fs user w) (id limit : Nat) :
    Abides (restricted fs user start) w (drain call id shell settings limit) := by
  induction limit generalizing w with
  | zero => exact .pure ()
  | succ limit ih =>
    have htake : Restricted fs user start w (takePending id w).2 := by
      unfold takePending
      split <;> exact .of_eq rfl rfl rfl
    refine .update_bind htake ?_
    have h := h.later htake
    cases (takePending id w).1 with
    | none => exact .pure ()
    | some tree =>
      have hclear (w : World) : Restricted fs user start w (clearPending id w) :=
        .of_eq rfl rfl rfl
      refine (hcall _ _ tree _ h).attempt.bind fun result s hs => ?_
      have h := h.later hs
      split
      · exact ih h
      · have hsay : Restricted fs user start s
          (settings.console.writeLine s Builtin.returnMessage) := .writeLine ..
        exact .modify_bind hsay (ih (h.later hsay))
      · exact .modify_bind (hclear s) (.throw _)
      · refine .modify_bind (hclear s) ((reportFault_restricted ..).bind fun _ t ht => ?_)
        exact ih (h.later ((hclear s).trans ht))

theorem cycle_restricted {host : Context} (h : host.Owned fs user w) (id scope : Nat) :
    Abides (restricted fs user start) w (cycle call id scope settings host) := by
  have hprompt : Restricted fs user start w (showPrompt id settings host w) :=
    .trans (.setTitle ..) (.write ..)
  have hread (w : World) : Restricted fs user start w (readCommand settings w).2 :=
    readLogical_restricted ..
  have hshell : (Context.shell id scope settings host).Owned fs user w := h
  refine .modify_bind hprompt (.update_bind (hread _) ?_)
  have hshell := hshell.later (hprompt.trans (hread _))
  generalize readCommand settings (showPrompt id settings host w) = read at hshell ⊢
  obtain ⟨_ | line, v⟩ := read
  · exact .throw _
  · dsimp only
    split
    · exact .pure ()
    · split
      · exact reportFault_restricted ..
      · rename_i tree _
        have hbegin (f : ShellState → ShellState) :
            Restricted fs user start v (v.updateShell id f) := .of_eq rfl rfl rfl
        refine .modify_bind (hbegin _) (.get_bind ?_)
        refine (drain_restricted hcall (hshell.later (hbegin _)) id _).attempt.bind ?_
        exact fun result s _ => .modify_bind (Restricted.setMode ..) (.ofExcept _)

end Shell

namespace Session

theorem settle_restricted (console : Console) (process : Nat) (result : Except Fault Unit)
    (w : World) : Restricted fs user start w (settle console process result w) := by
  unfold settle
  split
  · exact .refl w
  · exact .kill ..
  · exact .trans (.writeLine ..) (.kill ..)

theorem cycles_restricted {call : Caller} (hcall : call.Restricted fs user start) {host : Context}
    {w : World} (h : host.Owned fs user w) (id scope : Nat) (settings : ShellSettings)
    (process limit : Nat) :
    Abides (restricted fs user start) w (cycles call id scope settings host process limit) := by
  induction limit generalizing w with
  | zero => exact .exhausted
  | succ limit ih =>
    refine .get_bind ?_
    split
    · refine (Shell.cycle_restricted hcall h id scope).attempt.bind fun result s hs => ?_
      have hsettle : Restricted fs user start s (settle settings.console process result s) :=
        settle_restricted ..
      exact .modify_bind hsettle (ih (h.later (hs.trans hsettle)))
    · exact .pure ()

theorem startLogin_restricted (w : World) (computer : Computer) :
    Restricted fs user start w (w.startLogin computer user).2 ∧
      ∀ login, (w.startLogin computer user).1 = .ok login →
        (w.startLogin computer user).2.Owned user login := by
  have hforked : w.processes.Holds (·.user) (w.processes.forkAs computer.init user).2 :=
    .forkAs _ _ _ _
  rcases hfork : w.processes.forkAs computer.init user with ⟨fault | login, forked⟩ <;>
    rw [hfork] at hforked <;> simp only [World.startLogin, World.onProcesses, hfork]
  · exact ⟨⟨id, hforked, rfl⟩, fun _ h => by cases h⟩
  · have hset : forked.Holds (·.user) ((((((forked.setName login "login").setCwd login
        user.home).setEnv login "USER" user.name).setEnv login "HOME" user.home)).setEnv login
          "PATH" computer.searchPath) := by
      iterate 5 refine .trans ?_ (.update _ _ fun _ => rfl)
      exact .refl _ _
    refine ⟨⟨id, hforked.trans hset, rfl⟩, fun _ h => ?_⟩
    cases h
    exact World.Owned.later (v := { w with processes := forked }) (Processes.user_forkAs hfork) hset

theorem run_restricted {call : Caller} (hcall : call.Restricted fs user start) {w : World} {c : Nat}
    (hc : ∀ computer, w.computers[c]? = some computer → computer.fs = fs) (console : Console)
    (config : ShellConfig) :
    Abides (restricted fs user start) w (run call c console config user) := by
  refine .get_bind ?_
  split
  · exact .throw _
  rename_i computer _
  have hentered : Restricted fs user start w (w.startLogin computer user).2 ∧ _ :=
    startLogin_restricted w computer
  refine .step_bind hentered.1 fun login hlogin => ?_
  have hlogged := hentered.2 login hlogin
  have hc := hentered.1.computers ▸ hc
  generalize (w.startLogin computer user).2 = v at hlogged hc ⊢
  have hfork : Restricted fs user start v (v.onProcesses (·.fork login)).2 := .fork v login
  refine .step_bind hfork fun process hchild => ?_
  have hprocess := hlogged.child hchild
  have hc : ∀ computer, (v.onProcesses (·.fork login)).2.computers[c]? = some computer →
      computer.fs = fs := hc
  generalize (v.onProcesses (·.fork login)).2 = u at hprocess hc ⊢
  have hname : Restricted fs user start u (u.updateProcesses (·.setName process "sh")) :=
    .setName ..
  have htitle (w : World) : Restricted fs user start w (console.setTitle w config.defaultTitle) :=
    .setTitle ..
  have hscope (w : World) : Restricted fs user start w w.addScope.2 := .of_eq rfl rfl rfl
  have hshell (w : World) : Restricted fs user start w (addShell w config.defaultTitle).2 :=
    .of_eq rfl rfl rfl
  have hhost (scope : Nat) : (Context.process process c config scope).Owned fs user u := by
    intro p d other hother
    cases hother
    exact ⟨hprocess, hc⟩
  have hbegun := hname.trans ((htitle _).trans ((hscope _).trans (hshell _)))
  refine .modify_bind hname (.modify_bind (htitle _) (.update_bind (hscope _)
    (.update_bind (hshell _) ?_)))
  refine (cycles_restricted hcall ((hhost _).later hbegun) ..).bind fun _ s _ => .get_bind ?_
  exact .modify_bind (Restricted.kill ..) (.pure _)

end Session

end ToyUnix
