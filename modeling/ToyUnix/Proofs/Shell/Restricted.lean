import ToyUnix.Proofs.Files.Custody
import ToyUnix.Proofs.Shell.Abiding
import ToyUnix.Proofs.Shell.Containment

/-!
Restricted runs. Whatever runs in a process of a user without root's rights changes files through
that user's view of them only, and whatever it starts belongs to the same user. Here are the steps
that do not call anything: consoles, variables, built-ins, redirections and the utilities.
-/

set_option autoImplicit false

namespace ToyUnix

open Files (Custody)

def World.Owned (w : World) (user : User) (p : Nat) : Prop :=
  (w.process? p).map (·.user) = some user

/-- What anybody does while the files are in the user's custody. -/
structure World.Restricted (fs : FileSystem) (user : User) (start : Files) (v w : World) :
    Prop where
  files : Custody fs user start v.files → Custody fs user start w.files
  processes : v.processes.Holds (·.user) w.processes
  computers : w.computers = v.computers

namespace World.Restricted

variable {fs : FileSystem} {user : User} {start : Files} {u v w : World}

theorem refl (w : World) : Restricted fs user start w w := ⟨id, .refl _ _, rfl⟩

theorem trans (huv : Restricted fs user start u v) (hvw : Restricted fs user start v w) :
    Restricted fs user start u w :=
  ⟨hvw.files ∘ huv.files, huv.processes.trans hvw.processes, hvw.computers.trans huv.computers⟩

theorem of_eq (hfiles : w.files = v.files) (hprocesses : w.processes = v.processes)
    (hcomputers : w.computers = v.computers) : Restricted fs user start v w :=
  ⟨fun h => hfiles ▸ h, hprocesses ▸ .refl _ _, hcomputers⟩

theorem of_files {files : Files} (h : Custody fs user start w.files → Custody fs user start files) :
    Restricted fs user start w { w with files } :=
  ⟨h, .refl _ _, rfl⟩

theorem updateProcesses {f : Processes → Processes}
    (h : w.processes.Holds (·.user) (f w.processes)) :
    Restricted fs user start w (w.updateProcesses f) :=
  ⟨id, h, rfl⟩

theorem kill (w : World) (p : Nat) (code : Int) :
    Restricted fs user start w (w.updateProcesses (·.kill p code)) :=
  updateProcesses (.run (fun _ _ _ _ => rfl) _ _)

theorem setName (w : World) (p : Nat) (name : String) :
    Restricted fs user start w (w.updateProcesses (·.setName p name)) :=
  updateProcesses (.update _ p fun _ => rfl)

theorem fork (w : World) (p : Nat) :
    Restricted fs user start w (w.onProcesses (·.fork p)).2 :=
  ⟨id, .fork _ _ p, rfl⟩

/-! Consoles. -/

theorem write (w : World) (text : String) (console : Console) :
    Restricted fs user start w (console.write w text) := by
  induction console with
  | input id parent ih => exact ih
  | file writer parent _ => exact of_files fun h => h.writeBytes writer _
  | _ => exact of_eq rfl rfl rfl

theorem writeLine (w : World) (text : String) (console : Console) :
    Restricted fs user start w (console.writeLine w text) :=
  (write w text console).trans (write ..)

theorem clear (w : World) (console : Console) : Restricted fs user start w (console.clear w) := by
  induction console with
  | input id parent ih => exact ih
  | _ => exact of_eq rfl rfl rfl

theorem setTitle (w : World) (text : String) (console : Console) :
    Restricted fs user start w (console.setTitle w text) := by
  induction console with
  | pipe id parent ih => exact ih
  | input id parent ih => exact ih
  | file writer parent ih => exact ih
  | _ => exact of_eq rfl rfl rfl

theorem readLine (w : World) (console : Console) :
    Restricted fs user start w (console.readLine w).2 := by
  induction console with
  | pipe id parent ih => exact ih
  | file writer parent ih => exact ih
  | _ =>
    simp only [Console.readLine]
    split <;> exact of_eq rfl rfl rfl

theorem drain (w : World) (console : Console) :
    Restricted fs user start w (console.drain w).2 := by
  cases console <;> exact of_eq rfl rfl rfl

theorem setMode (shell : Context) (mode : ShellMode) (w : World) :
    Restricted fs user start w (setMode shell mode w) := by
  cases shell <;> exact of_eq rfl rfl rfl

theorem complain (w : World) (console : Console) (message : Option String) :
    Restricted fs user start w (Builtin.complain w console message) := by
  cases message with
  | none => exact refl w
  | some text => exact writeLine ..

/-! Variables. -/

theorem set (w : World) (name value : String) (ctx : Context) :
    Restricted fs user start w (ctx.set w name value) := by
  induction ctx with
  | process p c config scope =>
    simp only [Context.set]
    split
    · exact updateProcesses (.update _ p fun _ => rfl)
    · exact of_eq rfl rfl rfl
  | shell id scope settings host ih => exact ih
  | _ => exact of_eq rfl rfl rfl

theorem assign (ctx : Context) (assignments : List (String × Word)) (w : World) :
    Restricted fs user start w (assign ctx assignments w) := by
  induction assignments generalizing w with
  | nil => exact refl w
  | cons first rest ih => exact (set w _ _ ctx).trans (ih _)

theorem setCwd (w : World) (path : String) (ctx : Context) :
    Restricted fs user start w (ctx.setCwd w path) := by
  induction ctx with
  | standalone title directory scope => exact of_eq rfl rfl rfl
  | process p c config scope => exact updateProcesses (.update _ p fun _ => rfl)
  | shell id scope settings host ih => exact ih
  | nested scope parent ih => exact ih

theorem runBuiltin (id scope : Nat) (settings : ShellSettings) (host : Context)
    (console : Console) (name : String) (args : List String) (w : World) :
    Restricted fs user start w (runBuiltin id scope settings host console name args w).2 := by
  unfold ToyUnix.runBuiltin
  split
  · exact (of_eq rfl rfl rfl : Restricted fs user start w (w.updateShell id _)).trans (setTitle ..)
  · exact complain ..
  · exact complain ..
  · exact clear ..
  · exact write ..
  · unfold Builtin.changeDirectory
    dsimp only
    split_ifs
    · exact setCwd ..
    · exact writeLine ..
  · exact complain ..

end World.Restricted

/-- What keeps the files in the user's custody. -/
def restricted (fs : FileSystem) (user : User) (start : Files) : Upkeep where
  keeps := World.Restricted fs user start
  refl := .refl
  trans := .trans

open World (Owned Restricted)

section Views

variable {fs : FileSystem} {user : User} {start : Files} {v w : World} {p : Nat}

theorem World.Owned.later (h : v.Owned user p) (hvw : v.processes.Holds (·.user) w.processes) :
    w.Owned user p := by
  obtain ⟨process, hprocess, rfl⟩ := Option.map_eq_some_iff.1 h
  obtain ⟨later, hlater, hsame⟩ := hvw p process hprocess
  exact Option.map_eq_some_iff.2 ⟨later, hlater, hsame⟩

theorem World.Owned.viewOf (h : w.Owned user p) (computer : Computer) :
    w.viewOf computer p = .view 0 computer.fs user := by
  obtain ⟨process, hprocess, rfl⟩ := Option.map_eq_some_iff.1 h
  rw [World.viewOf, hprocess]
  rfl

theorem Processes.user_forkAs {s s' : Processes} {child : Nat}
    (h : s.forkAs p user = (.ok child, s')) : (s'.all[child]?).map (·.user) = some user := by
  obtain ⟨_, _, born, -, -, -, -, -, hborn, -, rfl, rfl⟩ := Processes.forkAs_ok h
  simp only [Process.identity, Process.lineage, Prod.mk.injEq] at hborn
  rw [List.getElem?_concat_length, Option.map_some, hborn.1.2.1]

theorem World.Owned.child (h : w.Owned user p) {child : Nat}
    (hfork : (w.onProcesses (·.fork p)).1 = .ok child) :
    (w.onProcesses (·.fork p)).2.Owned user child := by
  obtain ⟨process, hprocess, rfl⟩ := Option.map_eq_some_iff.1 h
  have hforked : w.processes.forkAs p process.user =
      (.ok child, (w.onProcesses (·.fork p)).2.processes) := by
    rw [← hfork, World.onProcesses, Processes.fork,
      show w.processes.all[p]? = some process from hprocess]
  exact Processes.user_forkAs hforked

/-- A program that runs on those files in a process of the user. -/
structure Invocation.Owned (run : Invocation) (fs : FileSystem) (user : User) (w : World) :
    Prop where
  process : w.Owned user run.process
  computer : run.computer.fs = fs

theorem Invocation.Owned.later {run : Invocation} (h : run.Owned fs user v)
    (hvw : Restricted fs user start v w) : run.Owned fs user w :=
  ⟨h.process.later hvw.processes, h.computer⟩

theorem Invocation.Owned.fs_eq {run : Invocation} (h : run.Owned fs user w) :
    run.fs w = .view 0 fs user := by
  rw [Invocation.fs, h.process.viewOf, h.computer]

end Views

section Files

variable {fs : FileSystem} {user : User} {start : Files} {w : World}

theorem World.Restricted.apply (hstart : start.Homely fs user) (w : World) (text : String)
    {c : Change} (hmounts : (Request.change c).mounts = false) :
    Restricted fs user start w (w.onFiles (·.apply (.view 0 fs user) text c)).2 :=
  of_files fun h => Custody.view hstart h 0 text hmounts

theorem World.Restricted.flush (hstart : start.Homely fs user) (w : World) (console : Console) :
    Restricted fs user start w (console.flush w).2 := by
  induction console with
  | input id parent ih => exact ih
  | file writer parent _ =>
    have hflush := of_files (w := w) fun h => Custody.flush hstart h writer
    simp only [Console.flush]
    split <;> rename_i heq <;> rwa [heq] at hflush
  | _ => exact refl w

theorem World.Restricted.closeConsole (hstart : start.Homely fs user) (w : World)
    (console : Console) : Restricted fs user start w (closeConsole w console) := by
  cases console with
  | file writer parent => exact of_files fun h => Custody.closeWriter hstart h writer
  | _ => exact refl w

/-- A context whose host, if it has one, is a process of the user on those files. -/
def Context.Owned (fs : FileSystem) (user : User) (w : World) (ctx : Context) : Prop :=
  ∀ p c config, ctx.host? = some (p, c, config) →
    w.Owned user p ∧ ∀ computer, w.computers[c]? = some computer → computer.fs = fs

namespace Context.Owned

variable {v : World} {ctx : Context}

theorem later (h : ctx.Owned fs user v) (hvw : Restricted fs user start v w) :
    ctx.Owned fs user w := by
  intro p c config hhost
  obtain ⟨hp, hc⟩ := h p c config hhost
  exact ⟨hp.later hvw.processes, hvw.computers ▸ hc⟩

theorem around (h : ctx.Owned fs user w) {owner : Context} (howner : Encloses owner ctx) :
    owner.Owned fs user w := by
  induction howner with
  | here => exact h
  | shell _ ih => exact ih h
  | nested _ ih => exact ih h

theorem fileSystem (h : ctx.Owned fs user w) {found : FileSystem}
    (hfound : ctx.fileSystem? w = some found) : found = .view 0 fs user := by
  induction ctx with
  | standalone title directory scope => cases hfound
  | process p c config scope =>
    obtain ⟨hp, hc⟩ := h p c config rfl
    obtain ⟨computer, hcomputer, rfl⟩ := Option.map_eq_some_iff.1 hfound
    rw [hp.viewOf, hc computer hcomputer]
  | shell id scope settings host ih => exact ih h hfound
  | nested scope parent ih => exact ih h hfound

end Context.Owned

theorem World.Restricted.openConsole (hstart : start.Homely fs user) (w : World) {ctx : Context}
    (hctx : ctx.Owned fs user w) (console : Console) (path : String) (mode : RedirectMode) :
    Restricted fs user start w (ctx.openConsole w console path mode).2 := by
  have hopens := ctx.opens_openConsole w console path mode
  generalize ctx.openConsole w console path mode = opened at hopens ⊢
  have hfiles {found : FileSystem} {outcome : Except Fault Nat} {files : Files}
      (hfound : ctx.fileSystem? w = some found)
      (hopen : w.files.openWrite found (ctx.absolute w path) (mode = .append) = (outcome, files)) :
      Restricted fs user start w { w with files } := by
    obtain rfl := hctx.fileSystem hfound
    refine of_files fun h => ?_
    have hafter := Custody.openWrite hstart h 0 (ctx.absolute w path) (mode = .append)
    rwa [hopen] at hafter
  cases hopens with
  | refuse fault => exact refl w
  | input text => exact of_eq rfl rfl rfl
  | denied hmode hfound hopen => exact hfiles hfound hopen
  | writer hmode hfound hopen => exact hfiles hfound hopen

end Files

/-! Utilities. -/

namespace Utility

open Job (Abides)

variable {fs : FileSystem} {user : User} {start : Files} (run : Invocation)

theorem copyLines_restricted (limit : Nat) (w : World) :
    Restricted fs user start w (copyLines run limit w) := by
  induction limit generalizing w with
  | zero => exact .refl w
  | succ limit ih =>
    have hread : Restricted fs user start w (run.console.readLine w).2 := .readLine ..
    simp only [copyLines]
    split <;> rename_i h <;> rw [h] at hread
    · exact hread
    · exact (hread.trans (.writeLine ..)).trans (ih _)

theorem catFiles_restricted (code : Int) (args : List String) (w : World) :
    Restricted fs user start w (catFiles run code args w).2 := by
  induction args generalizing code w with
  | nil => exact .refl w
  | cons arg args ih =>
    simp only [catFiles]
    split
    · exact .trans (.write ..) (ih ..)
    · exact .trans (.writeLine ..) (ih ..)

theorem cat_restricted (w : World) : Restricted fs user start w (cat run w).2 := by
  unfold cat
  split
  · exact copyLines_restricted run _ w
  · exact catFiles_restricted run 0 _ w

theorem writeLines_restricted (w : World) (lines : List String) :
    Restricted fs user start w (writeLines run w lines) := by
  unfold writeLines
  induction lines generalizing w with
  | nil => exact .refl w
  | cons line lines ih => exact .trans (.writeLine ..) (ih _)

theorem heading_restricted (w : World) (many first : Bool) (arg : String) :
    Restricted fs user start w (heading run w many first arg) := by
  unfold heading
  split_ifs
  · exact .refl w
  · exact .writeLine ..
  · exact .trans (.write ..) (.writeLine ..)

theorem lsTargets_restricted (many first : Bool) (code : Int) (args : List String) (w : World) :
    Restricted fs user start w (lsTargets run many first code args w).2 := by
  induction args generalizing first code w with
  | nil => exact .refl w
  | cons arg args ih =>
    have hheading : Restricted fs user start w (heading run w many first arg) :=
      heading_restricted run w many first arg
    simp only [lsTargets]
    split
    · exact .trans (.writeLine ..) (ih ..)
    · split
      · exact .trans (.writeLine ..) (ih ..)
      · split
        · exact hheading
        · exact (hheading.trans (writeLines_restricted ..)).trans (ih ..)

theorem ls_restricted (w : World) : Restricted fs user start w (ls run w).2 :=
  lsTargets_restricted ..

theorem ps_restricted (w : World) : Restricted fs user start w (ps run w).2 :=
  writeLines_restricted ..

theorem pwd_restricted (w : World) : Restricted fs user start w (pwd run w).2 := .writeLine ..

theorem whoami_restricted (w : World) : Restricted fs user start w (whoami run w).2 :=
  .writeLine ..

theorem pingFrom_restricted (network : Nat) (address : String) (sequence left : Nat) (w : World) :
    Abides (restricted fs user start) w (pingFrom run network address sequence left) := by
  induction left generalizing sequence w with
  | zero => exact .pure 0
  | succ left ih =>
    refine .get_bind (.modify_bind (World.Restricted.writeLine ..) ?_)
    exact Abides.pause.bind fun _ s _ => (ih _ s).bind fun others s _ => .pure _

theorem ping_restricted (w : World) : Abides (restricted fs user start) w (ping run) := by
  have hsay (text : String) (w : World) :
      (restricted fs user start).keeps w (run.writeLine w text) := World.Restricted.writeLine ..
  unfold ping
  split
  · exact .throw _
  · refine .get_bind ?_
    split
    · exact .modify_bind (hsay ..) (.pure 2)
    · split
      · exact .modify_bind (hsay ..) (.pure 2)
      · refine .modify_bind (hsay ..) ((pingFrom_restricted run ..).bind fun received s _ => ?_)
        exact .modify_bind (hsay ..) (.pure _)

section Changes

variable (hstart : start.Homely fs user) {run}
include hstart

theorem chmodFiles_restricted (value : Bool) (code : Int) (args : List String) {w : World}
    (h : run.Owned fs user w) : Restricted fs user start w (chmodFiles run value code args w).2 := by
  induction args generalizing code w with
  | nil => exact .refl w
  | cons arg args ih =>
    have hset := World.Restricted.apply hstart w (run.target w arg) (c := .setExecutable value) rfl
    rw [← h.fs_eq] at hset
    simp only [chmodFiles]
    split
    · rename_i after heq
      rw [heq] at hset
      exact hset.trans (ih _ (h.later hset))
    · rename_i fault after heq
      rw [heq] at hset
      have hsaid := hset.trans (.writeLine after ("chmod: " ++ fault.message) run.console)
      exact hsaid.trans (ih _ (h.later hsaid))

theorem chmod_restricted {w : World} (h : run.Owned fs user w) :
    Restricted fs user start w (chmod run w).2 := by
  unfold chmod
  split
  · exact .refl w
  · dsimp only
    split_ifs
    · exact chmodFiles_restricted hstart _ _ _ h
    · exact chmodFiles_restricted hstart _ _ _ h
    · exact .refl w

theorem mkdirTargets_restricted (parents : Bool) (code : Int) (args : List String) {w : World}
    (h : run.Owned fs user w) :
    Restricted fs user start w (mkdirTargets run parents code args w).2 := by
  induction args generalizing code w with
  | nil => exact .refl w
  | cons arg args ih =>
    have hmake := World.Restricted.apply hstart w (run.target w arg) (c := .makeDirectory) rfl
    rw [← h.fs_eq] at hmake
    have hsay (w : World) (text : String) : Restricted fs user start w (run.writeLine w text) :=
      .writeLine ..
    simp only [mkdirTargets]
    split
    · split
      · exact ih _ h
      · exact (hsay ..).trans (ih _ (h.later (hsay ..)))
    · split
      · rename_i after heq
        rw [heq] at hmake
        exact hmake.trans (ih _ (h.later hmake))
      · rename_i fault after heq
        rw [heq] at hmake
        have hsaid := hmake.trans (hsay after ("mkdir: " ++ fault.message))
        exact hsaid.trans (ih _ (h.later hsaid))

theorem mkdir_restricted {w : World} (h : run.Owned fs user w) :
    Restricted fs user start w (mkdir run w).2 := by
  unfold mkdir
  split
  · exact .refl w
  · exact mkdirTargets_restricted hstart _ _ _ h

theorem change_restricted (w : World) (path : String) {c : Change}
    (hmounts : (Request.change c).mounts = false) :
    Abides (restricted fs user start) w (change (.view 0 fs user) path c) :=
  .step (World.Restricted.apply hstart w path hmounts)

theorem deleteEach_restricted {c : Change} (hmounts : (Request.change c).mounts = false)
    (paths : List String) (w : World) :
    Abides (restricted fs user start) w (deleteEach (.view 0 fs user) c paths) := by
  induction paths generalizing w with
  | nil => exact .pure ()
  | cons path paths ih =>
    exact (change_restricted hstart w path hmounts).bind fun _ s _ =>
      Abides.pause.bind fun _ s _ => ih s

theorem removeFiles_restricted (limit : Nat) (pending visited : List String) (w : World) :
    Abides (restricted fs user start) w (removeFiles (.view 0 fs user) limit pending visited) := by
  induction limit generalizing pending visited w with
  | zero =>
    cases pending with
    | nil => exact .pure visited
    | cons dir pending => exact .exhausted
  | succ limit ih =>
    cases pending with
    | nil => exact .pure visited
    | cons dir pending =>
      refine (Abides.step (World.Restricted.refl w)).bind fun files s _ => ?_
      refine (deleteEach_restricted hstart rfl files s).bind fun _ s _ => ?_
      exact (Abides.step (World.Restricted.refl s)).bind fun dirs s _ => ih _ _ s

theorem rmTarget_restricted (limit : Nat) (recursive force : Bool) (arg target : String)
    (w : World) : Abides (restricted fs user start) w
      (rmTarget limit (.view 0 fs user) recursive force arg target) := by
  refine .get_bind ?_
  split
  · exact change_restricted hstart w target rfl
  split
  · split
    · exact .pure ()
    · exact .throw _
  split
  · exact (removeFiles_restricted hstart ..).bind fun visited s _ =>
      deleteEach_restricted hstart rfl visited s
  · exact .throw _

theorem rmTargets_restricted (limit : Nat) (recursive force : Bool) (code : Int)
    (args : List String) {w : World} (h : run.Owned fs user w) :
    Abides (restricted fs user start) w (rmTargets run limit recursive force code args) := by
  induction args generalizing code w with
  | nil => exact .pure code
  | cons arg args ih =>
    refine .get_bind ?_
    rw [h.fs_eq]
    refine (rmTarget_restricted hstart ..).attempt.bind fun result s hs => ?_
    have h := h.later hs
    cases result with
    | ok _ => exact ih _ h
    | error fault =>
      have hsay : Restricted fs user start s (run.writeLine s
        ("rm: cannot remove '" ++ arg ++ "': " ++ fault.message)) := .writeLine ..
      exact .modify_bind hsay (ih _ (h.later hsay))

theorem rm_restricted (limit : Nat) {w : World} (h : run.Owned fs user w) :
    Abides (restricted fs user start) w (rm run limit) := by
  unfold rm
  split
  · exact .throw _
  · exact rmTargets_restricted hstart _ _ _ _ _ h

end Changes

end Utility

theorem Program.run_restricted {fs : FileSystem} {user : User} {start : Files}
    (hstart : start.Homely fs user) (program : Program) (limit : Nat) {run : Invocation} {w : World}
    (h : run.Owned fs user w) :
    Job.Abides (restricted fs user start) w (program.run limit run) := by
  have hupdate {u : World → Int × World} (hu : Restricted fs user start w (u w).2) :
      Job.Abides (restricted fs user start) w (Job.update u) := .update hu
  cases program with
  | cat => exact hupdate (Utility.cat_restricted run w)
  | chmod => exact .step (Utility.chmod_restricted hstart h)
  | ls => exact .step (Utility.ls_restricted run w)
  | mkdir => exact .step (Utility.mkdir_restricted hstart h)
  | ping => exact Utility.ping_restricted run w
  | ps => exact hupdate (Utility.ps_restricted run w)
  | pwd => exact hupdate (Utility.pwd_restricted run w)
  | rm => exact Utility.rm_restricted hstart limit h
  | whoami => exact hupdate (Utility.whoami_restricted run w)

end ToyUnix
