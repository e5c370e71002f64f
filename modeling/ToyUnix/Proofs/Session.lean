import Mathlib
import ToyUnix.Proofs.Boot
import ToyUnix.Proofs.Shell.Prompt
import ToyUnix.Session

/-!
Terminal sessions. A session logs in, prompts until its shell is dead, and leaves nobody behind. Main
statement: `run_ends`.
-/

set_option autoImplicit false

namespace ToyUnix

open World (Frugal)

namespace Session

/-- What a session works with: a login, the process of the shell, and the shell. -/
structure Opened where
  login : Nat
  process : Nat
  id : Nat
  scope : Nat
  settings : ShellSettings
  host : Context

def opening (c : Nat) (console : Console) (config : ShellConfig) (user : User) : Job Opened := do
  let w ← Job.get
  match w.computers[c]? with
  | none => Job.throw (.config "no such computer")
  | some computer =>
    let login ← Job.step (World.startLogin · computer user)
    let process ← Job.step (World.onProcesses · (·.fork login))
    Job.modify (·.updateProcesses (·.setName process "sh"))
    Job.modify fun w => console.setTitle w config.defaultTitle
    let settings : ShellSettings := ⟨config, {}, config.gracefulErrors, console⟩
    let hostScope ← Job.update World.addScope
    let host := Context.process process c config hostScope
    let (id, scope) ← Job.update (addShell · config.defaultTitle)
    return ⟨login, process, id, scope, settings, host⟩

def closing (o : Opened) : Job Int := do
  let w ← Job.get
  let code := ((w.process? o.process).map (·.exitCode)).getD 0
  Job.modify (·.updateProcesses (·.kill o.login code))
  return code

theorem run_eq (call : Caller) (c : Nat) (console : Console) (config : ShellConfig) (user : User)
    (w : World) :
    run call c console config user w = (do
      let o ← opening c console config user
      cycles call o.id o.scope o.settings o.host o.process (console.linesLeft w + 2)
      closing o : Job Int) w := by
  unfold run opening closing
  rw [Job.get_bind, Job.bind_assoc, Job.get_bind]
  cases w.computers[c]? with
  | none => rfl
  | some computer =>
    simp only [Job.bind_assoc, pure_bind]

variable {w : World} {c : Nat} {console : Console} {config : ShellConfig} {user : User}

theorem startLogin_offspring {limit : Nat} (hsound : w.processes.Sound limit) {computer : Computer}
    {login : Nat} {v : World} (h : w.startLogin computer user = (.ok login, v)) :
    v = { w with processes := v.processes } ∧ w.processes.Offspring none v.processes ∧
      v.processes.all.length = w.processes.all.length + 1 := by
  have hforked := (Processes.Offspring.refl hsound none).forkAs computer.init user
  rcases hfork : w.processes.forkAs computer.init user with ⟨_ | child, forked⟩ <;>
    rw [hfork] at hforked <;> simp only [World.startLogin, World.onProcesses, hfork] at h
  · cases h
  · cases h
    obtain ⟨_, _, _, -, -, -, -, -, -, -, rfl, rfl⟩ := Processes.forkAs_ok hfork
    simp only [World.updateProcesses, Processes.setName, Processes.setCwd, Processes.setEnv]
    refine ⟨trivial, ?_, ?_⟩
    · iterate 5 refine Processes.Offspring.amend ?_ (Nat.le_refl _) (fun _ => rfl) fun _ => rfl
      exact hforked
    · simp only [Processes.length_update, List.length_append, List.length_singleton]

theorem login_fork {limit : Nat} {computer : Computer} (hsound : w.processes.Sound limit)
    (hbased : w.Based computer) (hinit : w.processes.isAlive computer.init = true)
    (huser : user ∈ computer.users) :
    ∃ entered forked : Processes,
      w.startLogin computer user =
        (.ok w.processes.all.length, { w with processes := entered }) ∧
      entered.fork w.processes.all.length = (.ok (w.processes.all.length + 1), forked) ∧
      w.processes.Offspring none forked ∧ forked.all.length = w.processes.all.length + 2 ∧
      forked.isAlive (w.processes.all.length + 1) = true := by
  obtain ⟨login, v, hlogin, -, hplace, -, halive, htable, hlogged, hv⟩ :=
    hbased.startLogin hinit huser
  obtain ⟨hvw, hoffspring, hlength⟩ := startLogin_offspring hsound hlogin
  obtain ⟨table, htables, hnumber, hpresent⟩ := hv.table
  have hown : login.user.computer = table.computer := by
    rw [hlogged, hbased.users user huser, hnumber]
  have hself : v.processes.all[w.processes.all.length]? = some login := hplace
  obtain ⟨child, -, -, hchild, hfork⟩ :=
    World.forkAs_own hself halive (htable ▸ htables) hpresent hown hown
  have hforked := hoffspring.forkAs w.processes.all.length login.user
  rw [hfork] at hforked
  refine ⟨v.processes, _, hvw ▸ hlogin, ?_, hforked, ?_, ?_⟩
  · rw [Processes.fork, hself, ← hlength]
    exact hfork
  · simp only [List.length_append, List.length_singleton, hlength]
  · rw [← hlength]
    exact Processes.isAlive_iff.2 ⟨child, List.getElem?_concat_length, hchild⟩

def outset (w : World) : Outset := .plain w (.standalone "" 0 0)

/-- What there is at the first prompt. -/
structure Begun (w : World) (o : Opened) (start : World) : Prop where
  since : (outset w).Since start
  login : o.login = w.processes.all.length
  process : o.process = w.processes.all.length + 1
  length_eq : start.processes.all.length = w.processes.all.length + 2
  alive : start.processes.isAlive o.process = true
  admits : (outset w).Admits (.shell o.id o.scope o.settings o.host)
  duty : start.duty? o.id = some ([], .idle)
  frugal : w.Frugal 0 start

theorem opening_begun {limit : Nat} {computer : Computer} (console : Console)
    (config : ShellConfig) (hsound : w.processes.Sound limit)
    (hcomputer : w.computers[c]? = some computer) (hbased : w.Based computer)
    (hinit : w.processes.isAlive computer.init = true) (huser : user ∈ computer.users) :
    ∃ o start, opening c console config user w = .done start (.ok o) ∧
      o.settings = ⟨config, {}, config.gracefulErrors, console⟩ ∧ Begun w o start := by
  obtain ⟨entered, forked, hlogin, hfork, hoffspring, hlength, halive⟩ :=
    login_fork hsound hbased hinit huser
  have hchild : World.onProcesses { w with processes := entered } (·.fork w.processes.all.length) =
      (.ok (w.processes.all.length + 1), { w with processes := forked }) := by
    simp only [World.onProcesses, hfork]
  let named := { w with processes := forked.setName (w.processes.all.length + 1) "sh" }
  let shown := console.setTitle named config.defaultTitle
  have hshown : named.Apart shown := Console.setTitle_apart ..
  let o : Opened := ⟨w.processes.all.length, w.processes.all.length + 1, shown.shells.length,
    shown.scopes.length + 1, ⟨config, {}, config.gracefulErrors, console⟩,
    .process (w.processes.all.length + 1) c config shown.scopes.length⟩
  refine ⟨o, (addShell shown.addScope.2 config.defaultTitle).2, ?_, rfl, ?_⟩
  · rw [opening, Job.get_bind, hcomputer]
    refine (Job.step_bind hlogin _).trans ((Job.step_bind hchild _).trans ?_)
    simp only [Job.modify_bind, Job.update_bind, addShell, World.addScope, List.length_append,
      List.length_singleton]
    rfl
  · let start := (addShell shown.addScope.2 config.defaultTitle).2
    have hprocesses : start.processes = named.processes := hshown.processes
    exact {
      since := by
        refine ⟨?_, ?_, fun _ h => absurd h List.not_mem_nil⟩
        · rw [hprocesses]
          exact hoffspring.amend (Nat.le_succ _) (fun _ => rfl) fun _ => rfl
        · have hscopes : shown.scopes = w.scopes := hshown.scopes
          simp only [outset, Outset.plain, addShell, World.addScope, hscopes, List.length_append]
          omega
      login := rfl
      process := rfl
      length_eq := by
        rw [hprocesses]
        exact (Processes.length_update ..).trans hlength
      alive := by
        rw [hprocesses]
        refine (Processes.isAlive_update forked _ ?_ _).trans halive
        exact fun _ => rfl
      admits := ⟨fun p hp => .inr (Option.some.inj hp ▸ Nat.le_succ _), fun _ _ => List.not_mem_nil⟩
      duty := by
        simp [World.duty?, addShell, World.addScope, o]
      frugal :=
        have hnamed : w.Frugal 0 named := .of_eq rfl rfl rfl rfl
        have hscoped : shown.Frugal 0 shown.addScope.2 := .of_eq rfl rfl rfl rfl
        hnamed.trans (.trans (.setTitle ..) (hscoped.trans (.addShell _ _ (Nat.zero_le _)))) }

def codeOf : Fault → Int
  | .ended code _ => code
  | _ => 1

theorem settle_error (console : Console) (process : Nat) (fault : Fault) (w : World) :
    ∃ told, w.Apart told ∧
      settle console process (.error fault) w =
        told.updateProcesses (·.kill process (codeOf fault)) := by
  cases fault with
  | ended code extent => exact ⟨w, .refl w, rfl⟩
  | _ => exact ⟨_, Console.writeLine_apart .., rfl⟩

/-- The worlds at the prompts of a session, and how many cycles there have been. -/
inductive Prompted (depth : Nat) (o : Opened) (start : World) : Nat → World → Prop
  | first : Prompted depth o start 0 start
  | next {k : Nat} {v s : World} {result : Except Fault Unit} (h : Prompted depth o start k v)
      (halive : v.processes.isAlive o.process = true)
      (hrun : (Shell.cycle (execute depth) o.id o.scope o.settings o.host v).finish =
        some (s, result)) :
      Prompted depth o start (k + 1) (settle o.settings.console o.process result s)

/-- What holds at a prompt. -/
structure Open (w : World) (o : Opened) (start : World) (k : Nat) (v : World) : Prop where
  since : (outset w).Since v
  spared : ∀ q, v.processes.isAlive q = start.processes.isAlive q
  duty : v.duty? o.id = some ([], .idle)
  within : o.settings.console.Within v
  lines : o.settings.console.lines v + k ≤ o.settings.console.lines w

variable {depth k : Nat} {o : Opened} {start v s : World}

theorem Begun.open (h : Begun w o start) (hw : o.settings.console.Within w) :
    Open w o start 0 start where
  since := h.since
  spared _ := rfl
  duty := h.duty
  within := (h.frugal.lines hw).1
  lines := (h.frugal.lines hw).2

theorem Open.cycle (hbegun : Begun w o start) (h : Open w o start k v)
    {result : Except Fault Unit}
    (hrun : (Shell.cycle (execute depth) o.id o.scope o.settings o.host v).finish =
      some (s, result)) :
    Open w o start k s ∧ (result = .ok () → Open w o start (k + 1) s) ∧
      ∀ fault, result = .error fault → Shell.Leaks o.settings fault := by
  obtain ⟨limit, hsound⟩ := h.since.processes.sound
  obtain ⟨hs, -, -⟩ := (Shell.tidy_cycle hbegun.admits depth).finish h.since hrun
  obtain ⟨hrested, hleaks⟩ := Shell.rested_cycle hrun
  obtain ⟨hwithin, hle, hless⟩ := Shell.lines_cycle h.within hrun
  have hspared (q : Nat) : s.processes.isAlive q = start.processes.isAlive q :=
    (Shell.isAlive_cycle hsound hrun q).trans (h.spared q)
  have hlines := h.lines
  refine ⟨⟨hs, hspared, hrested.duty h.duty, hwithin, by omega⟩, fun hok => ?_, hleaks⟩
  have := hless hok
  exact ⟨hs, hspared, hrested.duty h.duty, hwithin, by omega⟩

theorem dead_of_error (h : (outset w).Since s)
    (halive : s.processes.isAlive o.process = true) (fault : Fault) :
    (settle o.settings.console o.process (.error fault) s).processes.isAlive o.process = false := by
  obtain ⟨told, htold, hsettle⟩ := settle_error o.settings.console o.process fault s
  obtain ⟨limit, hsound⟩ := h.processes.sound
  rw [hsettle]
  have hkilled := hsound.gone_kill (Processes.isAlive_lt halive) (codeOf fault)
  rw [← htold.processes] at hkilled
  exact hkilled.2

theorem Prompted.open (hbegun : Begun w o start) (hw : o.settings.console.Within w)
    (h : Prompted depth o start k v) (halive : v.processes.isAlive o.process = true) :
    Open w o start k v := by
  induction h with
  | first => exact hbegun.open hw
  | @next k v s result _ hbefore hrun ih =>
    obtain ⟨hopen, hok, -⟩ := (ih hbefore).cycle hbegun hrun
    cases result with
    | ok done => exact hok rfl
    | error fault =>
      have hs : s.processes.isAlive o.process = true := (hopen.spared _).trans hbegun.alive
      rw [dead_of_error hopen.since hs] at halive
      cases halive

theorem Prompted.le_lines (hbegun : Begun w o start) (hw : o.settings.console.Within w)
    (h : Prompted depth o start k v) : k ≤ o.settings.console.lines w + 1 := by
  cases h with
  | first => exact Nat.zero_le _
  | next h halive hrun =>
    have := (h.open hbegun hw halive).lines
    omega

theorem cycles_dead {call : Caller} (h : v.processes.isAlive o.process = false) (limit : Nat) :
    cycles call o.id o.scope o.settings o.host o.process (limit + 1) v = .done v (.ok ()) := by
  rw [cycles, Job.get_bind, if_neg (by simp [h])]
  rfl

theorem cycles_prompted (h : Prompted depth o start k v) (limit : Nat) :
    (cycles (execute depth) o.id o.scope o.settings o.host o.process (k + limit) start).finish =
      (cycles (execute depth) o.id o.scope o.settings o.host o.process limit v).finish := by
  induction h generalizing limit with
  | first => rw [Nat.zero_add]
  | @next k v s result _ halive hrun ih =>
    rw [Nat.add_right_comm, Nat.add_assoc, ih, cycles, Job.get_bind, if_pos halive,
      Job.attempt_bind, Course.finish_bind, hrun]
    rfl

def Over (depth : Nat) (o : Opened) (start : World) (fault : Fault) : Prop :=
  ∃ k v s, Prompted depth o start k v ∧ v.processes.isAlive o.process = true ∧
    (Shell.cycle (execute depth) o.id o.scope o.settings o.host v).finish = some (s, .error fault)

/-- If all commands come to an end, then some cycle ends with a fault, as there are no more lines
some time. -/
theorem over_of_ends (hbegun : Begun w o start) (hw : o.settings.console.Within w)
    (hends : ∀ k v, Prompted depth o start k v → v.processes.isAlive o.process = true →
      Shell.CommandEnds depth o.id o.scope o.settings o.host v) :
    ∃ fault, Over depth o start fault := by
  -- By induction on how many cycles there may still be.
  have hfrom (left : Nat) : ∀ k v, Prompted depth o start k v →
      v.processes.isAlive o.process = true → k + left = o.settings.console.lines w + 1 →
        ∃ fault, Over depth o start fault := by
    induction left with
    | zero =>
      intro k v h halive hleft
      have := (h.open hbegun hw halive).lines
      omega
    | succ left ih =>
      intro k v h halive hleft
      have hopen := h.open hbegun hw halive
      obtain ⟨⟨s, result⟩, hrun⟩ :=
        Option.ne_none_iff_exists'.1 ((Shell.cycle_finishes_iff hopen.duty).2 (hends k v h halive))
      cases result with
      | error fault => exact ⟨fault, k, v, s, h, halive, hrun⟩
      | ok done =>
        have hspared := (hopen.cycle hbegun hrun).1.spared o.process
        exact ih (k + 1) s (h.next halive hrun) (hspared.trans hbegun.alive) (by omega)
  exact hfrom _ 0 start .first hbegun.alive (Nat.zero_add _)

theorem closing_eq {code : Int} (h : (v.process? o.process).map (·.exitCode) = some code) :
    closing o v = .done (v.updateProcesses (·.kill o.login code)) (.ok code) := by
  rw [closing, Job.get_bind, h]
  rfl

theorem closing_done {limit : Nat} (hsound : w.processes.Sound limit) (hbegun : Begun w o start)
    (hopen : Open w o start k s) (fault : Fault) :
    ∃ final, closing o (settle o.settings.console o.process (.error fault) s) =
        .done final (.ok (codeOf fault)) ∧
      ∀ t, final.processes.live t = w.processes.live t := by
  obtain ⟨told, htold, hsettle⟩ := settle_error o.settings.console o.process fault s
  have hlogin : w.processes.all.length ≤ o.login := Nat.le_of_eq hbegun.login.symm
  have hprocess : w.processes.all.length ≤ o.process := hbegun.process ▸ Nat.le_succ _
  have halive : s.processes.isAlive o.process = true := (hopen.spared _).trans hbegun.alive
  -- First the shell dies,
  obtain ⟨hreaped, hlength⟩ := hopen.since.processes.kill hprocess (codeOf fault)
  have hcode := hopen.since.processes.exitCode_kill hprocess halive (codeOf fault)
  have hdead {q : Nat} (hq : w.processes.all.length + 1 ≤ q) :
      (s.processes.kill o.process (codeOf fault)).isAlive q = false := by
    obtain ⟨limit', hs⟩ := hopen.since.processes.sound
    rcases Nat.eq_or_lt_of_le hq with rfl | hlt
    · rw [hbegun.process]
      exact (hs.gone_kill (hbegun.process ▸ Processes.isAlive_lt halive) _).2
    · refine hopen.since.processes.kill_dead hprocess _ ((hopen.spared q).trans ?_)
      by_contra hlives
      have := Processes.isAlive_lt (Bool.eq_true_of_not_eq_false hlives)
      rw [hbegun.length_eq] at this
      omega
  -- and then the login.
  have hended := (hreaped.kill hlogin (codeOf fault)).1
  refine ⟨{ told with processes := _ }, ?_, hended.live_eq hsound fun q hq => ?_⟩
  · rw [hsettle, World.updateProcesses, htold.processes]
    exact closing_eq hcode
  · rcases Nat.eq_or_lt_of_le hq with rfl | hlt
    · obtain ⟨limit', hs⟩ := hreaped.sound
      have := Processes.isAlive_lt halive
      rw [hbegun.process] at this
      rw [hbegun.login]
      exact (hs.gone_kill (by rw [hlength]; omega) _).2
    · exact hreaped.kill_dead hlogin _ (hdead hlt)

theorem run_over {limit : Nat} (hsound : w.processes.Sound limit) (hbegun : Begun w o start)
    (hopening : opening c console config user w = .done start (.ok o))
    (hconsole : o.settings.console = console) (hw : console.Within w) {fault : Fault}
    (h : Over depth o start fault) :
    ∃ final, (run (execute depth) c console config user w).finish =
        some (final, .ok (codeOf fault)) ∧
      ∀ t, final.processes.live t = w.processes.live t := by
  subst hconsole
  obtain ⟨k, v, s, hprompted, halive, hrun⟩ := h
  have hopen := hprompted.open hbegun hw halive
  obtain ⟨hafter, -, -⟩ := hopen.cycle hbegun hrun
  obtain ⟨final, hclosing, hlive⟩ := closing_done hsound hbegun hafter fault
  -- There are as many cycles as that, with two to spare.
  obtain ⟨more, hmore⟩ : ∃ more, o.settings.console.linesLeft w + 2 = k + (more + 2) := by
    have := hopen.lines
    have := Console.lines_le_linesLeft w o.settings.console
    exact ⟨o.settings.console.linesLeft w - k, by omega⟩
  have hdead := dead_of_error hafter.since ((hafter.spared _).trans hbegun.alive) fault
  have hcycles : (cycles (execute depth) o.id o.scope o.settings o.host o.process
      (o.settings.console.linesLeft w + 2) start).finish =
        some (settle o.settings.console o.process (.error fault) s, .ok ()) := by
    rw [hmore, cycles_prompted hprompted, cycles, Job.get_bind, if_pos halive, Job.attempt_bind,
      Course.finish_bind, hrun, Option.bind_some, Job.modify_bind, cycles_dead hdead]
    rfl
  refine ⟨final, ?_, hlive⟩
  rw [run_eq, Job.finish_bind, hopening]
  simp only [Course.finish, Option.bind_some]
  rw [Job.finish_bind, hcycles]
  simp only [Option.bind_some, hclosing, Course.finish]

/-- A session ends after at most as many prompt cycles as there are lines, and one more, if the
commands that it reads come to an end. It gives the code of the `exit` that the last cycle ends
with, which is 0 at the end of the input, and 1 if that is another fault, which does not happen to a
graceful shell. Afterwards the tables list the same live processes as before. -/
theorem run_ends {limit : Nat} {computer : Computer} (console : Console)
    (config : ShellConfig) (hsound : w.processes.Sound limit)
    (hcomputer : w.computers[c]? = some computer) (hbased : w.Based computer)
    (hinit : w.processes.isAlive computer.init = true) (huser : user ∈ computer.users)
    (hconsole : console.Within w) (depth : Nat) :
    ∃ o start, opening c console config user w = .done start (.ok o) ∧
      (∀ k v, Prompted depth o start k v → k ≤ console.lines w + 1) ∧
      (∀ v, (Shell.readCommand o.settings (Shell.showPrompt o.id o.settings o.host v)).1 = none →
        ∃ s, Shell.cycle (execute depth) o.id o.scope o.settings o.host v =
          .done s (.error (.exit 0))) ∧
      ((∀ k v, Prompted depth o start k v → v.processes.isAlive o.process = true →
          Shell.CommandEnds depth o.id o.scope o.settings o.host v) →
        ∃ final code, (run (execute depth) c console config user w).finish =
            some (final, .ok code) ∧
          (∀ t, final.processes.live t = w.processes.live t) ∧
          (∃ fault, Over depth o start fault) ∧
          ∀ fault, Over depth o start fault → (∀ n, fault = .exit n → code = n) ∧
            ((∀ n, fault ≠ .exit n) → config.gracefulErrors = false ∧ code = 1)) := by
  obtain ⟨o, start, hopening, hsettings, hbegun⟩ :=
    opening_begun console config hsound hcomputer hbased hinit huser
  have hsame : o.settings.console = console := congrArg ShellSettings.console hsettings
  have hw : o.settings.console.Within w := hsame ▸ hconsole
  refine ⟨o, start, hopening, fun k v h => hsame ▸ h.le_lines hbegun hw, fun v hread => ?_,
    fun hends => ?_⟩
  · rcases hcommand : Shell.readCommand o.settings (Shell.showPrompt o.id o.settings o.host v) with
      ⟨line, s⟩
    rw [hcommand] at hread
    obtain rfl : line = none := hread
    exact ⟨s, by rw [Shell.cycle_eq, hcommand]⟩
  · obtain ⟨first, hover⟩ := over_of_ends hbegun hw hends
    obtain ⟨final, hrun, hlive⟩ := run_over hsound hbegun hopening hsame hconsole hover
    refine ⟨final, codeOf first, hrun, hlive, ⟨first, hover⟩, fun fault hfault => ?_⟩
    obtain ⟨other, hrun', -⟩ := run_over hsound hbegun hopening hsame hconsole hfault
    obtain ⟨-, hcode⟩ := Prod.mk.inj (Option.some.inj (hrun.symm.trans hrun'))
    rw [Except.ok.inj hcode]
    refine ⟨fun n hn => hn ▸ rfl, fun hexit => ?_⟩
    obtain ⟨k, v, s, hprompted, halive, hcycle⟩ := hfault
    have hopen := hprompted.open hbegun hw halive
    obtain ⟨n, rfl⟩ | ⟨hgraceful, hended⟩ := (hopen.cycle hbegun hcycle).2.2 fault rfl
    · exact absurd rfl (hexit n)
    · rw [hsettings] at hgraceful
      refine ⟨hgraceful, ?_⟩
      cases fault with
      | ended code extent => exact absurd rfl (hended code extent)
      | _ => rfl

end Session

namespace Sample

open Session

def boxComputer : Computer :=
  ⟨0, "box", none, "", [root], .memory 0, 0, 0, 0, some 0, some .utilities⟩

theorem box_based : box.Based boxComputer where
  init := ⟨_, rfl, rfl, rfl, rfl⟩
  table := ⟨_, rfl, rfl, rfl⟩
  users user huser := by
    rw [List.mem_singleton.1 huser]
    rfl

def desk : World := { box with buffers := [{ input := ["", "exit 7"] }] }

def deskCycles : Option (Except Fault Unit × Except Fault Unit) :=
  match opening 0 (.buffer 0) {} root desk with
  | .done start (.ok o) =>
    (Shell.cycle (execute 9) o.id o.scope o.settings o.host start).finish.bind fun r =>
      (Shell.cycle (execute 9) o.id o.scope o.settings o.host r.1).finish.map fun r' => (r.2, r'.2)
  | _ => none

theorem deskCycles_eq : deskCycles = some (.ok (), .error (.exit 7)) := by cbv

/-- The empty line is one cycle, and the second ends the session. Nothing is left of it but what was
there before. -/
theorem desk_ended :
    desk.processes.Sound 1 ∧ desk.computers[0]? = some boxComputer ∧ desk.Based boxComputer ∧
    desk.processes.isAlive boxComputer.init = true ∧ root ∈ boxComputer.users ∧
    Console.Within desk (.buffer 0) ∧
    ∃ final, (run (execute 9) 0 (.buffer 0) {} root desk).finish = some (final, .ok 7) ∧
      final.processes.live 0 = [0] := by
  have hsound : desk.processes.Sound 1 := box_sound
  have hbased : desk.Based boxComputer := ⟨box_based.init, box_based.table, box_based.users⟩
  have huser : root ∈ boxComputer.users := List.mem_singleton_self root
  have hwithin : Console.Within desk (.buffer 0) := Nat.zero_lt_one
  have hcomputer : desk.computers[0]? = some boxComputer := rfl
  refine ⟨hsound, hcomputer, hbased, rfl, huser, hwithin, ?_⟩
  obtain ⟨o, start, hopening, hsettings, hbegun⟩ :=
    opening_begun (.buffer 0) {} hsound hcomputer hbased rfl huser
  have hconsole : o.settings.console.Within desk := hsettings ▸ hwithin
  -- The two cycles, and no third one.
  have hcycles := deskCycles_eq
  rw [deskCycles, hopening] at hcycles
  obtain ⟨⟨s, first⟩, hfirst, hnext⟩ := Option.bind_eq_some_iff.1 hcycles
  obtain ⟨⟨t, second⟩, hsecond, hresults⟩ := Option.map_eq_some_iff.1 hnext
  obtain ⟨rfl, rfl⟩ : first = .ok () ∧ second = .error (.exit 7) := Prod.mk.inj hresults
  have honly {k : Nat} {v : World} (h : Prompted 9 o start k v)
      (halive : v.processes.isAlive o.process = true) : v = start ∨ v = s := by
    induction h with
    | first => exact .inl rfl
    | @next k v u result hv hbefore hrun ih =>
      obtain rfl | rfl := ih hbefore
      · cases hfirst.symm.trans hrun
        exact .inr rfl
      · cases hsecond.symm.trans hrun
        obtain ⟨hopen, -, -⟩ := (hv.open hbegun hconsole hbefore).cycle hbegun hrun
        rw [dead_of_error hopen.since ((hopen.spared _).trans hbegun.alive)] at halive
        cases halive
  have hends : ∀ k v, Prompted 9 o start k v → v.processes.isAlive o.process = true →
      Shell.CommandEnds 9 o.id o.scope o.settings o.host v := by
    intro k v h halive
    refine (Shell.cycle_finishes_iff (h.open hbegun hconsole halive).duty).1 ?_
    obtain rfl | rfl := honly h halive
    · rw [hfirst]
      exact Option.some_ne_none _
    · rw [hsecond]
      exact Option.some_ne_none _
  have hover : Over 9 o start (.exit 7) := by
    obtain ⟨-, hopen, -⟩ := (hbegun.open hconsole).cycle hbegun hfirst
    exact ⟨1, s, t, .next .first hbegun.alive hfirst, ((hopen rfl).spared _).trans hbegun.alive,
      hsecond⟩
  obtain ⟨o', start', hopening', -, -, hrun⟩ :=
    run_ends (.buffer 0) {} hsound hcomputer hbased rfl huser hwithin 9
  cases hopening.symm.trans hopening'
  obtain ⟨final, code, hfinish, hlive, -, hcode⟩ := hrun hends
  obtain rfl := (hcode _ hover).1 7 rfl
  exact ⟨final, hfinish, (hlive 0).trans (by decide)⟩

end Sample

end ToyUnix
