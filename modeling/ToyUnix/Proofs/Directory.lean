import ToyUnix.Proofs.Homes
import ToyUnix.Proofs.Shell.Containment

/-!
Where `cd` leads. It goes to directories only, and a failed one goes nowhere. A directory that is
given is resolved first and so written out as paths are; the home directory is taken as `HOME` has
it, whatever a script has put there. Main statement: `Context.cd_canonical_iff`.
-/

set_option autoImplicit false

namespace ToyUnix

namespace Context

theorem whereabouts {host : Context} {p c : Nat} {config : ShellConfig}
    (hhost : host.host? = some (p, c, config)) (w : World) :
    host.cwd w = ((w.process? p).map (·.cwd)).getD "/" ∧
      (∀ path, host.setCwd w path = w.updateProcesses (·.setCwd p path)) ∧
      host.fileSystem? w = (w.computers[c]?).map (w.viewOf · p) := by
  induction host with
  | standalone title directory scope => cases hhost
  | process q d config scope =>
    cases hhost
    exact ⟨rfl, fun _ => rfl, rfl⟩
  | shell id scope settings host ih => exact ih hhost
  | nested scope parent ih => exact ih hhost

end Context

theorem World.process?_setCwd {w : World} {p : Nat} {process : Process}
    (hprocess : w.process? p = some process) (path : String) :
    (w.updateProcesses (·.setCwd p path)).process? p = some { process with cwd := path } := by
  have hupdate := Processes.getElem?_update w.processes p p fun process =>
    { process with cwd := path }
  rw [if_pos rfl] at hupdate
  exact hupdate.trans (by rw [show w.processes.all[p]? = some process from hprocess]; rfl)

namespace PathText

theorem isCanonical_normalize (text : String) : isCanonical (normalize text) = true := by
  rw [normalize_eq]
  exact Path.isCanonical_text (Path.canonical_ofText text)

theorem isCanonical_combine (base rel : String) : isCanonical (combine base rel) = true := by
  unfold combine
  split <;> exact isCanonical_normalize _

theorem isCanonical_makeAbsolute (cwd input home : String) :
    isCanonical (makeAbsolute cwd input home) = true := by
  unfold makeAbsolute
  split
  · exact isCanonical_normalize _
  · exact isCanonical_combine ..
  · exact isCanonical_combine ..

end PathText

namespace Builtin

def destination (w : World) (host : Context) : List String → String
  | [] => host.home w
  | dir :: _ => host.absolute w dir

theorem canonical_destination_iff (w : World) (host : Context) (args : List String) :
    PathText.isCanonical (destination w host args) = true ↔
      args ≠ [] ∨ PathText.isCanonical (host.home w) = true := by
  cases args with
  | nil => simp [destination]
  | cons dir rest => simp [destination, Context.absolute, PathText.isCanonical_makeAbsolute]

theorem changeDirectory_cases {host : Context} {p c : Nat} {config : ShellConfig}
    (hhost : host.host? = some (p, c, config)) {w : World} {process : Process}
    (hprocess : w.process? p = some process) {computer : Computer}
    (hcomputer : w.computers[c]? = some computer) (console : Console) (args : List String) :
    (w.files.isDirectory (computer.view process.user) (destination w host args) = true ∧
      changeDirectory w host console args =
        (0, w.updateProcesses (·.setCwd p (destination w host args)))) ∨
    ∃ after, changeDirectory w host console args = (1, after) ∧ w.Apart after := by
  obtain ⟨-, hset, hfiles⟩ := Context.whereabouts hhost w
  have hview : w.viewOf computer p = computer.view process.user := by rw [World.viewOf, hprocess]
  rw [hcomputer, Option.map_some, hview] at hfiles
  have hchange : changeDirectory w host console args =
      if w.files.isDirectory (computer.view process.user) (destination w host args) then
        (0, host.setCwd w (destination w host args))
      else (1, console.writeLine w
        ("sh: cd: " ++ destination w host args ++ ": Directory not found.")) := by
    cases args <;> simp only [changeDirectory, hfiles, destination] <;> rfl
  rw [hchange]
  split
  · rename_i hdirectory
    exact .inl ⟨hdirectory, by rw [hset]⟩
  · exact .inr ⟨_, rfl, Console.writeLine_apart ..⟩

end Builtin

namespace Context

/-- After `cd` the process is in a directory of the files that it sees, or it is where it was. The
directory is written out as paths are unless `cd` has been called without arguments where the home
directory is not. -/
theorem cd_canonical_iff {host : Context} {p c : Nat} {config : ShellConfig}
    (hhost : host.host? = some (p, c, config)) {w : World} {process : Process}
    (hprocess : w.process? p = some process) {computer : Computer}
    (hcomputer : w.computers[c]? = some computer) (id scope : Nat) (settings : ShellSettings)
    (console : Console) (args : List String) :
    ∃ (code : Int) (after : World) (later : Process),
      runBuiltin id scope settings host console "cd" args w = (.ok code, after) ∧
        after.process? p = some later ∧ host.cwd after = later.cwd ∧
        ((code = 0 ∧ after.files.isDirectory (computer.view later.user) later.cwd = true ∧
            (PathText.isCanonical later.cwd = true ↔
              args ≠ [] ∨ PathText.isCanonical (host.home w) = true)) ∨
          code = 1 ∧ later.cwd = process.cwd) := by
  have hcwd {after : World} {later : Process} (hlater : after.process? p = some later) :
      host.cwd after = later.cwd := by
    rw [(whereabouts hhost after).1, hlater]
    rfl
  simp only [runBuiltin]
  rcases Builtin.changeDirectory_cases hhost hprocess hcomputer console args with
    ⟨hdirectory, hchange⟩ | ⟨after, hchange, hapart⟩
  · have hlater := World.process?_setCwd hprocess (Builtin.destination w host args)
    exact ⟨0, _, _, by rw [hchange], hlater, hcwd hlater, .inl ⟨rfl, hdirectory,
      Builtin.canonical_destination_iff w host args⟩⟩
  · have hlater : after.process? p = some process := by
      rw [World.process?, hapart.processes]
      exact hprocess
    exact ⟨1, after, process, by rw [hchange], hlater, hcwd hlater, .inr ⟨rfl, rfl⟩⟩

end Context

namespace World

def login : World :=
  (((withMounts []).startLogin (computerOf []) standardUser).2.addScope.2).addScope.2

def loginHost : Context := .process 2 0 {} 0

def loginSettings : ShellSettings := ⟨{}, {}, true, .buffer 0⟩

def homed (home : String) : World := loginHost.set login "HOME" home

/-- `cd`, where the home directory is what it has been set to -/
def goHome (home : String) : Except Fault Int × World :=
  runBuiltin 0 1 loginSettings loginHost (.buffer 0) "cd" [] (homed home)

/-- The user goes to a home directory that has been changed to `/home`. -/
theorem cd_canonical_home :
    (goHome "/home").1 = .ok 0 ∧
      PathText.isCanonical (loginHost.cwd (goHome "/home").2) = true := by
  obtain ⟨process, hprocess⟩ : ∃ process, (homed "/home").process? 2 = some process :=
    Option.isSome_iff_exists.1 (by cbv)
  have hcomputer : (homed "/home").computers[0]? = some (computerOf []) := by cbv
  have hhome : loginHost.home (homed "/home") = "/home" := by cbv
  have hok : (goHome "/home").1 = .ok 0 := by cbv
  obtain ⟨code, after, later, hrun, -, hcwd, hcases⟩ :=
    loginHost.cd_canonical_iff rfl hprocess hcomputer 0 1 loginSettings (.buffer 0) []
  have hgone : goHome "/home" = (.ok code, after) := hrun
  rw [hgone] at hok ⊢
  cases hok
  rcases hcases with ⟨-, -, hcanonical⟩ | ⟨hone, -⟩
  · refine ⟨rfl, ?_⟩
    rw [hcwd, hcanonical, hhome]
    exact .inr (by decide)
  · cases hone

def loginShell : Context := .shell 0 1 loginSettings loginHost

/-- `HOME=//home/; cd` -/
def stray : Instruction :=
  .sequential (.command [("HOME", .ofText "//home/")] []) (.command [] [.ofText "cd"])

/-- A script gives the home directory with slashes too many and goes there, and the directory that
it is in then is none that is written as paths are. -/
theorem cd_strays :
    (parseScript {} "HOME=//home/; cd" false = .ok stray ∧
      (execute 3 loginShell (.buffer 0) stray login).finish.map
        (fun r => (r.2, loginShell.cwd r.1)) = some (.ok 0, "//home/")) ∧
    ¬ ∀ (host : Context) (p c : Nat) (config : ShellConfig) (w after : World) (process : Process)
        (computer : Computer) (id scope : Nat) (settings : ShellSettings) (console : Console)
        (args : List String), host.host? = some (p, c, config) → w.process? p = some process →
      w.computers[c]? = some computer →
        runBuiltin id scope settings host console "cd" args w = (.ok 0, after) →
          PathText.isCanonical (host.cwd after) = true := by
  refine ⟨⟨by cbv, by cbv⟩, fun hclaim => ?_⟩
  obtain ⟨process, hprocess⟩ : ∃ process, (homed "//home/").process? 2 = some process :=
    Option.isSome_iff_exists.1 (by cbv)
  have hcomputer : (homed "//home/").computers[0]? = some (computerOf []) := by cbv
  have hgone : goHome "//home/" = (.ok 0, (goHome "//home/").2) := Prod.ext (by cbv) rfl
  have hcanonical := hclaim loginHost 2 0 {} _ _ process (computerOf []) 0 1 loginSettings
    (.buffer 0) [] rfl hprocess hcomputer hgone
  have hcwd : loginHost.cwd (goHome "//home/").2 = "//home/" := by cbv
  rw [hcwd] at hcanonical
  exact absurd hcanonical (by decide)

end World

end ToyUnix
