import ToyUnix.Proofs.Console
import ToyUnix.Proofs.Shell.Manners

/-!
Frugality. All that commands do to the input of consoles is to read from it, so none ever has more
lines left than before; and a shell that is there when a command begins has the same to do
afterwards, since scripts are run in shells of their own. This holds of every run, whatever its
branches do between each other's turns: see `execute_frugal`.
-/

set_option autoImplicit false

namespace ToyUnix

/-- Whatever is listed is still listed in its place, and has not grown. -/
def Shrinks {α : Type} (size : α → Nat) (xs ys : List α) : Prop :=
  ∀ (i : Nat) x, xs[i]? = some x → ∃ y, ys[i]? = some y ∧ size y ≤ size x

namespace Shrinks

variable {α : Type} (size : α → Nat) {xs ys zs : List α}

theorem refl (xs : List α) : Shrinks size xs xs := fun _ x hx => ⟨x, hx, Nat.le_refl _⟩

variable {size} in
theorem trans (hxy : Shrinks size xs ys) (hyz : Shrinks size ys zs) : Shrinks size xs zs := by
  intro i x hx
  obtain ⟨y, hy, hle⟩ := hxy i x hx
  obtain ⟨z, hz, hle'⟩ := hyz i y hy
  exact ⟨z, hz, Nat.le_trans hle' hle⟩

theorem append (xs more : List α) : Shrinks size xs (xs ++ more) := by
  intro i x hx
  refine ⟨x, ?_, Nat.le_refl _⟩
  rw [List.getElem?_append_left (List.getElem?_eq_some_iff.1 hx).1, hx]

theorem modify (xs : List α) (i : Nat) {f : α → α}
    (hf : ∀ x, xs[i]? = some x → size (f x) ≤ size x) : Shrinks size xs (xs.modify i f) := by
  intro j x hx
  rw [List.getElem?_modify, hx]
  by_cases hj : i = j
  · subst hj
    exact ⟨f x, by simp, hf x hx⟩
  · exact ⟨x, by simp [hj], Nat.le_refl _⟩

variable {size} in
theorem size_le {i : Nat} {x : α} (h : Shrinks size xs ys) (hx : xs[i]? = some x) :
    i < ys.length ∧ (ys[i]?.map size).getD 0 ≤ size x := by
  obtain ⟨y, hy, hle⟩ := h i x hx
  rw [hy]
  exact ⟨(List.getElem?_eq_some_iff.1 hy).1, hle⟩

end Shrinks

namespace World

def duty? (w : World) (id : Nat) : Option (List Instruction × ShellMode) :=
  w.shells[id]?.map fun shell => (shell.pending, shell.mode)

/-- The first `n` shells have the same to do, and no console has more to read. -/
structure Frugal (n : Nat) (v w : World) : Prop where
  room : v.shells.length ≤ w.shells.length
  shells : ∀ id < n, w.duty? id = v.duty? id
  buffers : Shrinks (·.input.length) v.buffers w.buffers
  terminals : Shrinks (lineCount ·.input) v.terminals w.terminals
  inputs : Shrinks List.length v.inputs w.inputs

namespace Frugal

variable {n : Nat} {u v w : World}

theorem refl (w : World) : Frugal n w w :=
  ⟨Nat.le_refl _, fun _ _ => rfl, .refl _ _, .refl _ _, .refl _ _⟩

theorem trans (huv : Frugal n u v) (hvw : Frugal n v w) : Frugal n u w where
  room := Nat.le_trans huv.room hvw.room
  shells id hid := (hvw.shells id hid).trans (huv.shells id hid)
  buffers := huv.buffers.trans hvw.buffers
  terminals := huv.terminals.trans hvw.terminals
  inputs := huv.inputs.trans hvw.inputs

theorem of_eq (hshells : w.shells = v.shells) (hbuffers : w.buffers = v.buffers)
    (hterminals : w.terminals = v.terminals) (hinputs : w.inputs = v.inputs) : Frugal n v w where
  room := hshells ▸ Nat.le_refl _
  shells id _ := by rw [duty?, duty?, hshells]
  buffers := hbuffers ▸ .refl _ _
  terminals := hterminals ▸ .refl _ _
  inputs := hinputs ▸ .refl _ _

theorem updateShell (w : World) (id : Nat) {f : ShellState → ShellState}
    (hf : id < n → ∀ shell, (f shell).pending = shell.pending ∧ (f shell).mode = shell.mode) :
    Frugal n w (w.updateShell id f) where
  room := Nat.le_of_eq (List.length_modify ..).symm
  shells other hother := by
    simp only [duty?, World.updateShell, List.getElem?_modify]
    by_cases heq : id = other
    · subst heq
      cases w.shells[id]? with
      | none => rfl
      | some shell => simp [hf hother shell]
    · simp [heq]
  buffers := .refl _ _
  terminals := .refl _ _
  inputs := .refl _ _

theorem anyShell (w : World) (id : Nat) (f : ShellState → ShellState) :
    Frugal 0 w (w.updateShell id f) :=
  updateShell w id fun h => absurd h (Nat.not_lt_zero _)

theorem addShell (w : World) (title : String) (h : n ≤ w.shells.length) :
    Frugal n w (addShell w title).2 where
  room := by simp [ToyUnix.addShell, addScope]
  shells id hid := by
    simp only [duty?, ToyUnix.addShell, addScope]
    rw [List.getElem?_append_left (Nat.lt_of_lt_of_le hid h)]
  buffers := .refl _ _
  terminals := .refl _ _
  inputs := .refl _ _

theorem updateBuffer (w : World) (id : Nat) {f : BufferState → BufferState}
    (hf : ∀ state, w.buffers[id]? = some state → (f state).input.length ≤ state.input.length) :
    Frugal n w (Console.updateBuffer w id f) :=
  ⟨Nat.le_refl _, fun _ _ => rfl, .modify _ _ _ hf, .refl _ _, .refl _ _⟩

theorem updateTerminal (w : World) (id : Nat) {f : TerminalState → TerminalState}
    (hf : ∀ state, w.terminals[id]? = some state →
      lineCount (f state).input ≤ lineCount state.input) :
    Frugal n w (Console.updateTerminal w id f) :=
  ⟨Nat.le_refl _, fun _ _ => rfl, .refl _ _, .modify _ _ _ hf, .refl _ _⟩

theorem write (w : World) (text : String) (console : Console) :
    Frugal n w (console.write w text) := by
  induction console with
  | buffer id => exact updateBuffer w id fun _ _ => Nat.le_refl _
  | terminal id => exact updateTerminal w id fun _ _ => Nat.le_refl _
  | input id parent ih => exact ih
  | _ => exact of_eq rfl rfl rfl rfl

theorem clear (w : World) (console : Console) : Frugal n w (console.clear w) := by
  induction console with
  | buffer id => exact updateBuffer w id fun _ _ => Nat.le_refl _
  | terminal id => exact updateTerminal w id fun _ _ => Nat.le_refl _
  | input id parent ih => exact ih
  | _ => exact refl w

theorem setTitle (w : World) (text : String) (console : Console) :
    Frugal n w (console.setTitle w text) := by
  induction console with
  | buffer id => exact updateBuffer w id fun _ _ => Nat.le_refl _
  | terminal id =>
    refine trans (v := Console.updateTerminal w id fun state => { state with title := text }) ?_ ?_
    · exact updateTerminal w id fun _ _ => Nat.le_refl _
    · exact updateTerminal _ id fun _ _ => Nat.le_refl _
  | pipe id parent ih => exact ih
  | input id parent ih => exact ih
  | file writer parent ih => exact ih

theorem drain (w : World) (console : Console) : Frugal n w (console.drain w).2 := by
  cases console with
  | buffer id => exact updateBuffer w id fun _ _ => Nat.le_refl _
  | terminal id => exact updateTerminal w id fun _ _ => Nat.le_refl _
  | _ => exact of_eq rfl rfl rfl rfl

theorem addInput (w : World) (lines : List String) :
    Frugal n w { w with inputs := w.inputs ++ [lines] } :=
  ⟨Nat.le_refl _, fun _ _ => rfl, .refl _ _, .refl _ _, .append _ _ _⟩

theorem addPipe (w : World) (console : Console) : Frugal n w (Console.addPipe w console).2 :=
  of_eq rfl rfl rfl rfl

theorem readLine (w : World) (console : Console) : Frugal n w (console.readLine w).2 := by
  induction console with
  | buffer id =>
    simp only [Console.readLine]
    split
    · rename_i first rest hinput
      refine updateBuffer w id fun state hstate => ?_
      rw [hstate, Option.map_some, Option.some.injEq] at hinput
      simp [hinput]
    · exact refl w
  | terminal id =>
    simp only [Console.readLine]
    split
    · exact refl w
    · rename_i state hstate
      refine updateTerminal w id fun other hother => ?_
      obtain rfl := Option.some.inj (hstate.symm.trans hother)
      exact (lineCount_takeTerminalLine state.input).1
  | input id parent =>
    simp only [Console.readLine]
    split
    · rename_i first rest hinput
      refine ⟨Nat.le_refl _, fun _ _ => rfl, .refl _ _, .refl _ _, fun i lines hlines => ?_⟩
      rw [List.getElem?_set]
      by_cases hi : id = i
      · subst hi
        obtain rfl := Option.some.inj (hinput.symm.trans hlines)
        exact ⟨rest, by simp [(List.getElem?_eq_some_iff.1 hinput).1], by simp⟩
      · exact ⟨lines, by simp [hi, hlines], Nat.le_refl _⟩
    · exact refl w
  | pipe id parent ih => exact ih
  | file writer parent ih => exact ih

theorem lines (h : Frugal n v w) {console : Console} (hv : console.Within v) :
    console.Within w ∧ console.lines w ≤ console.lines v := by
  induction console with
  | buffer id =>
    have := h.buffers.size_le (List.getElem?_eq_getElem hv)
    simpa [Console.lines, Console.Within, List.getElem?_eq_getElem hv] using this
  | terminal id =>
    have := h.terminals.size_le (List.getElem?_eq_getElem hv)
    simpa [Console.lines, Console.Within, List.getElem?_eq_getElem hv] using this
  | input id parent =>
    have := h.inputs.size_le (List.getElem?_eq_getElem hv)
    simpa [Console.lines, Console.Within, List.getElem?_eq_getElem hv] using this
  | pipe id parent ih => exact ih hv
  | file writer parent ih => exact ih hv

/-! What commands do apart from that. -/

theorem updateProcesses (w : World) (f : Processes → Processes) :
    Frugal n w (w.updateProcesses f) :=
  of_eq rfl rfl rfl rfl

theorem updateScope (w : World) (i : Nat) (f : Scope → Scope) : Frugal n w (w.updateScope i f) :=
  of_eq rfl rfl rfl rfl

theorem addScope (w : World) : Frugal n w w.addScope.2 := of_eq rfl rfl rfl rfl

theorem set (w : World) (name value : String) (ctx : Context) :
    Frugal n w (ctx.set w name value) := by
  induction ctx with
  | process p c config scope =>
    simp only [Context.set]
    split
    · exact updateProcesses w _
    · exact updateScope w scope _
  | shell id scope settings host ih => exact ih
  | _ => exact updateScope w _ _

theorem assign (ctx : Context) (assignments : List (String × Word)) (w : World) :
    Frugal n w (assign ctx assignments w) := by
  induction assignments generalizing w with
  | nil => exact refl w
  | cons first rest ih => exact (set w _ _ ctx).trans (ih _)

theorem setCwd (w : World) (path : String) (ctx : Context) : Frugal n w (ctx.setCwd w path) := by
  induction ctx with
  | shell id scope settings host ih => exact ih
  | nested scope parent ih => exact ih
  | _ => exact of_eq rfl rfl rfl rfl

end Frugal

end World

def Manners.frugal (n : Nat) : Manners where
  keeps := World.Frugal n
  refl := .refl
  trans := .trans
  ready w := n ≤ w.shells.length
  later h hready := Nat.le_trans hready h.room
  write := .write
  clear := .clear
  setTitle := .setTitle
  readLine := .readLine
  addInput := .addInput
  files _ _ := .of_eq rfl rfl rfl rfl
  retitle w id _ := .updateShell w id fun _ _ => ⟨rfl, rfl⟩

open Job (Keeps)
open World (Frugal)

variable {n : Nat} {call : Caller} {console : Console} {name : String} {args : List String}

theorem reportFault_frugal (settings : ShellSettings) (fault : Fault) :
    (reportFault settings fault).Keeps (.frugal n) := by
  unfold reportFault
  split
  · exact Keeps.modify fun w => (Manners.frugal n).writeLine ..
  · exact Keeps.throw fault

theorem setMode_frugal {id scope : Nat} {settings : ShellSettings} {host : Context} (hid : n ≤ id)
    (mode : ShellMode) (w : World) :
    Frugal n w (setMode (.shell id scope settings host) mode w) :=
  .updateShell w id fun hlt => absurd hlt (Nat.not_lt.2 hid)

section Calls

variable (hcall : ∀ ctx console tree, (call ctx console tree).Keeps (.frugal n))
include hcall

theorem callFunction_frugal (owner : Context) (body : Instruction) :
    (callFunction call owner body console name args).Keeps (.frugal n) := by
  unfold callFunction
  refine (Keeps.update fun w => ?_).bind fun frame => ?_
  · exact Frugal.updateScope w _ _
  · refine (hcall owner console body).attempt.bind fun result => ?_
    exact (Keeps.modify fun w => Frugal.updateScope w _ _).bind fun _ => Keeps.ofExcept _

theorem tryCommand_frugal (ctx : Context) :
    (tryCommand call ctx console name args).Keeps (.frugal n) := by
  refine Keeps.get.bind fun w => ?_
  split
  · exact Keeps.pure none
  · exact (callFunction_frugal hcall ..).fmap some
  · rename_i id scope settings host _
    refine (Keeps.step fun v => ?_).fmap some
    rcases (Manners.frugal n).runBuiltin_or id scope settings host console name args v with
      h | ⟨path, h⟩
    · exact h
    · exact h ▸ Frugal.setCwd ..

theorem runScript_frugal {id scope : Nat} (settings : ShellSettings) (host : Context)
    (hid : n ≤ id) (text : String) :
    (runScript call (.shell id scope settings host) settings text).Keeps (.frugal n) := by
  unfold runScript
  split
  · exact (reportFault_frugal ..).bind fun _ => Keeps.pure 2
  · refine (Keeps.modify (setMode_frugal hid .executing)).bind fun _ => ?_
    refine (hcall _ _ _).attempt.bind fun result => ?_
    refine (Keeps.modify (setMode_frugal hid .idle)).bind fun _ => ?_
    cases catchEnd result with
    | ok code => exact Keeps.pure code
    | error fault => exact (reportFault_frugal ..).bind fun _ => Keeps.pure 1

theorem runScriptFile_frugal (config : ShellConfig)
    (p c : Nat) (path source : String) :
    (runScriptFile call config p c console path source args).Keeps (.frugal n) := by
  unfold runScriptFile
  refine (Keeps.update fun w => ?_).bind fun host => ?_
  · exact (Frugal.addScope w).trans (.updateScope ..)
  · exact Keeps.update_bind (fun w hw => Frugal.addShell w _ hw) fun w hw =>
      runScript_frugal hcall _ _ hw source

theorem runExecutable_frugal (limit : Nat)
    (scripts : Option ShellConfig) (p c : Nat) (computer : Computer) (path : String)
    (executable : Executable) :
    (runExecutable call limit scripts p c computer console path args executable).Keeps
      (.frugal n) := by
  cases executable with
  | native program => exact program.run_keeps ..
  | script source =>
    cases scripts with
    | none => exact Keeps.throw _
    | some config => exact runScriptFile_frugal hcall config p c path source

theorem executeProgram_frugal (limit : Nat)
    (scripts : Option ShellConfig) (parent c : Nat) :
    (executeProgram call limit scripts parent c console name args).Keeps (.frugal n) := by
  refine Keeps.get.bind fun w => ?_
  split
  · exact Keeps.pure none
  split
  · exact Keeps.pure none
  refine (Keeps.step fun v => Frugal.updateProcesses v fun _ => _).bind fun child => ?_
  refine (Keeps.modify fun v => Frugal.updateProcesses v _).bind fun _ => ?_
  refine (runExecutable_frugal hcall ..).attempt.bind fun result => ?_
  cases catchEnd result with
  | ok code =>
    exact (Keeps.modify fun v => Frugal.updateProcesses v _).bind fun _ => Keeps.pure _
  | error fault =>
    exact (Keeps.modify fun v => Frugal.updateProcesses v _).bind fun _ => Keeps.throw fault

theorem runUnknown_frugal (limit : Nat)
    (ctx : Context) : (runUnknown call limit console name args ctx).Keeps (.frugal n) := by
  have hmissing : (reportNotFound console name).Keeps (.frugal n) :=
    (Keeps.modify fun w => (Manners.frugal n).writeLine ..).bind fun _ => Keeps.pure 127
  induction ctx with
  | standalone title directory scope => exact hmissing
  | process p c config scope =>
    refine (executeProgram_frugal hcall ..).bind fun found => ?_
    cases found with
    | none => exact hmissing
    | some code => exact Keeps.pure code
  | shell id scope settings host ih => exact ih
  | nested scope parent ih => exact ih

theorem runSimple_frugal (limit : Nat) (ctx : Context) (assignments : List (String × Word))
    (words : List Word) :
    (runSimple call limit ctx console assignments words).Keeps (.frugal n) := by
  have hstatus (code : Int) : (Job.modify (setStatus ctx code)).Keeps (.frugal n) :=
    Keeps.modify fun w => Frugal.set w _ _ ctx
  refine (Keeps.update fun w => Frugal.assign ctx assignments w).bind fun argv => ?_
  cases argv with
  | nil => exact (hstatus 0).bind fun _ => Keeps.pure 0
  | cons name args =>
    refine Keeps.bind ?_ fun code => (hstatus code).bind fun _ => Keeps.pure code
    refine (tryCommand_frugal hcall ctx).bind fun found => ?_
    cases found with
    | none => exact runUnknown_frugal hcall limit ctx
    | some code => exact Keeps.pure code

theorem Instruction.run_frugal (limit : Nat)
    (tree : Instruction) (ctx : Context) (console : Console) :
    (tree.run call limit ctx console).Keeps (.frugal n) := by
  induction tree generalizing ctx console with
  | empty => exact Keeps.pure 0
  | command assignments words => exact runSimple_frugal hcall ..
  | pipe left right ihleft ihright =>
    refine (Keeps.update fun w => Frugal.addPipe w console).bind fun pipe => ?_
    refine (ihleft ..).bind fun _ => Keeps.bind (Keeps.update fun w => ?_) fun _ => ihright ..
    exact (Frugal.drain w pipe).trans (.addInput ..)
  | sequential first next ihfirst ihnext => exact (ihfirst ..).bind fun _ => ihnext ..
  | parallel first next ihfirst ihnext =>
    exact (Keeps.both (ihfirst ..) (ihnext ..)).bind fun _ => Keeps.ofExcept _
  | conditional logic left right ihleft ihright =>
    refine (ihleft ..).bind fun code => ?_
    split
    · exact ihright ..
    · exact Keeps.pure code
  | redirect mode target inner ih =>
    refine (Keeps.step fun w => (Manners.frugal n).openConsole ..).bind fun redirected => ?_
    refine (ih ..).attempt.bind fun result => ?_
    refine (Keeps.step fun w => (Manners.frugal n).flush ..).attempt.bind fun flushed => ?_
    exact (Keeps.modify fun w => (Manners.frugal n).closeConsole ..).bind fun _ => Keeps.ofExcept _
  | function name body _ =>
    exact (Keeps.modify fun w => Frugal.updateScope ..).bind fun _ => Keeps.pure 0
  | «scoped» inner ih => exact (Keeps.update Frugal.addScope).bind fun _ => ih ..

end Calls

theorem execute_frugal (n depth : Nat) (ctx : Context) (console : Console) (tree : Instruction) :
    (execute depth ctx console tree).Keeps (.frugal n) := by
  induction depth generalizing ctx console tree with
  | zero => exact Keeps.exhausted
  | succ depth ih => exact tree.run_frugal ih depth ctx console

end ToyUnix
