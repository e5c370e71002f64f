import ToyUnix.Proofs.Files.Writers
import ToyUnix.Proofs.Shell.Taped

/-!
What is heard outside. A console whose output goes to a writer or a pipe that was made late lets
nothing be heard on any console that was there before, except for window titles; and so do all that
are put in front of it in a run: see `Recorder.hushing`.
-/

set_option autoImplicit false

namespace ToyUnix

namespace Console

def outlet : Console → Option Nat
  | .file writer _ => some writer
  | .input _ parent => parent.outlet
  | .buffer _ | .terminal _ | .pipe _ _ => none

/-- The output goes to a writer from number `x` on or to a pipe from number `p` on. -/
def Late (x p : Nat) : Console → Prop
  | .file writer _ => x ≤ writer
  | .pipe id _ => p ≤ id
  | .input _ parent => parent.Late x p
  | .buffer _ | .terminal _ => False

/-- Only window titles come after. -/
inductive Titled (before : String) : String → Prop
  | same : Titled before before
  | title {after : String} : Titled before after → ∀ text,
      Titled before (after ++ titleSequence text)

theorem Titled.trans {first next last : String} (h : Titled first next) (h' : Titled next last) :
    Titled first last := by
  induction h' with
  | same => exact h
  | title _ text ih => exact ih.title text

variable {x p : Nat} {console : Console}

theorem Late.succ (h : console.Late x p) (hother : console.outlet ≠ some x) :
    console.Late (x + 1) p := by
  induction console with
  | file writer parent _ => exact Nat.lt_of_le_of_ne h fun heq => hother (by rw [outlet, heq])
  | input id parent ih => exact ih h hother
  | _ => exact h

end Console

/-- Nothing has been heard on buffers and terminals, the first `p` pipes and the first `x` writers,
except for titles. -/
structure World.Hushed (x p : Nat) (v w : World) : Prop where
  buffers : ∀ id, Console.output w (.buffer id) = Console.output v (.buffer id)
  terminals : ∀ id,
    Console.Titled (Console.output v (.terminal id)) (Console.output w (.terminal id))
  pipes : ∀ id, id < p → w.pipes[id]? = v.pipes[id]?
  writers : ∀ id, id < x → w.files.writer? id = v.files.writer? id
  morePipes : v.pipes.length ≤ w.pipes.length
  moreWriters : v.files.writers.length ≤ w.files.writers.length

namespace World.Hushed

variable {x p : Nat} {u v w : World}

theorem refl (w : World) : Hushed x p w w :=
  ⟨fun _ => rfl, fun _ => .same, fun _ _ => rfl, fun _ _ => rfl, Nat.le_refl _, Nat.le_refl _⟩

theorem trans (huv : Hushed x p u v) (hvw : Hushed x p v w) : Hushed x p u w where
  buffers id := (hvw.buffers id).trans (huv.buffers id)
  terminals id := (huv.terminals id).trans (hvw.terminals id)
  pipes id hid := (hvw.pipes id hid).trans (huv.pipes id hid)
  writers id hid := (hvw.writers id hid).trans (huv.writers id hid)
  morePipes := Nat.le_trans huv.morePipes hvw.morePipes
  moreWriters := Nat.le_trans huv.moreWriters hvw.moreWriters

theorem mono {y : Nat} (h : Hushed y p v w) (hle : x ≤ y) : Hushed x p v w :=
  { h with writers := fun id hid => h.writers id (Nat.lt_of_lt_of_le hid hle) }

theorem of_silent (h : v.Silent w) : Hushed x p v w := by
  refine ⟨fun id => ?_, fun id => ?_, fun id _ => ?_, fun id _ => ?_, ?_, ?_⟩
  · simp only [Console.output, h.buffers]
  · simp only [Console.output, h.terminals]
    exact .same
  · rw [h.pipes]
  · rw [h.files]
  · rw [h.pipes]
  · rw [h.files]

theorem of_files {files : Files} {id : Nat} (hid : x ≤ id) (h : w.files.Pends id files) :
    Hushed x p w { w with files } :=
  { (refl w : Hushed x p w w) with
    writers := fun other hother => h.other other (by omega)
    moreWriters := Nat.le_of_eq h.length.symm }

theorem updateBuffer (w : World) (id : Nat) {f : BufferState → BufferState}
    (hf : ∀ state, (f state).output = state.output) :
    Hushed x p w (Console.updateBuffer w id f) := by
  refine { (refl w : Hushed x p w w) with buffers := fun other => ?_ }
  simp only [Console.updateBuffer, Console.output, List.getElem?_modify]
  cases w.buffers[other]? with
  | none => rfl
  | some state => by_cases hid : id = other <;> simp [hid, hf]

theorem updateTerminal (w : World) (id : Nat) {f : TerminalState → TerminalState}
    (hf : ∀ state, Console.Titled state.output (f state).output) :
    Hushed x p w (Console.updateTerminal w id f) := by
  refine { (refl w : Hushed x p w w) with terminals := fun other => ?_ }
  simp only [Console.updateTerminal, Console.output, List.getElem?_modify]
  cases w.terminals[other]? with
  | none => exact .same
  | some state =>
    by_cases hid : id = other
    · simpa [hid] using hf state
    · simpa [hid] using Console.Titled.same

theorem setTitle (w : World) (text : String) (console : Console) :
    Hushed x p w (console.setTitle w text) := by
  induction console with
  | buffer id => exact updateBuffer w id fun _ => rfl
  | terminal id =>
    have htitled : Hushed x p w (Console.updateTerminal w id fun state =>
      { state with title := text }) := updateTerminal w id fun _ => .same
    exact htitled.trans (updateTerminal _ id fun _ => .title .same text)
  | pipe id parent ih => exact ih
  | input id parent ih => exact ih
  | file writer parent ih => exact ih

theorem readLine (w : World) (console : Console) : Hushed x p w (console.readLine w).2 := by
  induction console with
  | buffer id =>
    simp only [Console.readLine]
    split
    · exact updateBuffer w id fun _ => rfl
    · exact refl w
  | terminal id =>
    simp only [Console.readLine]
    split
    · exact refl w
    · exact updateTerminal w id fun _ => .same
  | input id parent _ =>
    simp only [Console.readLine]
    split
    · exact { (refl w : Hushed x p w w) with }
    · exact refl w
  | pipe id parent ih => exact ih
  | file writer parent ih => exact ih

variable {console : Console}

theorem write (h : console.Late x p) (w : World) (text : String) :
    Hushed x p w (console.write w text) := by
  induction console with
  | buffer id => exact h.elim
  | terminal id => exact h.elim
  | pipe id parent _ =>
    refine { (refl w : Hushed x p w w) with pipes := fun other hother => ?_, morePipes := ?_ }
    · have hne : id ≠ other := fun heq => Nat.not_lt.2 h (heq ▸ hother)
      simp [Console.write, hne]
    · simp [Console.write]
  | input id parent ih => exact ih h
  | file writer parent _ => exact of_files h (.writeBytes ..)

theorem clear (h : console.Late x p) (w : World) : Hushed x p w (console.clear w) := by
  induction console with
  | buffer id => exact h.elim
  | terminal id => exact h.elim
  | input id parent ih => exact ih h
  | _ => exact refl w

theorem acts (h : console.Late x p) {said : String}
    (hacts : console.Acts World.Silent v said w) : Hushed x p v w := by
  induction hacts with
  | idle => exact refl v
  | write _ text ih => exact ih.trans (write h _ text)
  | clear _ ih => exact ih.trans (clear h _)
  | setTitle _ text ih => exact ih.trans (setTitle _ text _)
  | readLine _ ih => exact ih.trans (readLine ..)
  | change _ fs path c ih => exact ih.trans (of_files (Nat.le_refl x) (.apply ..))
  | aside _ hsilent ih => exact ih.trans (of_silent hsilent)

theorem flush (h : console.Late x p) (w : World) : Hushed x p w (console.flush w).2 := by
  induction console with
  | input id parent ih => exact ih h
  | file writer parent _ =>
    have hflush : Hushed x p w { w with files := (w.files.flush writer).2 } :=
      of_files h (.flush ..)
    simp only [Console.flush]
    split <;> rename_i heq <;> rwa [heq] at hflush
  | _ => exact refl w

theorem closeConsole (h : console.Late x p) (w : World) :
    Hushed x p w (closeConsole w console) := by
  cases console with
  | file writer parent => exact of_files h (.closeWriter ..)
  | _ => exact refl w

theorem addPipe (w : World) (console : Console) (hp : p ≤ w.pipes.length) :
    Hushed x p w (Console.addPipe w console).2 := by
  refine { (refl w : Hushed x p w w) with pipes := fun id hid => ?_, morePipes := ?_ }
  · exact List.getElem?_append_left (Nat.lt_of_lt_of_le hid hp)
  · simp [Console.addPipe]

theorem drain {y : Nat} (h : console.Late y p) (w : World) :
    Hushed x p w (console.drain w).2 := by
  cases console with
  | buffer id => exact h.elim
  | terminal id => exact h.elim
  | pipe id parent =>
    refine { (refl w : Hushed x p w w) with pipes := fun other hother => ?_, morePipes := ?_ }
    · have hne : id ≠ other := fun heq => Nat.not_lt.2 h (heq ▸ hother)
      exact List.getElem?_set_ne hne
    · simp [Console.drain]
  | _ => exact refl w

theorem addInput (w : World) (text : String) (console : Console) :
    Hushed x p w (Console.addInput w text console).2 :=
  { (refl w : Hushed x p w w) with }

theorem addWriter (w : World) (fs : FileSystem) (text : String) (hx : x ≤ w.files.writers.length) :
    Hushed x p w { w with files := (w.files.addWriter fs text).2 } := by
  refine { (refl w : Hushed x p w w) with writers := fun id hid => ?_, moreWriters := ?_ }
  · exact List.getElem?_append_left (Nat.lt_of_lt_of_le hid hx)
  · simp [Files.addWriter]

theorem openWrite {fs : FileSystem} {text : String} {appending : Bool}
    {outcome : Except Fault Nat} {files : Files} (hx : x ≤ w.files.writers.length)
    (hopen : w.files.openWrite fs text appending = (outcome, files)) :
    Hushed x p w { w with files } := by
  have hchange : Hushed x p w { w with files :=
      (w.files.apply fs text (if appending then .append [] else .write [])).2 } :=
    of_files (Nat.le_refl x) (.apply ..)
  unfold Files.openWrite at hopen
  split at hopen <;> rename_i heq <;> cases hopen <;> rw [heq] at hchange
  · exact hchange
  · exact hchange.trans (addWriter _ _ text (Nat.le_trans hx hchange.moreWriters))

theorem openConsole {ctx : Context} {text : String} {mode : RedirectMode}
    (hx : x ≤ w.files.writers.length) :
    Hushed x p w (ctx.openConsole w console text mode).2 := by
  have hopens := ctx.opens_openConsole w console text mode
  generalize ctx.openConsole w console text mode = opened at hopens ⊢
  cases hopens with
  | refuse fault => exact refl w
  | input text => exact addInput w text console
  | denied hmode hfs hopen => exact openWrite hx hopen
  | writer hmode hfs hopen => exact openWrite hx hopen

end World.Hushed

theorem Links.hushed {x p : Nat} {steps : Tape} {v w : World} (h : Links v steps w)
    (hsteps : ∀ step ∈ steps, step.before.Hushed x p step.after) : v.Hushed x p w := by
  induction steps generalizing v with
  | nil =>
    cases h
    exact .refl _
  | cons step steps ih =>
    obtain ⟨rfl, h⟩ := h
    obtain ⟨hstep, hsteps⟩ := List.forall_mem_cons.1 hsteps
    exact hstep.trans (ih h hsteps)

end ToyUnix
