import ToyUnix.Proofs.Shell.Hushed

/-!
What a redirection captures. All that is written to its console waits in one writer until it is
brought to the file, be it at the end of a nested redirection of the input or at its own end. So if
nobody else touches the file, it has at the end what it had at first, then all that was written, in
order; and nothing of that is heard outside. See `redirect_captures`.
-/

set_option autoImplicit false

namespace ToyUnix

namespace StepKind

def outlet : StepKind → Option Nat
  | .turn console | .flush console => console.outlet
  | .shell => none

/-- Output that waits in the writer `x` is brought to its file. -/
def Brings (x : Nat) : StepKind → Prop
  | .flush console => console.outlet = some x
  | .turn _ | .shell => False

end StepKind

instance (x : Nat) (kind : StepKind) : Decidable (kind.Brings x) :=
  match kind with
  | .flush console => inferInstanceAs (Decidable (console.outlet = some x))
  | .turn _ | .shell => inferInstanceAs (Decidable False)

/-- The text is what a command writes in this step to a console whose output goes to the writer
`x`. -/
def Step.Says (x : Nat) (step : Step) (text : String) : Prop :=
  match step.kind with
  | .turn console =>
    if console.outlet = some x then console.Acts World.Silent step.before text step.after
    else text = ""
  | .flush _ | .shell => text = ""

/-- The same for all the steps of a tape, in order. -/
inductive Says (x : Nat) : Tape → String → Prop
  | nil : Says x [] ""
  | cons {step : Step} {steps : Tape} {said more : String} : step.Says x said →
      Says x steps more → Says x (step :: steps) (said ++ more)

/-- What a step may do where output goes to the writer `x` or to something made after it. -/
structure Step.Captures (x p : Nat) (step : Step) : Prop where
  hushed : step.before.Hushed x p step.after
  /-- Without the writer itself it does not touch that either. -/
  beside : step.kind.outlet ≠ some x → step.before.Hushed (x + 1) p step.after
  acts : ∀ console, step.kind = .turn console → console.sounding.keeps step.before step.after
  brings : step.kind.Brings x → step.after.files = step.before.files ∨
    step.after.files = (step.before.files.flush x).2 ∨
    step.after.files = step.before.files.closeWriter x

namespace Console

variable {console : Console} {x : Nat} {v w : World}

theorem files_clear (w : World) (console : Console) : (console.clear w).files = w.files := by
  induction console with
  | input id parent ih => exact ih
  | _ => rfl

theorem files_setTitle (w : World) (text : String) (console : Console) :
    (console.setTitle w text).files = w.files := by
  induction console with
  | buffer id => rfl
  | terminal id => rfl
  | pipe id parent ih => exact ih
  | input id parent ih => exact ih
  | file writer parent ih => exact ih

theorem files_readLine (w : World) (console : Console) :
    (console.readLine w).2.files = w.files := by
  induction console with
  | pipe id parent ih => exact ih
  | file writer parent ih => exact ih
  | _ =>
    simp only [readLine]
    split <;> rfl

theorem write_outlet (h : console.outlet = some x) (w : World) (text : String) :
    console.write w text = { w with files := w.files.writeBytes x (Utf8.encode text) } := by
  induction console with
  | input id parent ih => exact ih h
  | file writer parent _ =>
    cases h
    rfl
  | _ => cases h

theorem flush_outlet (h : console.outlet = some x) (w : World) :
    (console.flush w).2.files = (w.files.flush x).2 := by
  induction console with
  | input id parent ih => exact ih h
  | file writer parent _ =>
    cases h
    simp only [flush]
    split <;> rename_i heq <;> rw [heq]
  | _ => cases h

theorem closeConsole_outlet (h : console.outlet = some x) (w : World) :
    (closeConsole w console).files = w.files ∨
      (closeConsole w console).files = w.files.closeWriter x := by
  cases console with
  | input id parent => exact .inl rfl
  | file writer parent =>
    cases h
    exact .inr rfl
  | _ => cases h

theorem Acts.writer {text : String} (h : console.Acts World.Silent v text w)
    (houtlet : console.outlet = some x) {writer : Writer}
    (hwriter : v.files.writer? x = some writer) :
    w.files.writer? x = some { writer with pending := writer.pending ++ Utf8.encode text } := by
  induction h with
  | idle => simpa [Utf8.encode] using hwriter
  | write _ text ih =>
    rw [write_outlet houtlet, Files.writer?_writeBytes ih, Utf8.encode_append,
      List.append_assoc]
  | clear _ ih =>
    rw [files_clear]
    exact ih
  | setTitle _ text ih =>
    rw [files_setTitle]
    exact ih
  | readLine _ ih =>
    rw [files_readLine]
    exact ih
  | change _ fs path c ih => exact (Files.writer?_apply ..).trans ih
  | aside _ hsilent ih =>
    rw [hsilent.files]
    exact ih

end Console

namespace Step.Captures

variable {x p : Nat} {console : Console} {v w : World}

theorem turn (hconsole : console.Late x p) (h : console.sounding.keeps v w) :
    Step.Captures x p ⟨.turn console, v, w⟩ := by
  obtain ⟨said, hacts⟩ := h
  exact {
    hushed := .acts hconsole hacts
    beside := fun hother => .acts (hconsole.succ hother) hacts
    acts := fun _ heq => by
      cases heq
      exact ⟨said, hacts⟩
    brings := fun hbrings => hbrings.elim }

theorem flush (w : World) (hconsole : console.Late x p) :
    Step.Captures x p ⟨.flush console, w, (console.flush w).2⟩ where
  hushed := .flush hconsole w
  beside hother := .flush (hconsole.succ hother) w
  acts _ heq := by cases heq
  brings houtlet := .inr (.inl (Console.flush_outlet houtlet w))

theorem close (w : World) (hconsole : console.Late x p) :
    Step.Captures x p ⟨.flush console, w, closeConsole w console⟩ where
  hushed := .closeConsole hconsole w
  beside hother := .closeConsole (hconsole.succ hother) w
  acts _ heq := by cases heq
  brings houtlet := (Console.closeConsole_outlet houtlet w).imp_right .inr

theorem shell (h : v.Hushed (x + 1) p w) : Step.Captures x p ⟨.shell, v, w⟩ where
  hushed := h.mono (Nat.le_succ x)
  beside _ := h
  acts _ heq := by cases heq
  brings hbrings := hbrings.elim

end Step.Captures

/-- Runs on consoles whose output goes to the writer `x`, or to a writer or a pipe made after it. -/
def Recorder.hushing (x p : Nat) : Recorder where
  ready w := x < w.files.writers.length ∧ p ≤ w.pipes.length
  fair step := step.Captures x p
  later h hready :=
    ⟨Nat.lt_of_lt_of_le hready.1 h.hushed.moreWriters, Nat.le_trans hready.2 h.hushed.morePipes⟩
  serves console := console.Late x p
  turn := .turn
  flush := .flush
  close := .close
  silent h := .shell (.of_silent h)
  pipe hready _ := ⟨.shell (.addPipe _ _ hready.2), hready.2⟩
  feed {console v} w hready hconsole := by
    have hpipe : (Console.addPipe v console).1.Late x p := hready.2
    exact ⟨.shell ((World.Hushed.drain hpipe w).trans (.addInput ..)), hconsole⟩
  opened {ctx console path mode w} hready hconsole := by
    refine ⟨.shell (.openConsole hready.1), fun redirected hopen => ?_⟩
    have hopens := ctx.opens_openConsole w console path mode
    generalize ctx.openConsole w console path mode = opened at hopens hopen
    cases hopens with
    | refuse fault => cases hopen
    | input text =>
      cases hopen
      exact hconsole
    | denied hmode hfs hwriter => cases hopen
    | writer hmode hfs hwriter =>
      cases hopen
      exact Nat.le_of_lt ((Files.openWrite_ok hwriter).1 ▸ hready.1)

/-! What becomes of the output. -/

section

variable {x p m : Nat} {path : Path} {executable : Bool} {data pending : Bytes} {text : String}

/-- What is already in the file, what still waits and what is said in the step are, in this order,
in the file or waiting after it. -/
theorem Step.Captures.writing {step : Step} (h : step.Captures x p)
    (hwriting : step.before.files.Writing x m path executable data pending)
    (hquiet : ¬ step.kind.Brings x →
      (step.after.files.tree m).node? path = (step.before.files.tree m).node? path)
    (htold : step.Says x text) :
    ∃ data' pending', step.after.files.Writing x m path executable data' pending' ∧
      data' ++ pending' = data ++ pending ++ Utf8.encode text := by
  obtain ⟨kind, v, w⟩ := step
  -- A step of the shell or on another console says nothing here and leaves the writer alone.
  have hbeside (hother : kind.outlet ≠ some x) (htext : text = "")
      (hnode : (w.files.tree m).node? path = (v.files.tree m).node? path) :
      ∃ data' pending', w.files.Writing x m path executable data' pending' ∧
        data' ++ pending' = data ++ pending ++ Utf8.encode text := by
    subst htext
    exact ⟨data, pending, hwriting.congr ((h.beside hother).writers x (Nat.lt_succ_self x)) hnode,
      (List.append_nil _).symm⟩
  cases kind with
  | shell => exact hbeside (by simp [StepKind.outlet]) htold (hquiet id)
  | turn console =>
    simp only [Step.Says] at htold
    split at htold
    case isTrue houtlet =>
      obtain ⟨name, hwriter, hname⟩ := hwriting.writer
      refine ⟨data, pending ++ Utf8.encode text,
        ⟨⟨name, htold.writer houtlet hwriter, hname⟩, ?_⟩, (List.append_assoc ..).symm⟩
      exact (hquiet id).trans hwriting.node
    case isFalse hother => exact hbeside hother htold (hquiet id)
  | flush console =>
    by_cases houtlet : console.outlet = some x
    case neg => exact hbeside houtlet htold (hquiet houtlet)
    have htext : Utf8.encode text = [] := by
      rw [show text = "" from htold]
      rfl
    rw [htext, List.append_nil]
    -- Nothing is said, and what waits may have come into the file.
    rcases h.brings houtlet with hsame | hflush | hclose
    · exact ⟨data, pending, hsame ▸ hwriting, rfl⟩
    · obtain ⟨after, hafter, hdone⟩ := hwriting.flush
      rw [hafter] at hflush
      exact ⟨data ++ pending, [], hflush ▸ hdone, List.append_nil _⟩
    · exact ⟨data ++ pending, [], hclose ▸ hwriting.closeWriter, List.append_nil _⟩

def Untouched (x m : Nat) (path : Path) (steps : Tape) : Prop :=
  ∀ step ∈ steps, ¬ step.kind.Brings x →
    (step.after.files.tree m).node? path = (step.before.files.tree m).node? path

instance (x m : Nat) (path : Path) (steps : Tape) : Decidable (Untouched x m path steps) :=
  inferInstanceAs (Decidable (∀ step ∈ steps, _))

/-- By induction on the tape. -/
theorem Links.writing {steps : Tape} {v w : World} (h : Links v steps w)
    (hsteps : ∀ step ∈ steps, step.Captures x p) (hquiet : Untouched x m path steps)
    (htold : Says x steps text) (hwriting : v.files.Writing x m path executable data pending) :
    ∃ data' pending', w.files.Writing x m path executable data' pending' ∧
      data' ++ pending' = data ++ pending ++ Utf8.encode text := by
  induction htold generalizing v data pending with
  | nil =>
    cases h
    exact ⟨data, pending, hwriting, (List.append_nil _).symm⟩
  | @cons step steps said more hsaid hmore ih =>
    obtain ⟨rfl, h⟩ := h
    obtain ⟨hstep, hsteps⟩ := List.forall_mem_cons.1 hsteps
    obtain ⟨hnode, hquiet⟩ := List.forall_mem_cons.1 hquiet
    obtain ⟨data', pending', hwriting', hfirst⟩ := hstep.writing hwriting hnode hsaid
    obtain ⟨data'', pending'', hlast, hall⟩ := ih h hsteps hquiet hwriting'
    refine ⟨data'', pending'', hlast, ?_⟩
    rw [hall, hfirst, Utf8.encode_append, List.append_assoc _ (Utf8.encode said)]

theorem exists_told {steps : Tape} (h : ∀ step ∈ steps, step.Captures x p) :
    ∃ text, Says x steps text := by
  induction steps with
  | nil => exact ⟨"", .nil⟩
  | cons step steps ih =>
    obtain ⟨hstep, hsteps⟩ := List.forall_mem_cons.1 h
    obtain ⟨more, hmore⟩ := ih hsteps
    have hsaid : ∃ said, step.Says x said := by
      unfold Step.Says
      split
      case h_1 console hkind =>
        split
        · exact hstep.acts console hkind
        · exact ⟨"", rfl⟩
      case h_2 => exact ⟨"", rfl⟩
      case h_3 => exact ⟨"", rfl⟩
    obtain ⟨said, hsaid⟩ := hsaid
    exact ⟨said ++ more, .cons hsaid hmore⟩

end

/-! Redirections. -/

section

variable {ctx : Context} {console redirected : Console} {mode : RedirectMode} {target : Word}
  {inner : Instruction} {depth : Nat} {w opened inside : World} {result : Except Fault Int}

theorem finish_redirect
    (hopen : ctx.openConsole w console (expandOne w ctx target) mode = (.ok redirected, opened))
    (hinner : (execute depth ctx redirected inner opened).finish = some (inside, result)) :
    (execute depth ctx console (.redirect mode target inner) w).finish =
      some (closeConsole (redirected.flush inside).2 redirected,
        joinFlush result (redirected.flush inside).1) := by
  cases depth with
  | zero => cases hinner
  | succ depth =>
    change ((Job.step (fun w => ctx.openConsole w console (expandOne w ctx target) mode) >>= _) w
      ).finish = _
    rw [Job.step_bind hopen, Job.attempt_bind, Course.finish_bind]
    change ((execute (depth + 1) ctx redirected inner opened).finish.bind _) = _
    rw [hinner, Option.bind_some]
    change (Job.ofExcept (joinFlush result (redirected.flush inside).1) _).finish = _
    cases joinFlush result (redirected.flush inside).1 <;> rfl

theorem joinFlush_ok (result : Except Fault Int) : joinFlush result (.ok ()) = result := by
  cases result <;> rfl

theorem finish_redirect_writing {x p m : Nat} {path : Path} {executable : Bool}
    {data pending : Bytes}
    (hopen : ctx.openConsole w console (expandOne w ctx target) mode =
      (.ok (.file x console), opened))
    (hinner : (execute depth ctx (.file x console) inner opened).finish = some (inside, result))
    (hwriting : inside.files.Writing x m path executable data pending) :
    ∃ s, (execute depth ctx console (.redirect mode target inner) w).finish = some (s, result) ∧
      s.files.Writing x m path executable (data ++ pending) [] ∧ inside.Hushed x p s := by
  have hlate : (Console.file x console).Late x p := Nat.le_refl x
  obtain ⟨files, hflush, hdone⟩ := hwriting.flush
  have hflushed : (Console.file x console).flush inside = (.ok (), { inside with files }) := by
    simp only [Console.flush, hflush]
  have hfinish := finish_redirect hopen hinner
  have hhushed : inside.Hushed x p ((Console.file x console).flush inside).2 :=
    .flush hlate inside
  rw [hflushed] at hfinish hhushed
  rw [joinFlush_ok] at hfinish
  have hclosed := hdone.closeWriter
  rw [List.append_nil] at hclosed
  exact ⟨_, hfinish, hclosed, hhushed.trans (.closeConsole hlate _)⟩

theorem openConsole_writing {handle m : Nat} {user : User} {text : String} (hmode : mode ≠ .input)
    (hfs : ctx.fileSystem? w = some (.view handle (.memory m) user))
    (hopen : ctx.openConsole w console text mode = (.ok redirected, opened)) :
    redirected = .file w.files.writers.length console ∧
      w.files.writers.length < opened.files.writers.length ∧ opened.pipes = w.pipes ∧
      ∃ executable, opened.files.Writing w.files.writers.length m
        (Path.ofText (ctx.absolute w text)) executable (if mode = .append then
          w.files.held (.view handle (.memory m) user) (ctx.absolute w text) else []) [] := by
  have hopens := ctx.opens_openConsole w console text mode
  rw [hopen] at hopens
  cases hopens with
  | input => exact absurd rfl hmode
  | writer _ hfound hwriter =>
    cases hfs.symm.trans hfound
    obtain ⟨executable, hwriting⟩ := Files.writing_openWrite hwriter
    obtain ⟨rfl, -⟩ := Files.openWrite_ok hwriter
    obtain ⟨name, hthere, -⟩ := hwriting.writer
    refine ⟨rfl, (List.getElem?_eq_some_iff.1 hthere).1, rfl, executable, ?_⟩
    simpa using hwriting

/-- However what is inside ends, its redirection ends like that. The file then holds what it was to
keep and behind it, in order, all that has been written inside to the console, which is one text and
no other; and nothing of it is heard outside. This takes that nobody else touches the file
meanwhile. -/
theorem redirect_captures {handle m : Nat} {user : User} {steps : Tape} (hmode : mode ≠ .input)
    (hfs : ctx.fileSystem? w = some (.view handle (.memory m) user))
    (hopen : ctx.openConsole w console (expandOne w ctx target) mode = (.ok redirected, opened))
    (hinner : (executeTaped depth ctx redirected inner (opened, [])).finish =
      some ((inside, steps), result))
    (hquiet : Untouched w.files.writers.length m
      (Path.ofText (ctx.absolute w (expandOne w ctx target))) steps) :
    (execute depth ctx redirected inner opened).finish = some (inside, result) ∧
    ∃ s text,
      (execute depth ctx console (.redirect mode target inner) w).finish = some (s, result) ∧
      w.Hushed w.files.writers.length w.pipes.length s ∧
      (∀ said, Says w.files.writers.length steps said ↔ said = text) ∧
      s.files.contents (.view handle (.memory m) user) (ctx.absolute w (expandOne w ctx target)) =
        .ok ((if mode = .append then w.files.held (.view handle (.memory m) user)
          (ctx.absolute w (expandOne w ctx target)) else []) ++ Utf8.encode text) := by
  have hrun : (execute depth ctx redirected inner opened).finish = some (inside, result) := by
    rw [← finish_executeTaped depth ctx redirected inner (opened, []), hinner]
    rfl
  have hopened : w.Hushed w.files.writers.length w.pipes.length opened := by
    have hhushed : w.Hushed w.files.writers.length w.pipes.length
        (ctx.openConsole w console (expandOne w ctx target) mode).2 := .openConsole (Nat.le_refl _)
    rwa [hopen] at hhushed
  obtain ⟨rfl, hnumber, hpipes, executable, hwriting⟩ := openConsole_writing hmode hfs hopen
  let R := Recorder.hushing w.files.writers.length w.pipes.length
  have hserves : R.serves (.file w.files.writers.length console) := Nat.le_refl _
  have hready : R.ready opened := ⟨hnumber, Nat.le_of_eq (congrArg List.length hpipes).symm⟩
  have hfollows := (R.runs_executeTaped depth ctx _ inner hserves).course (opened, []) hready
  obtain ⟨_, rfl, hlinks, hfair⟩ := (hfollows.finish hready).2 _ _ hinner
  have hinside := hopened.trans (hlinks.hushed fun step hmem => (hfair step hmem).hushed)
  obtain ⟨text, htold⟩ := exists_told hfair
  obtain ⟨data, pending, hlast, hall⟩ := hlinks.writing hfair hquiet htold hwriting
  obtain ⟨s, hfinish, hdone, hhushed⟩ :=
    finish_redirect_writing (p := w.pipes.length) hopen hrun hlast
  refine ⟨hrun, s, text, hfinish, hinside.trans hhushed, fun said => ⟨fun hsaid => ?_, ?_⟩, ?_⟩
  · -- What waits, behind what is in the file, does not depend on how it is told.
    obtain ⟨data', pending', hlast', hall'⟩ := hlinks.writing hfair hquiet hsaid hwriting
    obtain ⟨rfl, rfl⟩ := hlast.unique hlast'
    exact Utf8.encode_injective (List.append_cancel_left (hall'.symm.trans hall))
  · rintro rfl
    exact htold
  · rw [hdone.contents, hall, List.append_nil]

end

namespace Sample

def noted : World :=
  { box with files := { trees := [[([], .directory), (["f"], .file [120, 10] false)]] } }

def notedOpen : World :=
  { noted with files := { noted.files with writers := [⟨.memory 0, "/f", []⟩] } }

/-- `echo a | echo b; echo c & exit 3` -/
def noting : Instruction :=
  .sequential
    (.pipe (.command [] [.ofText "echo", .ofText "a"]) (.command [] [.ofText "echo", .ofText "b"]))
    (.parallel (.command [] [.ofText "echo", .ofText "c"])
      (.command [] [.ofText "exit", .ofText "3"]))

theorem noted_fileSystem : boxShell.fileSystem? noted = some (.view 0 (.memory 0) root) := rfl

theorem noted_absolute :
    boxShell.absolute noted (expandOne noted boxShell (.ofText "/f")) = "/f" := by
  decide +kernel

theorem noted_append :
    noted.files.apply (.view 0 (.memory 0) root) "/f" (.append []) = (.ok (), noted.files) := by
  rw [Files.apply_view, if_pos (by decide +kernel), Files.apply, Files.route_memory,
    show Path.ofText "/f" = ["f"] by decide +kernel]
  rfl

theorem noted_openConsole :
    boxShell.openConsole noted (.buffer 0) (expandOne noted boxShell (.ofText "/f")) .append =
      (.ok (.file 0 (.buffer 0)), notedOpen) := by
  have hnormal : PathText.normalize "/f" = "/f" := by decide +kernel
  simp only [Context.openConsole, noted_fileSystem, noted_absolute, World.onFiles, Files.openWrite,
    if_true, noted_append, Files.addWriter, hnormal]
  rfl

/-- The output of `echo a` goes to `echo b`, and the rest is in the file, even though the last
command ends the shell. -/
theorem exit_captured :
    parseScript {} "\x7b echo a | echo b; echo c & exit 3; \x7d >> /f" false =
      .ok (.redirect .append (.ofText "/f") noting) ∧
    ∃ inside steps s text,
      (executeTaped 9 boxShell (.file 0 (.buffer 0)) noting (notedOpen, [])).finish =
        some ((inside, steps), .error (.ended 3 .process)) ∧
      Untouched 0 0 ["f"] steps ∧
      (execute 9 boxShell (.buffer 0) (.redirect .append (.ofText "/f") noting) noted).finish =
        some (s, .error (.ended 3 .process)) ∧
      noted.Hushed 0 0 s ∧ (∀ said, Says 0 steps said ↔ said = text) ∧
      Utf8.encode text = [98, 10, 99, 10] ∧
      s.files.contents (.view 0 (.memory 0) root) "/f" = .ok [120, 10, 98, 10, 99, 10] := by
  have htaped : ((executeTaped 9 boxShell (.file 0 (.buffer 0)) noting (notedOpen, [])).finish.map
      fun r => (r.2, decide (Untouched 0 0 ["f"] r.1.2), r.1.1.files.writer? 0,
        (r.1.1.files.tree 0).node? ["f"])) =
      some (.error (.ended 3 .process), true, some ⟨.memory 0, "/f", [98, 10, 99, 10]⟩,
        some (.file [120, 10] false)) := by
    decide +kernel
  obtain ⟨⟨⟨inside, steps⟩, result⟩, hinner, hends⟩ := Option.map_eq_some_iff.1 htaped
  simp only [Prod.mk.injEq, decide_eq_true_eq] at hends
  obtain ⟨rfl, hquiet, hwriter, hnode⟩ := hends
  have hpath : Path.ofText "/f" = ["f"] := by decide +kernel
  have hheld : noted.files.held (.view 0 (.memory 0) root) "/f" = [120, 10] := by
    simp only [Files.held, Files.contents, Files.route, Files.follow, hpath]
    rfl
  have hcaptures := redirect_captures (by decide) noted_fileSystem noted_openConsole hinner
  rw [noted_absolute, hpath, if_pos rfl, hheld] at hcaptures
  obtain ⟨hrun, s, text, hfinish, hhushed, htold, hfile⟩ := hcaptures hquiet
  have hwriting : inside.files.Writing 0 0 (Path.ofText "/f") false [120, 10] [98, 10, 99, 10] :=
    ⟨⟨"/f", hwriter, rfl⟩, hpath ▸ hnode⟩
  obtain ⟨_, hsame, hdone, -⟩ := finish_redirect_writing (p := 0) noted_openConsole hrun hwriting
  cases hfinish.symm.trans hsame
  have hcontents := hdone.contents 0 root
  have htext := List.append_cancel_left (Except.ok.inj (hfile.symm.trans hcontents))
  exact ⟨by decide +kernel, inside, steps, s, text, hinner, hquiet, hfinish, hhushed, htold, htext,
    hcontents⟩

end Sample

end ToyUnix
