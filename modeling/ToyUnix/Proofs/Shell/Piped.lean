import ToyUnix.Proofs.Shell.Hushed

/-!
What a pipe takes in. All that is written to its console while the left side of a pipeline runs is
in the pipe afterwards, in order and nothing else; and nothing of it is heard outside. See
`pipe_captures`.
-/

set_option autoImplicit false

namespace ToyUnix

namespace Console

def sink : Console → Option Nat
  | .pipe id _ => some id
  | .input _ parent => parent.sink
  | .buffer _ | .terminal _ | .file _ _ => none

variable {v w : World} {console : Console} {p : Nat}

theorem pipes_write (w : World) (text : String) (console : Console) (p : Nat) :
    (console.write w text).pipes[p]? =
      w.pipes[p]?.map (· ++ if console.sink = some p then text else "") := by
  induction console with
  | pipe id parent _ =>
    by_cases hid : id = p
    · simp [write, sink, hid]
    · simp [write, sink, hid]
  | input id parent ih => exact ih
  | _ => simp [write, sink, updateBuffer, updateTerminal, emit]

theorem pipes_clear (w : World) (console : Console) : (console.clear w).pipes = w.pipes := by
  induction console with
  | input id parent ih => exact ih
  | _ => rfl

theorem pipes_flush (w : World) (console : Console) : (console.flush w).2.pipes = w.pipes := by
  induction console with
  | input id parent ih => exact ih
  | file writer parent _ =>
    simp only [flush]
    split <;> rfl
  | _ => rfl

theorem pipes_closeConsole (w : World) (console : Console) :
    (closeConsole w console).pipes = w.pipes := by
  cases console <;> rfl

theorem Acts.pipes {text : String} (h : console.Acts World.Silent v text w) (p : Nat) :
    w.pipes[p]? = v.pipes[p]?.map (· ++ if console.sink = some p then text else "") := by
  induction h with
  | idle => simp
  | @write w said _ text ih =>
    rw [pipes_write, ih, Option.map_map]
    refine Option.map_congr fun before _ => ?_
    split <;> simp [String.append_assoc]
  | clear _ ih => rwa [pipes_clear]
  | setTitle _ text ih =>
    exact ((World.Hushed.setTitle (x := 0) _ text console).pipes p (Nat.lt_succ_self p)).trans ih
  | readLine _ ih =>
    exact ((World.Hushed.readLine (x := 0) _ console).pipes p (Nat.lt_succ_self p)).trans ih
  | change _ fs path c ih => exact ih
  | aside _ hsilent ih => rwa [hsilent.pipes]

end Console

/-- The text is what a command writes in this step to a console whose output goes to the pipe
`p`. -/
def Step.Tells (p : Nat) (step : Step) (text : String) : Prop :=
  match step.kind with
  | .turn console =>
    if console.sink = some p then console.Acts World.Silent step.before text step.after
    else text = ""
  | .flush _ | .shell => text = ""

/-- The same for all the steps of a tape, in order. -/
inductive Tells (p : Nat) : Tape → String → Prop
  | nil : Tells p [] ""
  | cons {step : Step} {steps : Tape} {told more : String} : step.Tells p told →
      Tells p steps more → Tells p (step :: steps) (told ++ more)

/-- What a step may do where output goes to the pipe `p` or to something made after it. -/
structure Step.Pipes (x p : Nat) (step : Step) : Prop where
  hushed : step.before.Hushed x p step.after
  acts : ∀ console, step.kind = .turn console → console.sounding.keeps step.before step.after
  /-- Only commands write to the pipe. -/
  still : (∀ console, step.kind ≠ .turn console) → step.after.pipes[p]? = step.before.pipes[p]?

namespace Step.Pipes

variable {x p : Nat} {console : Console} {v w : World} {step : Step}

theorem turn (hconsole : console.Late x p) (h : console.sounding.keeps v w) :
    Step.Pipes x p ⟨.turn console, v, w⟩ where
  hushed := .acts hconsole h.choose_spec
  acts _ heq := by
    cases heq
    exact h
  still hother := absurd rfl (hother console)

theorem quiet {kind : StepKind} (hkind : ∀ console, kind ≠ .turn console) (hhushed : v.Hushed x p w)
    (hsame : w.pipes[p]? = v.pipes[p]?) : Step.Pipes x p ⟨kind, v, w⟩ where
  hushed := hhushed
  acts _ heq := absurd heq (hkind _)
  still _ := hsame

theorem shell (hhushed : v.Hushed x p w) (hsame : w.pipes[p]? = v.pipes[p]?) :
    Step.Pipes x p ⟨.shell, v, w⟩ :=
  quiet nofun hhushed hsame

theorem told (h : step.Pipes x p) {text : String} (htold : step.Tells p text) :
    step.after.pipes[p]? = step.before.pipes[p]?.map (· ++ text) := by
  obtain ⟨kind, v, w⟩ := step
  have hstill (htext : text = "") (hsame : w.pipes[p]? = v.pipes[p]?) :
      w.pipes[p]? = v.pipes[p]?.map (· ++ text) := by
    subst htext
    simpa using hsame
  cases kind with
  | turn console =>
    simp only [Step.Tells] at htold
    split at htold
    case isTrue hsink => simpa [hsink] using htold.pipes p
    case isFalse hother =>
      obtain ⟨said, hacts⟩ := h.acts console rfl
      exact hstill htold (by simpa [hother] using hacts.pipes p)
  | flush console => exact hstill htold (h.still nofun)
  | shell => exact hstill htold (h.still nofun)

theorem exists_tells (h : step.Pipes x p) : ∃ text, step.Tells p text := by
  unfold Step.Tells
  split
  case h_1 console hkind =>
    split
    · exact h.acts console hkind
    · exact ⟨"", rfl⟩
  case h_2 => exact ⟨"", rfl⟩
  case h_3 => exact ⟨"", rfl⟩

end Step.Pipes

/-- Runs on consoles whose output goes to the pipe `p`, or to a pipe or a writer made after it. -/
def Recorder.piping (x p : Nat) : Recorder where
  ready w := x ≤ w.files.writers.length ∧ p < w.pipes.length
  fair step := step.Pipes x p
  later h hready :=
    ⟨Nat.le_trans hready.1 h.hushed.moreWriters, Nat.lt_of_lt_of_le hready.2 h.hushed.morePipes⟩
  serves console := console.Late x p
  turn := .turn
  flush {console} w hconsole :=
    .quiet nofun (.flush hconsole w) (by rw [Console.pipes_flush])
  close {console} w hconsole :=
    .quiet nofun (.closeConsole hconsole w) (by rw [Console.pipes_closeConsole])
  silent h := .shell (.of_silent h) (by rw [h.pipes])
  pipe hready _ := by
    have hp := Nat.le_of_lt hready.2
    exact ⟨.shell (.addPipe _ _ hp) (List.getElem?_append_left hready.2), hp⟩
  feed {console v} w hready hconsole := by
    have hpipe : (Console.addPipe v console).1.Late x p := Nat.le_of_lt hready.2
    refine ⟨.shell ((World.Hushed.drain hpipe w).trans (.addInput ..)) ?_, hconsole⟩
    exact List.getElem?_set_ne (Nat.ne_of_gt hready.2)
  opened {ctx console path mode w} hready hconsole := by
    have hopens := ctx.opens_openConsole w console path mode
    have hhushed : w.Hushed x p (ctx.openConsole w console path mode).2 := .openConsole hready.1
    generalize ctx.openConsole w console path mode = opened at hopens hhushed ⊢
    cases hopens with
    | refuse fault => exact ⟨.shell hhushed rfl, nofun⟩
    | input text =>
      refine ⟨.shell hhushed rfl, fun redirected hopen => ?_⟩
      cases hopen
      exact hconsole
    | denied hmode hfs hwriter => exact ⟨.shell hhushed rfl, nofun⟩
    | writer hmode hfs hwriter =>
      refine ⟨.shell hhushed rfl, fun redirected hopen => ?_⟩
      cases hopen
      exact (Files.openWrite_ok hwriter).1 ▸ hready.1

section

variable {x p : Nat} {v w : World} {steps : Tape} {text : String}

/-- By induction on the tape. -/
theorem Links.told (h : Links v steps w) (hsteps : ∀ step ∈ steps, step.Pipes x p)
    (htold : Tells p steps text) : w.pipes[p]? = v.pipes[p]?.map (· ++ text) := by
  induction htold generalizing v with
  | nil =>
    cases h
    simp
  | @cons step steps told more hfirst _ ih =>
    obtain ⟨rfl, h⟩ := h
    obtain ⟨hstep, hsteps⟩ := List.forall_mem_cons.1 hsteps
    rw [ih h hsteps, hstep.told hfirst, Option.map_map]
    exact Option.map_congr fun before _ => String.append_assoc ..

theorem exists_tells (h : ∀ step ∈ steps, step.Pipes x p) : ∃ text, Tells p steps text := by
  induction steps with
  | nil => exact ⟨"", .nil⟩
  | cons step steps ih =>
    obtain ⟨hstep, hsteps⟩ := List.forall_mem_cons.1 h
    obtain ⟨more, hmore⟩ := ih hsteps
    obtain ⟨told, htold⟩ := hstep.exists_tells
    exact ⟨told ++ more, .cons htold hmore⟩

end

section

variable {ctx : Context} {console : Console} {left right : Instruction} {depth : Nat}
  {w inside : World}

theorem finish_pipe {code : Int}
    (hleft : (execute depth ctx (Console.addPipe w console).1 left (Console.addPipe w console).2
      ).finish = some (inside, .ok code)) :
    (execute depth ctx console (.pipe left right) w).finish =
      (execute depth ctx (feed (Console.addPipe w console).1 console inside).1 right
        (feed (Console.addPipe w console).1 console inside).2).finish := by
  cases depth with
  | zero => cases hleft
  | succ depth =>
    change ((Job.update (Console.addPipe · console) >>= _) w).finish = _
    rw [Job.update_bind, Job.finish_bind]
    change ((execute (depth + 1) ctx _ left _).finish.bind _) = _
    rw [hleft, Option.bind_some]
    rfl

/-- However the left side ends, its pipe then holds all that it has written to its console, which is
one text and no other; and nothing of that is heard outside. -/
theorem pipe_captures {result : Except Fault Int}
    (hleft : (execute depth ctx (Console.addPipe w console).1 left (Console.addPipe w console).2
      ).finish = some (inside, result)) :
    ∃ steps text,
      (executeTaped depth ctx (Console.addPipe w console).1 left
        ((Console.addPipe w console).2, [])).finish = some ((inside, steps), result) ∧
      (∀ told, Tells w.pipes.length steps told ↔ told = text) ∧
      inside.pipes[w.pipes.length]? = some text ∧
      w.Hushed w.files.writers.length w.pipes.length inside := by
  have hsame := finish_executeTaped depth ctx (Console.addPipe w console).1 left
    ((Console.addPipe w console).2, [])
  rw [hleft] at hsame
  obtain ⟨⟨⟨last, steps⟩, ending⟩, htaped, heq⟩ := Option.map_eq_some_iff.1 hsame
  obtain ⟨rfl, rfl⟩ : inside = last ∧ result = ending := by simpa [eq_comm] using heq
  let R := Recorder.piping w.files.writers.length w.pipes.length
  have hserves : R.serves (Console.addPipe w console).1 := Nat.le_refl _
  have hready : R.ready (Console.addPipe w console).2 :=
    ⟨Nat.le_refl _, by simp [Console.addPipe]⟩
  have hfollows := (R.runs_executeTaped depth ctx _ left hserves).course (_, []) hready
  obtain ⟨_, rfl, hlinks, hfair⟩ := (hfollows.finish hready).2 _ _ htaped
  have hempty : (Console.addPipe w console).2.pipes[w.pipes.length]? = some "" := by
    simp [Console.addPipe]
  have hholds {told : String} (htold : Tells w.pipes.length steps told) :
      inside.pipes[w.pipes.length]? = some told := by
    rw [hlinks.told hfair htold, hempty, Option.map_some, String.empty_append]
  obtain ⟨text, htext⟩ := exists_tells hfair
  have hhushed : w.Hushed w.files.writers.length w.pipes.length (Console.addPipe w console).2 :=
    .addPipe w console (Nat.le_refl _)
  refine ⟨steps, text, htaped, fun told => ⟨fun htold => ?_, fun heq => heq ▸ htext⟩,
    hholds htext, hhushed.trans (hlinks.hushed fun step hmem => (hfair step hmem).hushed)⟩
  exact Option.some.inj ((hholds htold).symm.trans (hholds htext))

end

end ToyUnix
