import ToyUnix.Proofs.Shell.Piped
import ToyUnix.Proofs.Text.Lines

/-!
A pipeline that ends in `cat`. What its left side has written is cut into lines, which wait in front
of the outer console; `cat` reads them one by one and writes each with a newline after it. So the
outer console gets the text as its lines give it back, and keeps its own input: see `cat_delivers`.
-/

set_option autoImplicit false

namespace ToyUnix

/-! Writing several texts to one console, and elsewhere. -/

namespace Files

theorem writeBytes_nil (s : Files) (id : Nat) : s.writeBytes id [] = s := by
  unfold writeBytes
  cases h : s.writer? id with
  | none => rfl
  | some writer =>
    obtain ⟨hid, rfl⟩ := List.getElem?_eq_some_iff.1 h
    simp only [setPending, h, List.append_nil]
    rw [List.set_getElem_self hid]

theorem writeBytes_append (s : Files) (id : Nat) (first next : Bytes) :
    (s.writeBytes id first).writeBytes id next = s.writeBytes id (first ++ next) := by
  cases h : s.writer? id with
  | none => simp only [writeBytes, h]
  | some writer =>
    have hfirst := writer?_writeBytes h first
    simp only [writeBytes, h, setPending] at hfirst ⊢
    simp only [hfirst, List.set_set, List.append_assoc]

end Files

namespace Console

theorem write_empty (w : World) (console : Console) : console.write w "" = w := by
  induction console with
  | input id parent ih => exact ih
  | file writer parent _ => simp [write, Utf8.encode, Files.writeBytes_nil]
  | buffer id =>
    simp only [write, updateBuffer, String.append_empty]
    exact congrArg (fun buffers => { w with buffers }) (List.modify_id id w.buffers)
  | terminal id =>
    simp only [write, emit, updateTerminal, String.append_empty]
    exact congrArg (fun terminals => { w with terminals }) (List.modify_id id w.terminals)
  | pipe id parent _ =>
    simp only [write, String.append_empty]
    exact congrArg (fun pipes => { w with pipes }) (List.modify_id id w.pipes)

theorem write_append (w : World) (first next : String) (console : Console) :
    console.write (console.write w first) next = console.write w (first ++ next) := by
  induction console with
  | input id parent ih => exact ih
  | file writer parent _ => simp [write, Utf8.encode_append, Files.writeBytes_append]
  | _ =>
    simp [write, updateBuffer, updateTerminal, emit, List.modify_modify_eq, Function.comp_def,
      String.append_assoc]

theorem write_inputs (w : World) (inputs : List (List String)) (text : String)
    (console : Console) :
    console.write { w with inputs } text = { console.write w text with inputs } := by
  induction console with
  | input id parent ih => exact ih
  | _ => rfl

end Console

theorem World.Silent.write {v w : World} (h : v.Silent w) (console : Console) (text : String) :
    (console.write v text).Silent (console.write w text) := by
  obtain ⟨hfiles, hbuffers, hterminals, hpipes, hinputs⟩ := h
  induction console with
  | input id parent ih => exact ih
  | _ =>
    constructor <;>
      simp only [Console.write, Console.updateBuffer, Console.updateTerminal, Console.emit, *]

/-- No line has been read from a buffer or a terminal, nor from an input that was there. -/
structure World.Unread (v w : World) : Prop where
  buffers : ∀ id : Nat, w.buffers[id]?.map (·.input) = v.buffers[id]?.map (·.input)
  terminals : ∀ id : Nat, w.terminals[id]?.map (·.input) = v.terminals[id]?.map (·.input)
  inputs : ∀ id, id < v.inputs.length → w.inputs[id]? = v.inputs[id]?

theorem World.Unread.write (w : World) (text : String) (console : Console) :
    w.Unread (console.write w text) := by
  induction console with
  | input id parent ih => exact ih
  | buffer id =>
    refine ⟨fun other => ?_, fun _ => rfl, fun _ _ => rfl⟩
    simp only [Console.write, Console.updateBuffer, List.getElem?_modify]
    cases w.buffers[other]? <;> by_cases hid : id = other <;> simp [hid]
  | terminal id =>
    refine ⟨fun _ => rfl, fun other => ?_, fun _ _ => rfl⟩
    simp only [Console.write, Console.emit, Console.updateTerminal, List.getElem?_modify]
    cases w.terminals[other]? <;> by_cases hid : id = other <;> simp [hid]
  | _ => exact ⟨fun _ => rfl, fun _ => rfl, fun _ _ => rfl⟩

theorem World.Unread.silent {u v w : World} (h : u.Unread v) (hsilent : v.Silent w) :
    u.Unread w where
  buffers id := by
    rw [hsilent.buffers]
    exact h.buffers id
  terminals id := by
    rw [hsilent.terminals]
    exact h.terminals id
  inputs id hid := by
    rw [hsilent.inputs]
    exact h.inputs id hid

theorem feed_held {w : World} {id : Nat} {text : String} (h : w.pipes[id]? = some text)
    (parent console : Console) :
    feed (.pipe id parent) console w = (.input w.inputs.length console,
      { w with
        pipes := w.pipes.set id ""
        inputs := w.inputs ++ [textLines text] }) := by
  have houtput : (Console.pipe id parent).output w = text := by
    rw [Console.output, h, Option.getD_some]
  rw [feed, Console.drain, houtput]
  rfl

/-! Copying an input. -/

/-- By induction on the lines that wait. -/
theorem Utility.copyLines_input {run : Invocation} {id : Nat} {parent : Console}
    (hconsole : run.console = .input id parent) {w : World} {lines : List String}
    (hlines : w.inputs[id]? = some lines) :
    copyLines run (lines.length + 1) w =
      { parent.write w (String.join (lines.map (· ++ "\n"))) with
        inputs := w.inputs.set id [] } := by
  induction lines generalizing w with
  | nil =>
    obtain ⟨hid, hnil⟩ := List.getElem?_eq_some_iff.1 hlines
    have hsame : w.inputs.set id [] = w.inputs := by
      rw [← hnil, List.set_getElem_self hid]
    have hjoin : String.join ([].map (· ++ "\n")) = "" := rfl
    simp only [copyLines, hconsole, Console.readLine, hlines, hsame, hjoin, Console.write_empty]
  | cons line lines ih =>
    obtain ⟨hid, -⟩ := List.getElem?_eq_some_iff.1 hlines
    have hrest : (w.inputs.set id lines)[id]? = some lines := List.getElem?_set_self hid
    have hread : run.console.readLine w =
        (some line, { w with inputs := w.inputs.set id lines }) := by
      simp only [hconsole, Console.readLine, hlines]
    have hwrite : run.writeLine { w with inputs := w.inputs.set id lines } line =
        { parent.write w (line ++ "\n") with inputs := w.inputs.set id lines } := by
      rw [Invocation.writeLine, hconsole]
      change parent.write (parent.write _ line) "\n" = _
      rw [Console.write_append, Console.write_inputs]
    rw [List.length_cons, copyLines, hread]
    change copyLines run (lines.length + 1) (run.writeLine _ line) = _
    rw [hwrite, ih hrest, Console.write_inputs, Console.write_append, List.set_set, List.map_cons,
      String.join_cons]

/-- In that state the name stands for the program: no function and no built-in is called so, and
what a child of the process that the context belongs to would run is the program. -/
def Context.Launches (ctx : Context) (w : World) (name : String) (program : Program) : Prop :=
  ctx.resolve? w name = none ∧ ∃ p c config computer path child forked,
    ctx.host? = some (p, c, config) ∧ w.computers[c]? = some computer ∧
    w.resolveProgram computer p name = some (path, .native program) ∧
    w.processes.fork p = (.ok child, forked)

section

variable {ctx : Context} {console : Console} {words : List Word} {name : String} {depth : Nat}

theorem finish_cat {w : World} {id : Nat} {lines : List String} (hdepth : depth ≠ 0)
    (hwords : expandAll w ctx words = [name]) (hcat : ctx.Launches w name .cat)
    (hlines : w.inputs[id]? = some lines) :
    ∃ t, (execute depth ctx (.input id console) (.command [] words) w).finish =
        some (t, .ok 0) ∧
      World.Silent { console.write w (String.join (lines.map (· ++ "\n"))) with
        inputs := w.inputs.set id [] } t := by
  obtain ⟨hunknown, p, c, config, computer, path, child, forked, hhost, hcomputer, hfound,
    hfork⟩ := hcat
  obtain ⟨depth, rfl⟩ := Nat.exists_eq_succ_of_ne_zero hdepth
  let s : World := { w with processes := forked.setName child (PathText.fileName path) }
  let run : Invocation := ⟨child, computer, .input id console, []⟩
  let t := setStatus ctx 0
    ((Utility.cat run s).2.updateProcesses (·.kill child 0))
  have hrun : (execute (depth + 1) ctx (.input id console) (.command [] words) w).finish =
      some (t, .ok 0) := by
    have hassigned : ctx.resolve? (assign ctx [] w) name = none := hunknown
    change (runSimple (execute depth) depth ctx (.input id console) [] words w).finish = _
    rw [runSimple_unknown hwords hassigned hhost]
    change ((executeProgram _ depth (some config) p c _ name [] w).bind _).finish = _
    rw [executeProgram_forked hcomputer hfound, hfork]
    rfl
  have hcopy : (Utility.cat run s).2 =
      { console.write s (String.join (lines.map (· ++ "\n"))) with
        inputs := w.inputs.set id [] } := by
    have hleft : run.console.linesLeft s = lines.length := by
      change (w.inputs[id]?.map (·.length)).getD 0 = _
      rw [hlines]
      rfl
    rw [Utility.cat, if_pos rfl, hleft]
    exact Utility.copyLines_input rfl hlines
  have hsilent : w.Silent s := ⟨rfl, rfl, rfl, rfl, rfl⟩
  have hwritten := hsilent.write console (String.join (lines.map (· ++ "\n")))
  have hcopied : World.Silent { console.write w (String.join (lines.map (· ++ "\n"))) with
      inputs := w.inputs.set id [] } (Utility.cat run s).2 := by
    rw [hcopy]
    exact { hwritten with inputs := rfl }
  exact ⟨t, hrun, (hcopied.trans (.updateProcesses ..)).trans (.set ..)⟩

/-- Where the left side has ended without a fault, and `cat` stands for the utility then, the outer
console gets what the left side has written to its own, as its lines give it back, and nothing
else, neither from the left side, but for window titles, nor from `cat`; and `cat` reads no line but
those. A text whose lines are all ended by a newline alone comes out as it is. -/
theorem cat_delivers {left : Instruction} {w inside fed : World} {code : Int} {input : Console}
    (hleft : (execute depth ctx (Console.addPipe w console).1 left (Console.addPipe w console).2
      ).finish = some (inside, .ok code))
    (hfeed : feed (Console.addPipe w console).1 console inside = (input, fed))
    (hwords : expandAll fed ctx words = [name]) (hcat : ctx.Launches fed name .cat) :
    ∃ steps text t,
      (executeTaped depth ctx (Console.addPipe w console).1 left
        ((Console.addPipe w console).2, [])).finish = some ((inside, steps), .ok code) ∧
      (∀ told, Tells w.pipes.length steps told ↔ told = text) ∧
      w.Hushed w.files.writers.length w.pipes.length inside ∧
      (execute depth ctx console (.pipe left (.command [] words)) w).finish = some (t, .ok 0) ∧
      World.Silent
        { console.write fed (relined text) with inputs := inside.inputs ++ [[]] } t ∧
      inside.Unread t ∧
      ((text.toList = [] ∨ text.toList.getLast? = some '\n') →
        ¬ ['\r', '\n'] <:+: text.toList → relined text = text) := by
  obtain ⟨steps, text, htaped, htold, hholds, hhushed⟩ := pipe_captures hleft
  have hpipe : (execute depth ctx console (.pipe left (.command [] words)) w).finish =
      (execute depth ctx input (.command [] words) fed).finish := by
    rw [finish_pipe hleft, hfeed]
  cases (feed_held hholds console console).symm.trans hfeed
  have hread (lines : List String) :
      (inside.inputs ++ [lines]).set inside.inputs.length [] = inside.inputs ++ [[]] := by
    simp
  have hdepth : depth ≠ 0 := by
    rintro rfl
    cases hleft
  obtain ⟨t, hrun, hsilent⟩ := finish_cat hdepth hwords hcat (List.getElem?_concat_length ..)
  rw [hread, join_textLines] at hsilent
  have hunread : inside.Unread t := by
    refine World.Unread.silent ⟨?_, ?_, fun id hid => List.getElem?_append_left hid⟩ hsilent
    · exact (World.Unread.write _ (relined text) console).buffers
    · exact (World.Unread.write _ (relined text) console).terminals
  exact ⟨steps, text, t, htaped, htold, hhushed, hpipe.trans hrun, hsilent, hunread,
    fun hended hreturns => (relined_eq_self_iff text).2 ⟨hended, hreturns⟩⟩

end

namespace Sample

/-- `echo 'a\r'; echo -n b` -/
def jotting : Instruction :=
  .sequential (.command [] [.ofText "echo", .ofText "a\r"])
    (.command [] [.ofText "echo", .ofText "-n", .ofText "b"])

/-- The carriage return is gone, and the last line is ended. -/
theorem jotting_delivered :
    parseScript {} "\x7b echo 'a\r'; echo -n b; \x7d | cat" false =
      .ok (.pipe jotting (.command [] [.ofText "cat"])) ∧
    ∃ inside input fed steps t,
      (execute 9 boxShell (.pipe 0 (.buffer 0)) jotting (Console.addPipe box (.buffer 0)).2
        ).finish = some (inside, .ok 0) ∧
      feed (.pipe 0 (.buffer 0)) (.buffer 0) inside = (input, fed) ∧
      expandAll fed boxShell [.ofText "cat"] = ["cat"] ∧ boxShell.Launches fed "cat" .cat ∧
      (executeTaped 9 boxShell (.pipe 0 (.buffer 0)) jotting
        ((Console.addPipe box (.buffer 0)).2, [])).finish = some ((inside, steps), .ok 0) ∧
      (∀ told, Tells 0 steps told ↔ told = "a\r\nb") ∧ box.Hushed 0 0 inside ∧
      (execute 9 boxShell (.buffer 0) (.pipe jotting (.command [] [.ofText "cat"])) box).finish =
        some (t, .ok 0) ∧
      inside.Unread t ∧ (Console.buffer 0).output t = "a\nb\n" := by
  have hrun : (execute 9 boxShell (Console.addPipe box (.buffer 0)).1 jotting
      (Console.addPipe box (.buffer 0)).2).finish.map (fun r =>
        (r.2, r.1.pipes[0]?, r.1.buffers[0]?.map (·.output))) =
      some (.ok 0, some "a\r\nb", some "") := by
    decide +kernel
  have hhost : (execute 9 boxShell (Console.addPipe box (.buffer 0)).1 jotting
      (Console.addPipe box (.buffer 0)).2).finish.map (fun r =>
        let fed := (feed (Console.addPipe box (.buffer 0)).1 (.buffer 0) r.1).2
        ((expandAll fed boxShell [.ofText "cat"], (boxShell.resolve? fed "cat").isNone),
          fed.computers[0]?.map (fed.resolveProgram · 0 "cat"), (fed.processes.fork 0).1)) =
      some ((["cat"], true), some (some ("cat", .native .cat)), .ok 1) := by
    decide +kernel
  obtain ⟨⟨inside, result⟩, hleft, hends⟩ := Option.map_eq_some_iff.1 hrun
  rw [hleft, Option.map_some, Option.some.injEq] at hhost
  simp only [Prod.mk.injEq] at hends hhost
  obtain ⟨rfl, hpipe, hbefore⟩ := hends
  obtain ⟨⟨hwords, hresolve⟩, hprogram, hfork⟩ := hhost
  obtain ⟨computer, hcomputer, hfound⟩ := Option.map_eq_some_iff.1 hprogram
  have hcat : boxShell.Launches _ "cat" .cat :=
    ⟨by simpa using hresolve, 0, 0, {}, computer, "cat", 1, _, rfl, hcomputer, hfound,
      Prod.ext hfork rfl⟩
  obtain ⟨steps, text, t, htaped, htold, hhushed, hdelivered, hsilent, hunread, -⟩ :=
    cat_delivers hleft rfl hwords hcat
  obtain ⟨_, held, htaped', htold', hholds, -⟩ := pipe_captures hleft
  cases htaped.symm.trans htaped'
  cases Option.some.inj (hholds.symm.trans hpipe)
  cases (htold' text).1 ((htold text).2 rfl)
  have hout : (Console.buffer 0).output t = relined "a\r\nb" := by
    obtain ⟨state, hstate, hempty⟩ := Option.map_eq_some_iff.1 hbefore
    have hbuffers : t.buffers[0]? =
        some { state with output := state.output ++ relined "a\r\nb" } := by
      rw [hsilent.buffers]
      exact (List.getElem?_modify ..).trans (congrArg _ hstate)
    rw [Console.output, hbuffers, hempty]
    rfl
  have hrelined : relined "a\r\nb" = "a\nb\n" := by decide +kernel
  exact ⟨by decide +kernel, inside, _, _, steps, t, hleft, rfl, hwords, hcat, htaped, htold,
    hhushed, hdelivered, hunread, hout.trans hrelined⟩

end Sample

end ToyUnix
