import ToyUnix.Proofs.Shell.Quiet

/-!
Scripts tend to the processes that they start. A program gets a process that is forked for it and
killed however the program ends; a script file runs in such a process, and what it has started is
dead by then. By induction on how deep calls nest this holds for every tree.
-/

set_option autoImplicit false

namespace ToyUnix

open Job (Valued Tends Tidy)

def exitCode (result : Except Fault Int) : Int :=
  match catchEnd result with
  | .ok code => code
  | .error _ => 1

theorem child_eq (x : Job Int) (child : Nat) (name : String) (w : World) :
    (do
      Job.modify (·.updateProcesses (·.setName child name))
      let result ← Job.attempt x
      match catchEnd result with
      | .ok code =>
        Job.modify (·.updateProcesses (·.kill child code))
        return some code
      | .error fault =>
        Job.modify (·.updateProcesses (·.kill child 1))
        Job.throw fault : Job (Option Int)) w =
      (x (w.updateProcesses (·.setName child name))).bind fun s result =>
        .done (s.updateProcesses (·.kill child (exitCode result)))
          ((catchEnd result).map some) := by
  refine (Course.bind_map (x _) (Except.ok : Except Fault Int → _) _).trans ?_
  congr 1
  funext s result
  unfold exitCode
  change (match catchEnd result with | .ok code => _ | .error fault => _ : Job (Option Int)) s = _
  cases catchEnd result <;> rfl

namespace Course.Tends

variable {β : Type} {E : Outset} {mine : Nat → Prop} {w : World}

theorem reap {c : Course World (Except Fault Int)} {Q : World → Except Fault Int → Prop}
    {R : World → β → Prop} {child : Nat} (hchild : E.processes.all.length ≤ child)
    (hlt : child < w.processes.all.length) (h : Tends E Q mine w c)
    (status : Except Fault Int → Int) (f : Except Fault Int → β) (hR : ∀ s b, R s b) :
    Tends E R (fun q => mine q ∨ q = child) w
      (c.bind fun s result =>
        .done (s.updateProcesses (·.kill child (status result))) (f result)) := by
  induction c generalizing mine w with
  | exhausted => trivial
  | done s result =>
    obtain ⟨hturn, hgone, -⟩ := h
    have hkill := hturn.since.kill hchild (status result)
    obtain ⟨limit, hsound⟩ := hturn.since.processes.sound
    refine after hturn (quiet hkill (done hkill.since ?_ (hR _ _)))
    rw [Outset.started_or]
    rintro q (hq | rfl)
    · exact hkill.gone q (hgone q hq)
    · exact hsound.gone_kill (Nat.lt_of_lt_of_le hlt hturn.length_le) _
  | pause s resume ih =>
    obtain ⟨hturn, hrest⟩ := h
    refine ⟨hturn, fun t ht => ?_⟩
    rw [Outset.started_or]
    exact ih t (Nat.lt_of_lt_of_le hlt (Nat.le_trans hturn.length_le ht.length_le)) (hrest t ht)

end Course.Tends

namespace Outset

variable (E : Outset)

def Runs (call : Caller) : Prop :=
  ∀ ctx console tree w, E.Admits ctx → Tidy E w (call ctx console tree)

variable {E} {w : World} {ctx : Context} {call : Caller} {console : Console} {name : String}
  {args : List String}

theorem valued_true {α : Type} (s : World) (result : Except Fault α) :
    Valued (fun _ _ => True) s result := by
  cases result <;> trivial

theorem tidy_ofExcept {α : Type} (result : Except Fault α) : Tidy E w (Job.ofExcept result) :=
  Tends.ofExcept (valued_true w result)

theorem tidy_pure {α : Type} (a : α) : Tidy E w (pure a) := Tends.pure trivial

theorem tidy_update {α : Type} {u : World → α × World} (h : E.Since w → E.Quiet w (u w).2) :
    Tidy E w (Job.update u) :=
  Tends.update h fun _ => trivial

theorem tidy_modify {u : World → World} (h : E.Since w → E.Quiet w (u w)) :
    Tidy E w (Job.modify u) :=
  Tends.modify h fun _ => trivial

theorem tidy_step {α : Type} {u : World → Except Fault α × World}
    (h : E.Since w → E.Quiet w (u w).2) : Tidy E w (Job.step u) :=
  Tends.step h fun _ => valued_true _ _

theorem tidy_of_apart {α : Type} {x : Job α} (h : x.Apart) : Tidy E w x where
  course hw mine hmine := by
    have hx := h.course w
    generalize x w = c at hx
    induction c generalizing w with
    | done s result =>
      have hs := hw.apart hx
      exact Course.Tends.quiet hs (Course.Tends.done hs.since (fun q hq => hs.gone q (hmine q hq))
        (valued_true s result))
    | pause s resume ih =>
      have hs := hw.apart hx.1
      refine ⟨hs.follows, fun t ht => ?_⟩
      rw [hs.started_eq]
      exact ih t ht.since (fun q hq => ht.gone q (hs.gone q (hmine q hq))) (hx.2 t)
    | exhausted => trivial

theorem tidy_fork {α : Type} {parent : Nat} {f : Nat → Job α}
    (hnext : ∀ child s, E.Since s → E.processes.all.length ≤ child →
      child < s.processes.all.length → ∀ mine : Nat → Prop, (∀ q, mine q → s.processes.Gone q) →
      Course.Tends E (Valued fun _ _ => True) (fun q => mine q ∨ q = child) s (f child s)) :
    Tidy E w (Job.step (World.onProcesses · (·.fork parent)) >>= f) where
  course hw mine hmine := by
    obtain ⟨outcome, forked, hfork⟩ : ∃ outcome forked,
        w.processes.fork parent = (outcome, forked) := ⟨_, _, rfl⟩
    have hrun : (Job.step (World.onProcesses · (·.fork parent)) >>= f) w =
        Job.bind (fun _ => .done { w with processes := forked } outcome) f w := by
      change Job.bind (fun _ => .done { w with processes := (w.processes.fork parent).2 }
        (w.processes.fork parent).1) f w = _
      rw [hfork]
    rw [hrun]
    cases outcome with
    | error fault =>
      rw [Processes.fork_error hfork]
      exact Course.Tends.done hw hmine trivial
    | ok child =>
      obtain ⟨hchild, born, hall⟩ := Processes.all_fork hfork
      have heq : forked = (w.processes.fork parent).2 := by rw [hfork]
      have hturn : E.Follows w { w with processes := forked } := by
        refine ⟨⟨?_, hw.scopes, hw.shells⟩, ?_, fun q hq => ?_⟩
        · exact heq ▸ hw.processes.fork parent
        · exact hall ▸ by simp
        · exact heq ▸ hq.fork parent
      have hstarted : World.started mine w { w with processes := forked } =
          fun q => mine q ∨ q = child := by
        funext q
        simp only [World.started, hall, List.length_append, List.length_singleton, eq_iff_iff]
        refine or_congr_right ?_
        omega
      refine Course.Tends.after hturn ?_
      rw [hstarted]
      refine hnext child _ hturn.since (hchild ▸ hw.processes.length_le) ?_ mine fun q hq => ?_
      · change child < forked.all.length
        rw [hall, hchild]
        simp
      · exact hturn.gone q (hmine q hq)

theorem tidy_callFunction (hcall : E.Runs call) {owner : Context} (howner : E.Admits owner)
    (body : Instruction) : Tidy E w (callFunction call owner body console name args) := by
  unfold callFunction
  refine (tidy_update fun hw => ?_).bind fun frame s _ _ => ?_
  · change E.Quiet w (w.updateScope owner.ownScope
      fun _ => ((w.scope owner.ownScope).push name args).2)
    rw [World.updateScope_const w owner.ownScope fun scope => (scope.push name args).2]
    exact hw.updateScope _ fun _ _ => rfl
  · refine (hcall owner console body s howner).attempt.bind fun result s _ _ => ?_
    have hpop (hs : E.Since s) : E.Quiet s (s.updateScope owner.ownScope (·.pop frame)) :=
      hs.updateScope _ fun _ _ => rfl
    exact (tidy_modify hpop).bind fun _ s _ _ => tidy_ofExcept _

theorem tidy_tryCommand (hcall : E.Runs call) (hctx : E.Admits ctx) :
    Tidy E w (tryCommand call ctx console name args) := by
  refine Tends.get_bind ?_
  split
  · exact tidy_pure none
  · rename_i owner body hfound
    exact Tends.fmap some
      (tidy_callFunction hcall (hctx.around (Context.resolve?_function hfound).1) body)
  · rename_i hfound
    have hhost := hctx.around (Context.resolve?_builtin hfound)
    exact Tends.fmap some
      (tidy_step fun hw => hw.runBuiltin (hhost.around (.shell .here)) console name args)

theorem tidy_reportFault (settings : ShellSettings) (fault : Fault) :
    Tidy E w (reportFault settings fault) := by
  unfold reportFault
  split
  · exact tidy_modify fun hw => hw.apart (Console.writeLine_apart ..)
  · exact Tends.throw fault

theorem tidy_runScript (hcall : E.Runs call) {shell : Context} (hshell : E.Admits shell)
    (settings : ShellSettings) (text : String) :
    Tidy E w (runScript call shell settings text) := by
  unfold runScript
  split
  · exact (tidy_reportFault ..).bind fun _ s _ _ => tidy_pure 2
  · refine (tidy_modify fun hw => hw.apart (setMode_apart ..)).bind fun _ s _ _ => ?_
    refine (hcall shell _ _ s hshell).attempt.bind fun result s _ _ => ?_
    refine (tidy_modify fun hw => hw.apart (setMode_apart ..)).bind fun _ s _ _ => ?_
    cases catchEnd result with
    | ok code => exact tidy_pure code
    | error fault => exact (tidy_reportFault ..).bind fun _ s _ _ => tidy_pure 1

theorem tidy_runScriptFile (hcall : E.Runs call) (config : ShellConfig) {p : Nat}
    (hp : E.processes.all.length ≤ p) (c : Nat) (path source : String) :
    Tidy E w (runScriptFile call config p c console path source args) := by
  refine Tends.bind (Q := fun _ host => E.scopes ≤ host) (Tends.update (fun hw => ?_) (·.scopes))
    fun host s _ hhost => ?_
  · exact hw.addScope.trans (hw.addScope.since.updateScope _ fun hmem =>
      absurd hmem (not_mem_shells hw.scopes))
  · refine (tidy_update fun hs => ?_).bind fun made s _ _ => ?_
    · exact hs.addScope.trans (hs.addScope.since.apart ⟨rfl, rfl⟩)
    · exact tidy_runScript hcall (admits_script hp hhost) _ source

theorem tidy_runExecutable (hcall : E.Runs call) (limit : Nat) (scripts : Option ShellConfig)
    {p : Nat} (hp : E.processes.all.length ≤ p) (c : Nat) (computer : Computer) (path : String)
    (executable : Executable) :
    Tidy E w (runExecutable call limit scripts p c computer console path args executable) := by
  cases executable with
  | native program => exact tidy_of_apart (program.run_apart ..)
  | script source =>
    cases scripts with
    | none => exact Tends.throw _
    | some config => exact tidy_runScriptFile hcall config hp c path source

theorem tidy_executeProgram (hcall : E.Runs call) (limit : Nat) (scripts : Option ShellConfig)
    (parent c : Nat) :
    Tidy E w (executeProgram call limit scripts parent c console name args) := by
  refine Tends.get_bind ?_
  split
  · exact tidy_pure none
  split
  · exact tidy_pure none
  rename_i computer _ _ path executable _
  refine tidy_fork fun child s hs hchild hlt mine hmine => ?_
  have hname : E.Quiet s (s.updateProcesses (·.setName child (PathText.fileName path))) :=
    hs.update (fun _ => rfl)
      (hs.processes.update (.inr hchild) (fun _ => rfl) (fun _ _ _ _ => rfl) fun _ => rfl)
  have hbody (t : World) : Tidy E t
      (runExecutable call limit scripts child c computer console path args executable) :=
    tidy_runExecutable hcall limit scripts hchild c computer path executable
  have hrun := (hbody _).course hname.since mine fun q hq => hname.gone q (hmine q hq)
  refine Eq.mpr (congrArg (Course.Tends E _ _ s) (child_eq _ child (PathText.fileName path) s)) ?_
  exact Course.Tends.quiet hname
    (hrun.reap hchild (hname.length_eq.symm ▸ hlt) exitCode _ valued_true)

theorem tidy_runUnknown (hcall : E.Runs call) (limit : Nat) (at_ : Context) :
    Tidy E w (runUnknown call limit console name args at_) := by
  have hmissing {w : World} : Tidy E w (reportNotFound console name) :=
    (tidy_modify fun hw => hw.apart (Console.writeLine_apart ..)).bind fun _ s _ _ => tidy_pure 127
  induction at_ with
  | standalone title directory scope => exact hmissing
  | process p c config scope =>
    refine (tidy_executeProgram hcall limit (some config) p c).bind fun found s _ _ => ?_
    cases found with
    | none => exact hmissing
    | some code => exact tidy_pure code
  | shell id scope settings host ih => exact ih
  | nested scope parent ih => exact ih

theorem tidy_runCommand (hcall : E.Runs call) (limit : Nat) (hctx : E.Admits ctx) :
    Tidy E w (runCommand call limit ctx console name args) := by
  refine (tidy_tryCommand hcall hctx).bind fun found s _ _ => ?_
  cases found with
  | none => exact tidy_runUnknown hcall limit ctx
  | some code => exact tidy_pure code

variable (E) in
/-- A context finds the status that was stored last. -/
def Told (ctx : Context) (s : World) (code : Int) : Prop :=
  E.Answers ctx → ctx.get? s "?" = some (toString code)

theorem tends_setStatus (hctx : E.Admits ctx) (code : Int) :
    Tends E (E.Told ctx) w (do Job.modify (setStatus ctx code); return code) := by
  refine Tends.update (u := fun w => (code, setStatus ctx code w)) (fun hw => hw.set hctx _ _)
    fun hw hanswers => ?_
  exact get?_setStatus hw (hw.set hctx _ _).since hanswers

theorem tends_runSimple (hcall : E.Runs call) (limit : Nat) (hctx : E.Admits ctx)
    (assignments : List (String × Word)) (words : List Word) :
    Tends E (E.Told ctx) w (runSimple call limit ctx console assignments words) := by
  refine (tidy_update fun hw => hw.assign hctx assignments).bind fun argv s _ _ => ?_
  cases argv with
  | nil => exact tends_setStatus hctx 0
  | cons name args =>
    exact (tidy_runCommand hcall limit hctx).bind fun code s _ _ => tends_setStatus hctx code

end Outset

/-- A tree whose status is that of a command in the context of the tree itself, whatever happens. -/
def Instruction.reports : Instruction → Bool
  | .command _ _ => true
  | .pipe _ last | .sequential _ last | .redirect _ _ last => last.reports
  | .conditional _ left right => left.reports && right.reports
  | .empty | .parallel _ _ | .function _ _ | .scoped _ => false

namespace Outset

variable (E : Outset)

/-- What is stored last is what the ending tells; where commands come last it is their status. -/
structure Ended (ctx : Context) (tree : Instruction) (s : World) (ending : Ending) : Prop where
  told : ∀ code, ending.stored = some code → E.Told ctx s code
  reported : tree.reports = true → ending.stored = some ending.code

variable {E} {w : World} {ctx : Context} {call : Caller}

theorem Ended.of_none {tree : Instruction} (h : tree.reports = false) (s : World) (code : Int) :
    E.Ended ctx tree s ⟨code, none⟩ :=
  ⟨fun _ => nofun, fun hreports => absurd hreports (h ▸ Bool.false_ne_true)⟩

theorem Ended.of_last (tree : Instruction) {last : Instruction} {s : World} {ending : Ending}
    (hlast : E.Ended ctx last s ending) (h : tree.reports = last.reports) :
    E.Ended ctx tree s ending :=
  ⟨hlast.told, fun hreports => hlast.reported (h ▸ hreports)⟩

theorem valued_apart {tree : Instruction} {v : World} {result : Except Fault Ending}
    (h : Valued (E.Ended ctx tree) w result) (hv : w.Apart v) :
    Valued (E.Ended ctx tree) v result := by
  cases result with
  | error fault => trivial
  | ok ending =>
    refine ⟨fun code hstored hanswers => ?_, h.reported⟩
    rw [Context.get?_apart hv]
    exact h.told code hstored hanswers

theorem Ended.flushed {mode : RedirectMode} {target : Word} {inner : Instruction} {s : World}
    {result : Except Fault Ending} (hresult : Valued (E.Ended ctx inner) s result)
    (flush : Except Fault Unit) :
    Valued (E.Ended ctx (.redirect mode target inner)) s (Ending.flushed result flush) := by
  cases result with
  | error fault => trivial
  | ok ending =>
    cases flush with
    | error fault => trivial
    | ok _ => exact Ended.of_last _ hresult rfl

theorem Ended.joined {first next : Instruction} {s : World}
    {ended : (Except Fault Ending × Except Fault Ending) × Side}
    (h : Course.Lastly (Valued (E.Ended ctx first)) (Valued (E.Ended ctx next)) s ended) :
    Valued (E.Ended ctx (.parallel first next)) s (joinEndings ended) := by
  obtain ⟨⟨left, right⟩, side⟩ := ended
  cases left with
  | error fault => trivial
  | ok left =>
    cases right with
    | error fault => trivial
    | ok right => cases side <;> exact ⟨h.told, nofun⟩

theorem tends_runEnding (hcall : E.Runs call) (limit : Nat) (tree : Instruction)
    (hctx : E.Admits ctx) (console : Console) :
    Tends E (E.Ended ctx tree) w (tree.runEnding call limit ctx console) := by
  induction tree generalizing ctx console w with
  | empty => exact Tends.pure (Ended.of_none rfl w 0)
  | command assignments words =>
    refine (tends_runSimple hcall limit hctx assignments words).bind fun code s _ htold => ?_
    exact Tends.pure ⟨fun _ hstored => Option.some.inj hstored ▸ htold, fun _ => rfl⟩
  | pipe left right ihleft ihright =>
    have hpipe (hw : E.Since w) : E.Quiet w (Console.addPipe w console).2 := hw.apart ⟨rfl, rfl⟩
    refine (tidy_update hpipe).bind fun pipe s _ _ => ?_
    refine (ihleft hctx pipe).bind fun _ s _ _ => ?_
    have hinput (hs : E.Since s) :
        E.Quiet s (Console.addInput (pipe.drain s).2 (pipe.drain s).1 console).2 :=
      hs.apart ((Console.drain_apart s pipe).trans ⟨rfl, rfl⟩)
    refine (tidy_update hinput).bind fun input s _ _ => ?_
    exact (ihright hctx input).mono fun _ _ hright => hright.of_last (.pipe left right) rfl
  | sequential first next ihfirst ihnext =>
    refine (ihfirst hctx console).bind fun _ s _ _ => ?_
    exact (ihnext hctx console).mono fun _ _ hnext => hnext.of_last (.sequential first next) rfl
  | parallel first next ihfirst ihnext =>
    refine ((ihfirst hctx console).bothLast fun s _ => ihnext hctx console).bind
      fun ended s _ hended => ?_
    exact Tends.ofExcept (Ended.joined hended)
  | conditional logic left right ihleft ihright =>
    refine (ihleft hctx console).bind fun ending s _ hleft => ?_
    have hparts (h : (left.reports && right.reports) = true) := Bool.and_eq_true_iff.1 h
    split
    · exact (ihright hctx console).mono fun _ _ hright =>
        ⟨hright.told, fun hreports => hright.reported (hparts hreports).2⟩
    · exact Tends.pure ⟨hleft.told, fun hreports => hleft.reported (hparts hreports).1⟩
  | redirect mode target inner ih =>
    refine (tidy_step fun hw => hw.apart (Context.openConsole_apart ..)).bind
      fun redirected s _ _ => ?_
    refine (ih hctx redirected).attempt.bind fun result s _ hresult => ?_
    -- What the inner tree has told is not touched while its console is given up.
    refine Tends.bind (Q := fun t _ => Valued (E.Ended ctx inner) t result)
      (Tends.update (u := fun w => redirected.flush w) (fun hs => hs.apart (Console.flush_apart ..))
        fun _ => valued_apart hresult (Console.flush_apart ..)) fun flush t _ hflush => ?_
    refine Tends.bind (Q := fun t _ => Valued (E.Ended ctx inner) t result)
      (Tends.modify (fun ht => ht.apart (closeConsole_apart ..))
        fun _ => valued_apart hflush (closeConsole_apart ..)) fun _ t _ hclose => ?_
    exact Tends.ofExcept (Ended.flushed hclose flush)
  | function name body _ =>
    have hdeclare (hw : E.Since w) : E.Quiet w (ctx.declare w name body) :=
      hw.updateScope _ fun _ _ => rfl
    exact (tidy_modify hdeclare).bind fun _ s _ _ => Tends.pure (Ended.of_none rfl s 0)
  | «scoped» inner ih =>
    refine Tends.bind (Q := fun _ scope => E.scopes ≤ scope)
      (Tends.update (fun hw => hw.addScope) (·.scopes)) fun scope s _ hscope => ?_
    refine (ih (hctx.nested hscope) console).bind fun ending s _ _ => ?_
    exact Tends.pure (Ended.of_none rfl s ending.code)

theorem runs_execute (depth : Nat) : E.Runs (execute depth) := by
  induction depth with
  | zero => exact fun _ _ _ _ _ => Tends.exhausted
  | succ depth ih =>
    intro ctx console tree w hctx
    rw [execute_eq_executeEnding]
    exact Tends.fmap Ending.code
      ((tends_runEnding ih depth tree hctx console).mono fun _ _ _ => trivial)

theorem tends_executeEnding (depth : Nat) (tree : Instruction) (hctx : E.Admits ctx)
    (console : Console) : Tends E (E.Ended ctx tree) w (executeEnding depth ctx console tree) := by
  cases depth with
  | zero => exact Tends.exhausted
  | succ depth => exact tends_runEnding (runs_execute depth) depth tree hctx console

end Outset

end ToyUnix
