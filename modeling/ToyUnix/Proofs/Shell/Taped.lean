import ToyUnix.Proofs.Shell.Callees

/-!
Taped runs. A tape tells step by step what a run does: which steps are turns of a command that acts
on its console, which bring output to a file, and which are the shell's own. `executeTaped` runs a
tree like `execute` and keeps such a tape, branches that take turns with each other on the same one:
see `finish_executeTaped`. What each step of a run is like is said by a `Recorder`.
-/

set_option autoImplicit false

namespace ToyUnix

inductive StepKind
  /-- A turn of a command on that console. -/
  | turn (console : Console)
  /-- Output to that console is brought to its file. -/
  | flush (console : Console)
  | shell
  deriving DecidableEq, Repr

structure Step where
  kind : StepKind
  before : World
  after : World

abbrev Tape := List Step

def Course.taped {α : Type} (kind : StepKind) :
    Course World α → World → Tape → Course (World × Tape) α
  | .done s a, w, tape => .done (s, tape ++ [⟨kind, w, s⟩]) a
  | .pause s resume, w, tape =>
    .pause (s, tape ++ [⟨kind, w, s⟩]) fun r => taped kind (resume r.1) r.1 r.2
  | .exhausted, _, _ => .exhausted

def Taped (α : Type) : Type := World × Tape → Course (World × Tape) (Except Fault α)

namespace Taped

variable {α β : Type}

def pure (a : α) : Taped α := fun r => .done r (.ok a)

def bind (x : Taped α) (f : α → Taped β) : Taped β := fun r =>
  (x r).bind fun r result =>
    match result with
    | .ok a => f a r
    | .error fault => .done r (.error fault)

instance : Monad Taped where
  pure := Taped.pure
  bind := Taped.bind

def get : Taped World := fun r => .done r (.ok r.1)

def of (kind : StepKind) (x : Job α) : Taped α := fun r => (x r.1).taped kind r.1 r.2

def attempt (x : Taped α) : Taped (Except Fault α) := fun r => (x r).map .ok

def ofExcept (result : Except Fault α) : Taped α := fun r => .done r result

def both (x : Taped α) (y : Taped β) : Taped (Except Fault α × Except Fault β) := fun r =>
  ((x r).both y).map .ok

end Taped

open Taped (of)

abbrev TapedCaller := Context → Console → Instruction → Taped Int

def tapeCommand (call : TapedCaller) (plain : Caller) (limit : Nat) (ctx : Context)
    (console : Console) (name : String) (args : List String) : Taped Int := do
  let w ← Taped.get
  match ctx.callee? console name args w with
  | none => of (.turn console) (runCommand plain limit ctx console name args)
  | some callee => do
    of .shell (Job.modify fun _ => callee.start)
    let result ← (call callee.owner console callee.tree).attempt
    of .shell (Job.step (callee.leave result))

def tapeSimple (call : TapedCaller) (plain : Caller) (limit : Nat) (ctx : Context)
    (console : Console) (assignments : List (String × Word)) (words : List Word) : Taped Int := do
  let argv ← of .shell (Job.update fun w => (expandAll w ctx words, assign ctx assignments w))
  match argv with
  | [] => do
    of .shell (Job.modify (setStatus ctx 0))
    return 0
  | name :: args => do
    let code ← tapeCommand call plain limit ctx console name args
    of .shell (Job.modify (setStatus ctx code))
    return code

def Instruction.tape (call : TapedCaller) (plain : Caller) (limit : Nat) :
    Instruction → Context → Console → Taped Int
  | .empty, _, _ => return 0
  | .command assignments words, ctx, console =>
    tapeSimple call plain limit ctx console assignments words
  | .pipe left right, ctx, console => do
    let pipe ← of .shell (Job.update (Console.addPipe · console))
    let _ ← left.tape call plain limit ctx pipe
    let input ← of .shell (Job.update (feed pipe console))
    right.tape call plain limit ctx input
  | .sequential first next, ctx, console => do
    let _ ← first.tape call plain limit ctx console
    next.tape call plain limit ctx console
  | .parallel first next, ctx, console => do
    let results ← (first.tape call plain limit ctx console).both
      (next.tape call plain limit ctx console)
    Taped.ofExcept (joinResults results)
  | .conditional logic left right, ctx, console => do
    let code ← left.tape call plain limit ctx console
    if logic.goesOn code then right.tape call plain limit ctx console else return code
  | .redirect mode target inner, ctx, console => do
    let redirected ← of .shell (Job.step fun w =>
      ctx.openConsole w console (expandOne w ctx target) mode)
    let result ← (inner.tape call plain limit ctx redirected).attempt
    let flushed ← (of (.flush redirected) (Job.step fun w => redirected.flush w)).attempt
    of (.flush redirected) (Job.modify (closeConsole · redirected))
    Taped.ofExcept (joinFlush result flushed)
  | .function name body, ctx, _ => do
    of .shell (Job.modify (ctx.declare · name body))
    return 0
  | .scoped inner, ctx, console => do
    let scope ← of .shell (Job.update World.addScope)
    inner.tape call plain limit (.nested scope ctx) console

def executeTaped : Nat → TapedCaller
  | 0 => fun _ _ _ _ => .exhausted
  | depth + 1 => fun ctx console tree =>
    tree.tape (executeTaped depth) (execute depth) depth ctx console

/-- The steps lead from `v` to `w`, each one from where the one before has ended. -/
def Links (v : World) : Tape → World → Prop
  | [], w => w = v
  | step :: steps, w => step.before = v ∧ Links step.after steps w

theorem Links.append {u v w : World} {steps more : Tape} (huv : Links u steps v)
    (hvw : Links v more w) : Links u (steps ++ more) w := by
  induction steps generalizing u with
  | nil =>
    cases huv
    exact hvw
  | cons step steps ih => exact ⟨huv.1, ih huv.2⟩

/-- What each step is like, in runs that begin in a state that is `ready`. -/
structure Fairness where
  ready : World → Prop
  fair : Step → Prop
  later : ∀ {step : Step}, fair step → ready step.before → ready step.after

namespace Fairness

variable {F : Fairness} {r s t : World × Tape} {kind : StepKind} {v w : World} {tape : Tape}

/-- The tape goes on with fair steps. -/
def Extends (F : Fairness) (r s : World × Tape) : Prop :=
  ∃ steps, s.2 = r.2 ++ steps ∧ Links r.1 steps s.1 ∧ ∀ step ∈ steps, F.fair step

theorem Extends.refl (r : World × Tape) : F.Extends r r :=
  ⟨[], (List.append_nil _).symm, rfl, by simp⟩

theorem Extends.trans (hrs : F.Extends r s) (hst : F.Extends s t) : F.Extends r t := by
  obtain ⟨steps, hs, hsteps, hfair⟩ := hrs
  obtain ⟨more, ht, hmore, hfair'⟩ := hst
  refine ⟨steps ++ more, ?_, hsteps.append hmore, fun step hmem => ?_⟩
  · rw [ht, hs, List.append_assoc]
  · exact (List.mem_append.1 hmem).elim (hfair step) (hfair' step)

theorem Extends.one (h : F.fair ⟨kind, v, w⟩) : F.Extends (v, tape) (w, tape ++ [⟨kind, v, w⟩]) :=
  ⟨_, rfl, ⟨rfl, rfl⟩, by simpa using h⟩

theorem ready_links {steps : Tape} (h : Links v steps w) (hfair : ∀ step ∈ steps, F.fair step)
    (hv : F.ready v) : F.ready w := by
  induction steps generalizing v with
  | nil =>
    cases h
    exact hv
  | cons step steps ih =>
    obtain ⟨rfl, h⟩ := h
    obtain ⟨hstep, hsteps⟩ := List.forall_mem_cons.1 hfair
    exact ih h hsteps (F.later hstep hv)

theorem Extends.ready (h : F.Extends r s) (hr : F.ready r.1) : F.ready s.1 := by
  obtain ⟨steps, -, hsteps, hfair⟩ := h
  exact ready_links hsteps hfair hr

end Fairness

namespace Course

variable {α β : Type} {F : Fairness} {r s : World × Tape}

/-- The first course goes the way of the second one, and tapes it with fair steps. -/
def Tapes (F : Fairness) (r : World × Tape) : Course (World × Tape) α → Course World α → Prop
  | .done s a, d => d = .done s.1 a ∧ F.Extends r s
  | .pause s resume, d => ∃ resume', d = .pause s.1 resume' ∧ F.Extends r s ∧
      ∀ t, F.ready t.1 → Tapes F t (resume t) (resume' t.1)
  | .exhausted, d => d = .exhausted

namespace Tapes

theorem after {c : Course (World × Tape) α} {d : Course World α} (hrs : F.Extends r s)
    (h : c.Tapes F s d) : c.Tapes F r d := by
  cases c with
  | done t a => exact ⟨h.1, hrs.trans h.2⟩
  | pause t resume =>
    obtain ⟨resume', rfl, ht, hrest⟩ := h
    exact ⟨resume', rfl, hrs.trans ht, hrest⟩
  | exhausted => exact h

theorem bind {c : Course (World × Tape) α} {d : Course World α}
    {f : World × Tape → α → Course (World × Tape) β} {g : World → α → Course World β}
    (hr : F.ready r.1) (h : c.Tapes F r d)
    (hnext : ∀ s a, F.ready s.1 → (f s a).Tapes F s (g s.1 a)) :
    (c.bind f).Tapes F r (d.bind g) := by
  induction c generalizing r d with
  | done s a =>
    obtain ⟨rfl, hs⟩ := h
    exact after hs (hnext s a (hs.ready hr))
  | pause s resume ih =>
    obtain ⟨resume', rfl, hs, hrest⟩ := h
    exact ⟨_, rfl, hs, fun t ht => ih t ht (hrest t ht)⟩
  | exhausted =>
    cases h
    exact rfl

theorem map {c : Course (World × Tape) α} {d : Course World α} (h : c.Tapes F r d) (f : α → β) :
    (c.map f).Tapes F r (d.map f) := by
  induction c generalizing r d with
  | done s a =>
    obtain ⟨rfl, hs⟩ := h
    exact ⟨rfl, hs⟩
  | pause s resume ih =>
    obtain ⟨resume', rfl, hs, hrest⟩ := h
    exact ⟨_, rfl, hs, fun t ht => ih t (hrest t ht)⟩
  | exhausted =>
    cases h
    exact rfl

/-- By induction on the left course; the tape passes from side to side. -/
theorem both {c : Course (World × Tape) α} {d : Course World α}
    {right : World × Tape → Course (World × Tape) β} {right' : World → Course World β}
    (hr : F.ready r.1) (h : c.Tapes F r d)
    (hright : ∀ s, F.ready s.1 → (right s).Tapes F s (right' s.1)) :
    (c.both right).Tapes F r (d.both right') := by
  induction c generalizing r d right right' with
  | done s a =>
    obtain ⟨rfl, hs⟩ := h
    exact after hs ((hright s (hs.ready hr)).map _)
  | pause s resume ih =>
    obtain ⟨resume', rfl, hs, hrest⟩ := h
    have hfirst := hright s (hs.ready hr)
    simp only [Course.both]
    cases hright : right s with
    | done t b =>
      rw [hright] at hfirst
      obtain ⟨hdone, ht⟩ := hfirst
      rw [hdone]
      exact ⟨_, rfl, hs.trans ht, fun u hu => (hrest u hu).map _⟩
    | pause t resumeRight =>
      rw [hright] at hfirst
      obtain ⟨resumeRight', hpause, ht, hlater⟩ := hfirst
      rw [hpause]
      exact ⟨_, rfl, hs.trans ht, fun u hu => ih u hu (hrest u hu) hlater⟩
    | exhausted =>
      rw [hright] at hfirst
      rw [show right' s.1 = .exhausted from hfirst]
      exact rfl
  | exhausted =>
    cases h
    exact rfl

theorem finish {c : Course (World × Tape) α} {d : Course World α} (hr : F.ready r.1)
    (h : c.Tapes F r d) : c.finish.map (fun ended => (ended.1.1, ended.2)) = d.finish ∧
      ∀ s a, c.finish = some (s, a) → F.Extends r s := by
  induction c generalizing r d with
  | done t a =>
    obtain ⟨rfl, ht⟩ := h
    refine ⟨rfl, fun s b hs => ?_⟩
    cases hs
    exact ht
  | pause t resume ih =>
    obtain ⟨resume', rfl, ht, hrest⟩ := h
    have hready := ht.ready hr
    obtain ⟨hsame, hextends⟩ := ih t hready (hrest t hready)
    exact ⟨hsame, fun s a hs => ht.trans (hextends s a hs)⟩
  | exhausted =>
    cases h
    exact ⟨rfl, fun _ _ hs => by cases hs⟩

theorem taped {U : Upkeep} {kind : StepKind} (hU : ∀ v w, U.keeps v w → F.fair ⟨kind, v, w⟩)
    {c : Course World α} {w : World} (h : c.Minds U w) (tape : Tape) :
    (c.taped kind w tape).Tapes F (w, tape) c := by
  induction c generalizing w tape with
  | done s a => exact ⟨rfl, .one (hU w s h)⟩
  | pause s resume ih => exact ⟨_, rfl, .one (hU w s h.1), fun t _ => ih t.1 (h.2 t.1) t.2⟩
  | exhausted => exact rfl

end Tapes

end Course

namespace Taped

variable {α β : Type} {F : Fairness} {x : Taped α} {y : Job α} {f : α → Taped β} {g : α → Job β}
  {kind : StepKind}

/-- Wherever it begins that is ready, the first job goes the way of the second one and tapes it. -/
structure Follows (F : Fairness) (x : Taped α) (y : Job α) : Prop where
  course : ∀ r, F.ready r.1 → (x r).Tapes F r (y r.1)

namespace Follows

theorem pure (a : α) : Follows F (Pure.pure a : Taped α) (Pure.pure a : Job α) :=
  ⟨fun r _ => ⟨rfl, .refl r⟩⟩

theorem ofExcept (result : Except Fault α) :
    Follows F (Taped.ofExcept result) (Job.ofExcept result) := by
  cases result <;> exact ⟨fun r _ => ⟨rfl, .refl r⟩⟩

theorem bind (h : Follows F x y) (hnext : ∀ a, Follows F (f a) (g a)) :
    Follows F (x >>= f) (y >>= g) := by
  refine ⟨fun r hr => Course.Tapes.bind hr (h.course r hr) fun s result hs => ?_⟩
  cases result with
  | ok a => exact (hnext a).course s hs
  | error fault => exact ⟨rfl, .refl s⟩

theorem attempt (h : Follows F x y) : Follows F x.attempt (Job.attempt y) :=
  ⟨fun r hr => (h.course r hr).map _⟩

theorem both {x' : Taped β} {y' : Job β} (h : Follows F x y) (h' : Follows F x' y') :
    Follows F (x.both x') (Job.both y y') :=
  ⟨fun r hr => (Course.Tapes.both hr (h.course r hr) h'.course).map _⟩

theorem step {u : World → Except Fault α × World}
    (h : ∀ w, F.ready w → F.fair ⟨kind, w, (u w).2⟩) :
    Follows F (of kind (Job.step u)) (Job.step u) :=
  ⟨fun r hr => ⟨rfl, .one (h r.1 hr)⟩⟩

theorem modify {u : World → World} (h : ∀ w, F.ready w → F.fair ⟨kind, w, u w⟩) :
    Follows F (of kind (Job.modify u)) (Job.modify u) :=
  ⟨fun r hr => ⟨rfl, .one (h r.1 hr)⟩⟩

theorem update_bind {u : World → α × World} (h : ∀ w, F.ready w → F.fair ⟨kind, w, (u w).2⟩)
    (hnext : ∀ w, F.ready w → Follows F (f (u w).1) (g (u w).1)) :
    Follows F (of kind (Job.update u) >>= f) (Job.update u >>= g) := by
  refine ⟨fun r hr => ?_⟩
  have hone : F.Extends r ((u r.1).2, r.2 ++ [⟨kind, r.1, (u r.1).2⟩]) := .one (h r.1 hr)
  exact .after hone ((hnext r.1 hr).course _ (hone.ready hr))

theorem step_bind {u : World → Except Fault α × World}
    (h : ∀ w, F.ready w → F.fair ⟨kind, w, (u w).2⟩)
    (hnext : ∀ w a, F.ready w → (u w).1 = .ok a → Follows F (f a) (g a)) :
    Follows F (of kind (Job.step u) >>= f) (Job.step u >>= g) := by
  refine ⟨fun r hr => ?_⟩
  have hone : F.Extends r ((u r.1).2, r.2 ++ [⟨kind, r.1, (u r.1).2⟩]) := .one (h r.1 hr)
  refine .after hone ?_
  change Course.Tapes F _ (Taped.bind (fun _ => .done _ (u r.1).1) f r)
    (Job.bind (fun _ => .done (u r.1).2 (u r.1).1) g r.1)
  cases hresult : (u r.1).1 with
  | ok a => exact (hnext r.1 a hr hresult).course _ (hone.ready hr)
  | error fault => exact ⟨rfl, .refl _⟩

end Follows

end Taped

/-- What steps are like in runs on consoles that it `serves`. -/
structure Recorder extends Fairness where
  serves : Console → Prop
  turn : ∀ {console : Console} {v w : World}, serves console → console.sounding.keeps v w →
    fair ⟨.turn console, v, w⟩
  flush : ∀ {console : Console} (w : World), serves console →
    fair ⟨.flush console, w, (console.flush w).2⟩
  close : ∀ {console : Console} (w : World), serves console →
    fair ⟨.flush console, w, closeConsole w console⟩
  silent : ∀ {v w : World}, v.Silent w → fair ⟨.shell, v, w⟩
  pipe : ∀ {console : Console} {w : World}, ready w → serves console →
    fair ⟨.shell, w, (Console.addPipe w console).2⟩ ∧ serves (Console.addPipe w console).1
  /-- A pipe is fed to the console that it was made in front of. -/
  feed : ∀ {console : Console} {v : World} (w : World), ready v → serves console →
    fair ⟨.shell, w, (feed (Console.addPipe v console).1 console w).2⟩ ∧
      serves (feed (Console.addPipe v console).1 console w).1
  opened : ∀ {ctx : Context} {console : Console} {path : String} {mode : RedirectMode} {w : World},
    ready w → serves console →
    fair ⟨.shell, w, (ctx.openConsole w console path mode).2⟩ ∧
      ∀ redirected, (ctx.openConsole w console path mode).1 = .ok redirected → serves redirected

namespace Recorder

open Taped (Follows)

variable {R : Recorder} {call : TapedCaller} {plain : Caller} {limit : Nat} {console : Console}

def Runs (R : Recorder) (call : TapedCaller) (plain : Caller) : Prop :=
  ∀ ctx console tree, R.serves console →
    Follows R.toFairness (call ctx console tree) (plain ctx console tree)

theorem follows_command (hcall : R.Runs call plain) (hconsole : R.serves console) (ctx : Context)
    (name : String) (args : List String) :
    Follows R.toFairness (tapeCommand call plain limit ctx console name args)
      (runCommand plain limit ctx console name args) := by
  refine ⟨fun r hr => ?_⟩
  cases hcallee : ctx.callee? console name args r.1 with
  | none =>
    have htape : tapeCommand call plain limit ctx console name args r =
        (runCommand plain limit ctx console name args r.1).taped (.turn console) r.1 r.2 := by
      change (match ctx.callee? console name args r.1 with
        | none => _
        | some callee => _ : Taped Int) r = _
      rw [hcallee]
      rfl
    rw [htape]
    exact .taped (fun _ _ => R.turn hconsole) (runCommand_acts hcallee) r.2
  | some callee =>
    have htape : tapeCommand call plain limit ctx console name args r =
        (call callee.owner console callee.tree
          (callee.start, r.2 ++ [⟨.shell, r.1, callee.start⟩])).bind fun s result =>
            of .shell (Job.step (callee.leave result)) s := by
      change (match ctx.callee? console name args r.1 with
        | none => _
        | some callee => _ : Taped Int) r = _
      rw [hcallee]
      exact Course.bind_map (call callee.owner console callee.tree _) _ _
    have hstart := R.silent (Callee.silent_start hcallee)
    rw [htape, runCommand_callee hcallee]
    refine .after (.one hstart) (.bind (R.later hstart hr) ?_ fun s result hs => ?_)
    · exact (hcall _ _ _ hconsole).course _ (R.later hstart hr)
    · exact ⟨rfl, .one (R.silent (Callee.silent_leave hcallee result s.1))⟩

theorem follows_simple (hcall : R.Runs call plain) (hconsole : R.serves console) (ctx : Context)
    (assignments : List (String × Word)) (words : List Word) :
    Follows R.toFairness (tapeSimple call plain limit ctx console assignments words)
      (runSimple plain limit ctx console assignments words) := by
  have hstatus (code : Int) :
      Follows R.toFairness (do of .shell (Job.modify (setStatus ctx code)); return code)
        (do Job.modify (setStatus ctx code); return code) :=
    (Follows.modify fun _ _ => R.silent (.set ..)).bind fun _ => .pure code
  refine .update_bind (fun _ _ => R.silent (.assign ..)) fun w _ => ?_
  cases expandAll w ctx words with
  | nil => exact hstatus 0
  | cons name args => exact (follows_command hcall hconsole ctx name args).bind hstatus

theorem follows_tape (hcall : R.Runs call plain) (tree : Instruction) (ctx : Context)
    (hconsole : R.serves console) :
    Follows R.toFairness (tree.tape call plain limit ctx console)
      (tree.run plain limit ctx console) := by
  induction tree generalizing ctx console with
  | empty => exact .pure 0
  | command assignments words => exact follows_simple hcall hconsole ctx assignments words
  | pipe left right ihleft ihright =>
    refine .update_bind (fun w hw => (R.pipe hw hconsole).1) fun w hw => ?_
    have hpipe := (R.pipe hw hconsole).2
    refine (ihleft ctx hpipe).bind fun _ => ?_
    refine .update_bind (fun s _ => (R.feed s hw hconsole).1) fun s _ => ?_
    exact ihright ctx (R.feed s hw hconsole).2
  | sequential first next ihfirst ihnext =>
    exact (ihfirst ctx hconsole).bind fun _ => ihnext ctx hconsole
  | parallel first next ihfirst ihnext =>
    exact ((ihfirst ctx hconsole).both (ihnext ctx hconsole)).bind fun results => .ofExcept _
  | conditional logic left right ihleft ihright =>
    refine (ihleft ctx hconsole).bind fun code => ?_
    split
    · exact ihright ctx hconsole
    · exact .pure code
  | redirect mode target inner ih =>
    refine .step_bind (fun w hw => (R.opened hw hconsole).1) fun w redirected hw hopen => ?_
    have hredirected := (R.opened hw hconsole).2 redirected hopen
    refine (ih ctx hredirected).attempt.bind fun result => ?_
    refine (Follows.step fun s _ => R.flush s hredirected).attempt.bind fun flushed => ?_
    exact (Follows.modify fun s _ => R.close s hredirected).bind fun _ => .ofExcept _
  | function name body _ =>
    exact (Follows.modify fun _ _ => R.silent (.updateScope ..)).bind fun _ => .pure 0
  | «scoped» inner ih =>
    exact .update_bind (fun _ _ => R.silent ⟨rfl, rfl, rfl, rfl, rfl⟩) fun w _ =>
      ih (.nested w.addScope.1 ctx) hconsole

/-- By induction on how deep calls nest. -/
theorem runs_executeTaped (R : Recorder) (depth : Nat) :
    R.Runs (executeTaped depth) (execute depth) := by
  induction depth with
  | zero => exact fun _ _ _ _ => ⟨fun _ _ => rfl⟩
  | succ depth ih => exact fun ctx console tree hconsole => follows_tape ih tree ctx hconsole

def any : Recorder where
  ready _ := True
  fair _ := True
  later _ _ := trivial
  serves _ := True
  turn _ _ := trivial
  flush _ _ := trivial
  close _ _ := trivial
  silent _ := trivial
  pipe _ _ := ⟨trivial, trivial⟩
  feed _ _ _ := ⟨trivial, trivial⟩
  opened _ _ := ⟨trivial, fun _ _ => trivial⟩

end Recorder

theorem finish_executeTaped (depth : Nat) (ctx : Context) (console : Console) (tree : Instruction)
    (r : World × Tape) :
    ((executeTaped depth ctx console tree r).finish.map fun ended => (ended.1.1, ended.2)) =
      (execute depth ctx console tree r.1).finish :=
  (((Recorder.any.runs_executeTaped depth ctx console tree trivial).course r trivial).finish
    trivial).1

end ToyUnix
