import ToyUnix.Proofs.Shell.Isolation
import ToyUnix.Proofs.Shell.Status

/-!
Reading variables back. A context finds what it has assigned, unless its host has the name twice: an
assignment goes to the environment of the process if the name is there, and a variable of the host
hides the one in the environment. So it is with a name that is assigned first and comes into the
environment later. Main statement: `Context.read_back_iff`.
-/

set_option autoImplicit false

namespace ToyUnix

namespace World

theorem scope_get?_unbound {w : World} {s : Nat} {name : String}
    (h : ∀ frame ∈ (w.scope s).frames, frame.binding? name = none) :
    (w.scope s).get? name = (w.scope s).bindings.get? name := by
  have hnone : (w.scope s).frames.head?.bind (·.binding? name) = none := by
    cases hframes : (w.scope s).frames with
    | nil => rfl
    | cons frame frames => exact h frame (hframes ▸ List.mem_cons_self)
  rw [Scope.get?, hnone, Option.none_or]

theorem scope_get?_set {w : World} {s : Nat} {name : String} (hs : s < w.scopes.length)
    (h : ∀ frame ∈ (w.scope s).frames, frame.binding? name = none) (value : String) :
    ((w.updateScope s (·.set name value)).scope s).get? name = some value := by
  have hset : (w.updateScope s (·.set name value)).scope s = (w.scope s).set name value := by
    rw [scope_updateScope hs, if_pos rfl]
  rw [scope_get?_unbound (by rw [hset]; exact h), hset, Scope.set, Assoc.get?_set, if_pos rfl]

end World

/-- A change of the variables that a context knows. -/
inductive Write
  /-- An assignment in the context that is so many steps further out. -/
  | set (level : Nat) (name value : String)
  | setEnv (name value : String)
  | unsetEnv (name : String)
  deriving DecidableEq, Repr

def Write.Assigns (name : String) : Write → Prop
  | .set _ other _ => other = name
  | _ => False

namespace Context

/-- The context that is so many steps further out, or the host. -/
def outward : Nat → Context → Context
  | level + 1, .shell _ _ _ host => host.outward level
  | level + 1, .nested _ parent => parent.outward level
  | _, ctx => ctx

def updateEnv (ctx : Context) (w : World) (f : Nat → Processes → Processes) : World :=
  match ctx.process? with
  | some p => w.updateProcesses (f p)
  | none => w

def write (ctx : Context) (w : World) : Write → World
  | .set level name value => (ctx.outward level).set w name value
  | .setEnv name value => ctx.updateEnv w fun p s => s.setEnv p name value
  | .unsetEnv name => ctx.updateEnv w fun p s => s.unsetEnv p name

def replay (ctx : Context) (w : World) (history : List Write) : World := history.foldl ctx.write w

/-- The context that keeps the assignments, which shells hand on. -/
def keeper : Context → Context
  | .shell _ _ _ host => host.keeper
  | ctx => ctx

/-- A chain as it is set up: the scopes and the process are there, and shells have scopes of their
own, without variables. -/
structure Laid (w : World) (ctx : Context) : Prop where
  within : ctx.Within w
  apart : ∀ s ∈ ctx.shells, s ∉ ctx.holders
  empty : ∀ s ∈ ctx.shells, (w.scope s).bindings = []

/-- No call that goes on in the chain binds the name. -/
def Unbound (w : World) (name : String) (ctx : Context) : Prop :=
  ∀ owner, Encloses owner ctx →
    ∀ frame ∈ (w.scope owner.ownScope).frames, frame.binding? name = none

variable {ctx : Context} {w : World} {name : String}

theorem keeper_set (ctx : Context) (w : World) (name value : String) :
    ctx.set w name value = ctx.keeper.set w name value := by
  induction ctx with
  | shell id s settings host ih => exact ih
  | _ => rfl

theorem keeper_encloses (ctx : Context) : Encloses ctx.keeper ctx := by
  induction ctx with
  | shell id s settings host ih => exact ih.shell
  | _ => exact .here

theorem Within.keeper (h : ctx.Within w) : ctx.keeper.ownScope < w.scopes.length := by
  induction ctx with
  | standalone title directory s => exact h
  | process p c config s => exact h.2
  | shell id s settings host ih => exact ih h.2
  | nested s parent => exact h.1

theorem keeper_outward {p c s : Nat} {config : ShellConfig}
    (h : ctx.keeper = .process p c config s) (level : Nat) :
    (ctx.outward level).keeper = .process p c config s := by
  induction ctx generalizing level with
  | standalone title directory s => cases h
  | process p c config s => cases level <;> exact h
  | shell id s settings host ih =>
    cases level with
    | zero => exact h
    | succ level => exact ih h level
  | nested s parent => cases h

theorem holders_outward (ctx : Context) (level : Nat) :
    (ctx.outward level).holders ⊆ ctx.holders := by
  induction ctx generalizing level with
  | shell id s settings host ih =>
    cases level with
    | zero => exact List.Subset.refl _
    | succ level => exact ih level
  | nested s parent ih =>
    cases level with
    | zero => exact List.Subset.refl _
    | succ level => exact fun i hi => List.mem_cons_of_mem _ (ih level hi)
  | _ => cases level <;> exact List.Subset.refl _

/-! What a change leaves as it is. -/

theorem scope_updateEnv (ctx : Context) (w : World) (f : Nat → Processes → Processes) :
    (ctx.updateEnv w f).scopes = w.scopes := by
  unfold updateEnv
  split <;> rfl

theorem bindings_set {s : Nat} (hs : s ∉ ctx.holders) (name value : String) :
    ((ctx.set w name value).scope s).bindings = (w.scope s).bindings := by
  have hother {i : Nat} (hi : s ≠ i) :
      ((w.updateScope i (·.set name value)).scope s).bindings = (w.scope s).bindings := by
    obtain hsame | ⟨heq, -⟩ := World.scope_updateScope_or w i (·.set name value) s
    · rw [hsame]
    · exact absurd heq hi
  induction ctx with
  | standalone title directory i => exact hother (List.ne_of_not_mem_cons hs)
  | process p c config i =>
    simp only [set]
    split
    · rfl
    · exact hother (List.ne_of_not_mem_cons hs)
  | shell id i settings host ih => exact ih hs
  | nested i parent => exact hother (List.ne_of_not_mem_cons hs)

theorem bindings_write {s : Nat} (hs : s ∉ ctx.holders) (w : World) (x : Write) :
    ((ctx.write w x).scope s).bindings = (w.scope s).bindings := by
  cases x with
  | set level name value =>
    exact bindings_set (fun h => hs (holders_outward ctx level h)) name value
  | _ => simp only [write, World.scope, scope_updateEnv]

theorem bindings_replay {s : Nat} (hs : s ∉ ctx.holders) (w : World) (history : List Write) :
    ((ctx.replay w history).scope s).bindings = (w.scope s).bindings := by
  induction history generalizing w with
  | nil => rfl
  | cons x rest ih => exact (ih (ctx.write w x)).trans (bindings_write hs w x)

theorem still_write (ctx : Context) (w : World) (x : Write) : w.Still (ctx.write w x) := by
  have henv (f : Nat → Processes → Processes) : w.Still (ctx.updateEnv w f) := by
    refine ⟨Nat.le_of_eq ?_, fun s => ?_, fun s => ?_⟩
    · rw [scope_updateEnv]
    · rw [World.scope, World.scope, scope_updateEnv]
    · rw [World.scope, World.scope, scope_updateEnv]
  cases x with
  | set level name value => exact .set w name value _
  | setEnv name value => exact henv _
  | unsetEnv name => exact henv _

theorem still_replay (ctx : Context) (w : World) (history : List Write) :
    w.Still (ctx.replay w history) := by
  induction history generalizing w with
  | nil => exact .refl w
  | cons x rest ih => exact (still_write ctx w x).trans (ih _)

/-! Where the host keeps the assignments. -/

/-- Whenever the name is assigned, it is in the environment already. -/
def Exported (ctx : Context) (p : Nat) (name : String) : World → List Write → Prop
  | _, [] => True
  | w, x :: rest =>
    (x.Assigns name → (w.processes.envValue? p name).isSome = true) ∧
      Exported ctx p name (ctx.write w x) rest

section Host

variable {p c s : Nat} {config : ShellConfig}

theorem binding_write_iff (hkeeper : ctx.keeper = .process p c config s)
    (hs : s < w.scopes.length) (x : Write) :
    ((ctx.write w x).scope s).bindings.get? name = none ↔
      (w.scope s).bindings.get? name = none ∧
        (x.Assigns name → (w.processes.envValue? p name).isSome = true) := by
  cases x with
  | set level other value =>
    rw [write, keeper_set, keeper_outward hkeeper, set]
    split
    · rename_i hexported
      exact (and_iff_left fun heq => heq ▸ hexported).symm
    · rename_i hown
      rw [World.scope_updateScope hs, if_pos rfl, Scope.set, Assoc.get?_set]
      by_cases hother : other = name
      · subst hother
        simp [Write.Assigns, hown]
      · simp [Write.Assigns, hother]
  | _ => simp only [write, World.scope, scope_updateEnv, Write.Assigns, false_implies, and_true]

/-- A variable that was none of the host's from the start is still none if it was in the environment
whenever it was assigned, and only then. -/
theorem binding_replay_iff (hkeeper : ctx.keeper = .process p c config s)
    (hs : s < w.scopes.length) (history : List Write) :
    ((ctx.replay w history).scope s).bindings.get? name = none ↔
      (w.scope s).bindings.get? name = none ∧ ctx.Exported p name w history := by
  induction history generalizing w with
  | nil => exact (and_iff_left trivial).symm
  | cons x rest ih =>
    have hlater : s < (ctx.write w x).scopes.length :=
      Nat.lt_of_lt_of_le hs (still_write ctx w x).scopes
    exact (ih hlater).trans (by rw [binding_write_iff hkeeper hs, and_assoc, Exported])

end Host

/-! Reading. -/

theorem Unbound.still {v : World} (h : ctx.Unbound v name) (hvw : v.Still w) :
    ctx.Unbound w name :=
  fun owner howner => hvw.frames owner.ownScope ▸ h owner howner

theorem get?_keeper (hbound : ctx.Unbound w name)
    (hempty : ∀ s ∈ ctx.shells, (w.scope s).bindings = []) :
    ctx.get? w name = ctx.keeper.get? w name := by
  induction ctx with
  | shell id s settings host ih =>
    obtain ⟨hown, hrest⟩ := List.forall_mem_cons.1 hempty
    have hscope : (w.scope s).get? name = (w.scope s).bindings.get? name :=
      World.scope_get?_unbound (hbound _ .here)
    rw [get?, hscope, hown]
    exact ih (fun owner howner => hbound owner howner.shell) hrest
  | _ => rfl

theorem keeper_ne_shell (ctx : Context) (id s : Nat) (settings : ShellSettings) (host : Context) :
    ctx.keeper ≠ .shell id s settings host := by
  induction ctx with
  | shell id s settings host ih => exact ih
  | _ => exact Context.noConfusion

/-- A host gives back what is assigned in it if it has the name in one place at most. -/
theorem read_back_host {p c s : Nat} {config : ShellConfig} (hs : s < w.scopes.length)
    (hbound : ∀ frame ∈ (w.scope s).frames, frame.binding? name = none) (hname : name ≠ "$") :
    (∀ value, (process p c config s).get? ((process p c config s).set w name value) name =
        some value) ↔
      w.processes.envValue? p name = none ∨ (w.scope s).bindings.get? name = none := by
  cases henv : w.processes.envValue? p name with
  | none =>
    refine iff_of_true (fun value => ?_) (.inl rfl)
    simp only [set, get?, henv, hname, if_false, Option.isSome_none, Bool.false_eq_true]
    rw [World.scope_get?_set hs hbound, Option.some_or]
  | some old =>
    obtain ⟨process, hprocess, -⟩ := Option.bind_eq_some_iff.1 henv
    have hset (value : String) :
        (w.processes.setEnv p name value).envValue? p name = some value := by
      rw [Processes.envValue?, Processes.setEnv, Processes.getElem?_update, if_pos rfl, hprocess]
      exact (Assoc.get?_set process.env name name value).trans (if_pos rfl)
    have hread (value : String) :
        (Context.process p c config s).get?
            ((Context.process p c config s).set w name value) name =
          ((w.scope s).bindings.get? name).or (some value) := by
      simp only [set, get?, henv, hname, if_false, Option.isSome_some, if_true]
      rw [← World.scope_get?_unbound hbound]
      exact congrArg _ (hset value)
    simp only [hread, reduceCtorEq, false_or]
    cases hown : (w.scope s).bindings.get? name with
    | none => simp
    | some other =>
      -- The old value is read whatever is assigned, so any other one is lost.
      refine iff_of_false (fun hall => ?_) (by simp)
      have hlength := congrArg String.length (Option.some.inj (hall (other ++ "x")))
      simp at hlength

/-- After any changes a context reads back what is assigned in it, unless its host keeps the
assignments and has the name twice: in the environment of the process, and also as a variable that
is the host's from the start or has been assigned when the environment did not have it. -/
theorem read_back_iff (hctx : ctx.Laid w) (hbound : ctx.Unbound w name) (hname : name ≠ "$")
    (history : List Write) :
    (∀ value, ctx.get? (ctx.set (ctx.replay w history) name value) name = some value) ↔
      ∀ p c config s, ctx.keeper = .process p c config s →
        (ctx.replay w history).processes.envValue? p name = none ∨
          (w.scope s).bindings.get? name = none ∧ ctx.Exported p name w history := by
  have hstill := still_replay ctx w history
  have hkept := hctx.within.keeper
  have hin := Nat.lt_of_lt_of_le hkept hstill.scopes
  -- Shells hand on what is assigned and are read through, so it is all up to the keeper.
  have hread (value : String) :
      ctx.get? (ctx.set (ctx.replay w history) name value) name =
        ctx.keeper.get? (ctx.keeper.set (ctx.replay w history) name value) name := by
    rw [get?_keeper (hbound.still (hstill.trans (.set ..))) fun s hs => ?_, keeper_set]
    rw [bindings_set (hctx.apart s hs), bindings_replay (hctx.apart s hs), hctx.empty s hs]
  have hframes := hbound.still hstill ctx.keeper ctx.keeper_encloses
  simp only [hread]
  cases hkeeper : ctx.keeper with
  | shell id s settings host => exact (ctx.keeper_ne_shell id s settings host hkeeper).elim
  | standalone title directory s =>
    simp only [hkeeper, ownScope] at hin hframes
    refine iff_of_true (fun value => World.scope_get?_set hin hframes value) fun _ _ _ _ heq => ?_
    cases heq
  | nested s parent =>
    simp only [hkeeper, ownScope] at hin hframes
    refine iff_of_true (fun value => ?_) fun _ _ _ _ heq => ?_
    · rw [set, get?, World.scope_get?_set hin hframes, Option.some_or]
    · cases heq
  | process p c config s =>
    simp only [hkeeper, ownScope] at hkept hin hframes
    rw [read_back_host hin hframes hname, binding_replay_iff hkeeper hkept]
    constructor
    · rintro h _ _ _ _ ⟨rfl, rfl, rfl, rfl⟩
      exact h
    · exact fun h => h p c config s rfl

end Context

namespace Sample

theorem boxShell_laid : boxShell.Laid box :=
  ⟨⟨by decide, by decide, by decide⟩, by decide, by decide⟩

theorem boxShell_unbound (name : String) : boxShell.Unbound box name := by
  intro owner _ frame hframe
  rw [show box.scope owner.ownScope = {} from scope_lone _] at hframe
  cases hframe

/-- The name is in the environment before it is assigned for the first time. -/
theorem exported_read_back :
    boxShell.get? (boxShell.set (boxShell.replay box [.setEnv "X" "1", .set 0 "X" "2"]) "X" "3")
      "X" = some "3" := by
  refine (Context.read_back_iff boxShell_laid (boxShell_unbound "X") (by decide) _).2 ?_ "3"
  rintro _ _ _ _ ⟨rfl, rfl, rfl, rfl⟩
  exact .inr ⟨by decide, nofun, fun _ => by decide, trivial⟩

/-- The name is assigned first and comes into the environment later; the next assignment goes there,
and what is read is what has been assigned first. -/
theorem hidden_write :
    boxShell.get? (boxShell.set (boxShell.replay box [.set 0 "X" "1", .setEnv "X" "2"]) "X" "3")
      "X" = some "1" ∧
    ¬ ∀ (w : World) (ctx : Context) (name value : String) (history : List Write),
      ctx.Laid w → ctx.Unbound w name → name ≠ "$" →
        ctx.get? (ctx.set (ctx.replay w history) name value) name = some value := by
  have hread : boxShell.get? (boxShell.set
      (boxShell.replay box [.set 0 "X" "1", .setEnv "X" "2"]) "X" "3") "X" = some "1" := by
    decide
  refine ⟨hread, fun hclaim => ?_⟩
  have hthree := hclaim box boxShell "X" "3" [.set 0 "X" "1", .setEnv "X" "2"] boxShell_laid
    (boxShell_unbound "X") (by decide)
  rw [hread] at hthree
  exact absurd hthree (by decide)

end Sample

end ToyUnix
