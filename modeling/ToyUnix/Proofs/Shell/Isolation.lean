import ToyUnix.Proofs.Shell.Regime

/-!
Commands in parentheses. They run in a scope of their own, which takes what they assign and declare.
A function that they call runs in the context that declares it, though, and assigns and declares
there. So a variable or a function outside changes only if a function outside changes it: see
`scoped_isolated`.
-/

set_option autoImplicit false

namespace ToyUnix

open World (Framed Agree Clean Issued Aside Still)

theorem Assoc.mem_values_of_get? {α β : Type} [DecidableEq α] {d : Assoc α β} {key : α} {value : β}
    (h : d.get? key = some value) : value ∈ d.map (·.2) := by
  induction d with
  | nil => cases h
  | cons entry rest ih =>
    simp only [Assoc.get?] at h
    split at h
    · cases h
      exact List.mem_cons_self
    · exact List.mem_cons_of_mem _ (ih h)

namespace Instruction

/-- The variables that a tree, or a function that it declares, assigns to in its own context. -/
def writes : Instruction → List String
  | .empty | .scoped _ => []
  | .command assignments _ => assignments.map (·.1)
  | .pipe left right | .sequential left right | .parallel left right | .conditional _ left right =>
    left.writes ++ right.writes
  | .redirect _ _ inner | .function _ inner => inner.writes

/-- The functions that a tree, or a function that it declares, declares in its own context. -/
def declares : Instruction → List String
  | .empty | .scoped _ | .command _ _ => []
  | .pipe left right | .sequential left right | .parallel left right | .conditional _ left right =>
    left.declares ++ right.declares
  | .redirect _ _ inner => inner.declares
  | .function name body => name :: body.declares

end Instruction

namespace Context

def bodies (w : World) : Context → List Instruction
  | .standalone _ _ s | .process _ _ _ s => (w.scope s).functions.map (·.2)
  | .shell _ s _ host => (w.scope s).functions.map (·.2) ++ host.bodies w
  | .nested s parent => (w.scope s).functions.map (·.2) ++ parent.bodies w

def writes (w : World) (ctx : Context) : List String := (ctx.bodies w).flatMap Instruction.writes

def declares (w : World) (ctx : Context) : List String := (ctx.bodies w).flatMap Instruction.declares

def Within (w : World) : Context → Prop
  | .standalone _ _ s => s < w.scopes.length
  | .process p _ _ s => p < w.processes.all.length ∧ s < w.scopes.length
  | .shell _ s _ host => s < w.scopes.length ∧ host.Within w
  | .nested s parent => s < w.scopes.length ∧ parent.Within w

end Context

/-- What is outside of parentheses: the scopes and processes that there are already, and what the
functions of the context change. -/
structure Outside where
  scopes : Nat
  processes : Nat
  writes : List String
  declares : List String

namespace Processes

theorem pidOf_setEnv (s : Processes) (p : Nat) (name value : String) (q : Nat) :
    (s.setEnv p name value).pidOf q = s.pidOf q := by
  unfold pidOf setEnv
  rw [getElem?_update]
  split
  · cases s.all[q]? <;> rfl
  · rfl

theorem envValue?_setEnv (s : Processes) {p q : Nat} {name other : String} (value : String)
    (h : q ≠ p ∨ name ≠ other) :
    (s.setEnv p name value).envValue? q other = s.envValue? q other := by
  unfold envValue? setEnv
  rw [getElem?_update]
  split
  · rename_i hq
    cases s.all[q]? with
    | none => rfl
    | some process =>
      refine (Assoc.get?_set process.env name other value).trans (if_neg ?_)
      exact h.resolve_left (· hq)
  · rfl

end Processes

namespace Outside

variable (E : Outside)

/-- A tree that changes no more than the functions outside do. -/
def Tame (tree : Instruction) : Prop := tree.writes ⊆ E.writes ∧ tree.declares ⊆ E.declares

/-- A context all of whose changes are within the parentheses. -/
def Inner : Context → Prop
  | .standalone _ _ s => E.scopes ≤ s
  | .process p _ _ s => E.processes ≤ p ∧ E.scopes ≤ s
  | .shell _ s _ host => E.scopes ≤ s ∧ Inner host
  | .nested s _ => E.scopes ≤ s

/-- A context either changes only what is within the parentheses, or has functions that change no
more than those outside do. -/
def Rules (w : World) (ctx : Context) : Prop :=
  E.Inner ctx ∨ ctx.ownScope < E.scopes ∧
    ∀ name body, (w.scope ctx.ownScope).function? name = some body → E.Tame body

def Chain (w : World) : Context → Prop
  | .standalone t d s => E.Rules w (.standalone t d s)
  | .process p c config s => E.Rules w (.process p c config s)
  | .shell id s settings host => E.Rules w (.shell id s settings host) ∧ Chain w host
  | .nested s parent => E.Rules w (.nested s parent) ∧ Chain w parent

/-- Nothing outside has changed but what functions outside change, and the status. -/
structure Same (v w : World) : Prop where
  bindings : ∀ s name, s < E.scopes → name ∉ E.writes → name ≠ "?" →
    (w.scope s).bindings.get? name = (v.scope s).bindings.get? name
  functions : ∀ s name, s < E.scopes → name ∉ E.declares →
    (w.scope s).function? name = (v.scope s).function? name
  tame : ∀ s name body, s < E.scopes → (w.scope s).function? name = some body →
    E.Tame body ∨ (v.scope s).function? name = some body
  pids : ∀ p, p < E.processes → w.processes.pidOf p = v.processes.pidOf p
  envs : ∀ p name, p < E.processes → name ∉ E.writes → name ≠ "?" →
    w.processes.envValue? p name = v.processes.envValue? p name

def Exists (w : World) : Prop := E.scopes ≤ w.scopes.length ∧ E.processes ≤ w.processes.all.length

structure Keeps (v w : World) : Prop where
  scopes : v.scopes.length ≤ w.scopes.length
  processes : v.processes.all.length ≤ w.processes.all.length
  same : E.Exists v → E.Same v w

variable {E} {u v w : World}

theorem Same.refl (w : World) : E.Same w w where
  bindings _ _ _ _ _ := rfl
  functions _ _ _ _ := rfl
  tame _ _ _ _ h := .inr h
  pids _ _ := rfl
  envs _ _ _ _ _ := rfl

theorem Same.trans (huv : E.Same u v) (hvw : E.Same v w) : E.Same u w where
  bindings s name hs hname hstatus :=
    (hvw.bindings s name hs hname hstatus).trans (huv.bindings s name hs hname hstatus)
  functions s name hs hname := (hvw.functions s name hs hname).trans (huv.functions s name hs hname)
  tame s name body hs hbody := (hvw.tame s name body hs hbody).elim .inl (huv.tame s name body hs)
  pids p hp := (hvw.pids p hp).trans (huv.pids p hp)
  envs p name hp hname hstatus :=
    (hvw.envs p name hp hname hstatus).trans (huv.envs p name hp hname hstatus)

theorem Exists.later (h : E.Exists v) (hkeeps : E.Keeps v w) : E.Exists w :=
  ⟨Nat.le_trans h.1 hkeeps.scopes, Nat.le_trans h.2 hkeeps.processes⟩

variable (E) in
def upkeep : Upkeep where
  keeps := E.Keeps
  refl w := ⟨Nat.le_refl _, Nat.le_refl _, fun _ => .refl w⟩
  trans huv hvw := ⟨Nat.le_trans huv.scopes hvw.scopes, Nat.le_trans huv.processes hvw.processes,
    fun h => (huv.same h).trans (hvw.same (h.later huv))⟩

theorem Same.of_scopes (h : ∀ s, s < E.scopes → w.scope s = v.scope s)
    (hpids : ∀ p, p < E.processes → w.processes.pidOf p = v.processes.pidOf p)
    (henvs : ∀ p name, p < E.processes → name ∉ E.writes → name ≠ "?" →
      w.processes.envValue? p name = v.processes.envValue? p name) : E.Same v w where
  bindings s name hs _ _ := by rw [h s hs]
  functions s name hs _ := by rw [h s hs]
  tame s name body hs hbody := .inr (by rwa [h s hs] at hbody)
  pids := hpids
  envs := henvs

theorem keeps_aside (h : v.Aside w) : E.Keeps v w := by
  have hscope (s : Nat) : w.scope s = v.scope s := by rw [World.scope, World.scope, h.scopes]
  have hlast {p : Nat} (hp : p < v.processes.all.length) :=
    h.processes p _ (List.getElem?_eq_getElem hp)
  refine ⟨Nat.le_of_eq (congrArg List.length h.scopes.symm), ?_, fun hexists => ?_⟩
  · by_contra hless
    obtain ⟨later, hlater, -⟩ := hlast (Nat.not_le.1 hless)
    have := (List.getElem?_eq_some_iff.1 hlater).1
    omega
  · refine .of_scopes (fun s _ => hscope s) (fun p hp => ?_) fun p name hp _ _ => ?_
    · obtain ⟨later, hlater, hpid, -⟩ := hlast (Nat.lt_of_lt_of_le hp hexists.2)
      simp [Processes.pidOf, hlater, hpid, Nat.lt_of_lt_of_le hp hexists.2]
    · obtain ⟨later, hlater, -, henv⟩ := hlast (Nat.lt_of_lt_of_le hp hexists.2)
      simp [Processes.envValue?, hlater, henv, Nat.lt_of_lt_of_le hp hexists.2]

theorem keeps_updateScope (w : World) (i : Nat) {f : Scope → Scope}
    (hbindings : i < E.scopes → ∀ scope name, name ∉ E.writes → name ≠ "?" →
      (f scope).bindings.get? name = scope.bindings.get? name)
    (hfunctions : i < E.scopes → ∀ scope name, name ∉ E.declares →
      (f scope).function? name = scope.function? name)
    (htame : i < E.scopes → ∀ scope name body, (f scope).function? name = some body →
      E.Tame body ∨ scope.function? name = some body) : E.Keeps w (w.updateScope i f) := by
  refine ⟨Nat.le_of_eq (World.length_updateScope ..).symm, Nat.le_refl _, fun _ => ?_⟩
  have hor := World.scope_updateScope_or w i f
  constructor
  · intro s name hs hname hstatus
    obtain hsame | ⟨rfl, hnew⟩ := hor s
    · rw [hsame]
    · rw [hnew, hbindings hs _ name hname hstatus]
  · intro s name hs hname
    obtain hsame | ⟨rfl, hnew⟩ := hor s
    · rw [hsame]
    · rw [hnew, hfunctions hs _ name hname]
  · intro s name body hs hbody
    obtain hsame | ⟨rfl, hnew⟩ := hor s
    · exact .inr (hsame ▸ hbody)
    · exact htame hs _ name body (hnew ▸ hbody)
  · exact fun _ _ => rfl
  · exact fun _ _ _ _ _ => rfl

theorem keeps_setEnv (w : World) {p : Nat} {name : String} (value : String)
    (h : E.processes ≤ p ∨ name ∈ E.writes ∨ name = "?") :
    E.Keeps w (w.updateProcesses (·.setEnv p name value)) := by
  refine ⟨Nat.le_refl _, Nat.le_of_eq (Processes.length_update ..).symm, fun _ => ?_⟩
  refine .of_scopes (fun _ _ => rfl) (fun q _ => Processes.pidOf_setEnv ..) ?_
  intro q other hq hother hstatus
  refine Processes.envValue?_setEnv _ _ ?_
  obtain hp | hname | hname := h
  · exact .inl (by omega)
  · exact .inr fun heq => hother (heq ▸ hname)
  · exact .inr fun heq => hstatus (heq ▸ hname)

theorem keeps_setScope (w : World) {i : Nat} {name : String} (value : String)
    (h : E.scopes ≤ i ∨ name ∈ E.writes ∨ name = "?") :
    E.Keeps w (w.updateScope i (·.set name value)) := by
  refine keeps_updateScope w i (fun hi scope other hother hstatus => ?_) (fun _ _ _ _ => rfl)
    fun _ _ _ _ hbody => .inr hbody
  refine (Assoc.get?_set scope.bindings name other value).trans (if_neg ?_)
  rintro rfl
  obtain hout | hname | hname := h
  · omega
  · exact hother hname
  · exact hstatus hname

theorem Inner.le_ownScope {ctx : Context} (h : E.Inner ctx) : E.scopes ≤ ctx.ownScope := by
  cases ctx with
  | standalone title directory scope => exact h
  | process p c config scope => exact h.2
  | shell id scope settings host => exact h.1
  | nested scope parent => exact h

theorem keeps_set (w : World) {name : String} (value : String) {ctx : Context}
    (h : E.Inner ctx ∨ name ∈ E.writes ∨ name = "?") : E.Keeps w (ctx.set w name value) := by
  induction ctx with
  | standalone title directory scope => exact keeps_setScope w value h
  | process p c config scope =>
    simp only [Context.set]
    split
    · exact keeps_setEnv w value (h.imp_left And.left)
    · exact keeps_setScope w value (h.imp_left And.right)
  | shell id scope settings host ih => exact ih (h.imp_left And.right)
  | nested scope parent => exact keeps_setScope w value h

theorem keeps_assign {ctx : Context} {assignments : List (String × Word)}
    (h : E.Inner ctx ∨ assignments.map (·.1) ⊆ E.writes) (w : World) :
    E.Keeps w (assign ctx assignments w) := by
  induction assignments generalizing w with
  | nil => exact (upkeep E).refl w
  | cons first rest ih =>
    have hfirst : E.Inner ctx ∨ first.1 ∈ E.writes ∨ first.1 = "?" :=
      h.imp_right fun hsub => .inl (hsub List.mem_cons_self)
    have hrest : E.Inner ctx ∨ rest.map (·.1) ⊆ E.writes :=
      h.imp_right fun hsub => List.Subset.trans (List.subset_cons_self ..) hsub
    exact (upkeep E).trans (keeps_set w _ hfirst) (ih hrest _)

theorem keeps_declare (w : World) {name : String} {body : Instruction} {ctx : Context}
    (h : E.Inner ctx ∨ E.Tame (.function name body)) : E.Keeps w (ctx.declare w name body) := by
  have hget (scope : Scope) (other : String) :
      (scope.declare name body).function? other =
        if name = other then some body else scope.function? other :=
    Assoc.get?_set scope.functions name other body
  have htame (hi : ctx.ownScope < E.scopes) : E.Tame (.function name body) :=
    h.resolve_left fun hinner => Nat.not_lt.2 hinner.le_ownScope hi
  refine keeps_updateScope w _ (fun _ _ _ _ _ => rfl) (fun hi scope other hother => ?_)
    fun hi scope other found hfound => ?_
  · rw [hget, if_neg]
    rintro rfl
    exact hother ((htame hi).2 List.mem_cons_self)
  · rw [hget] at hfound
    split at hfound
    · cases hfound
      exact .inl ⟨(htame hi).1, List.Subset.trans (List.subset_cons_self ..) (htame hi).2⟩
    · exact .inr hfound

theorem Rules.later {ctx : Context} (h : E.Rules v ctx) (hsame : E.Same v w) : E.Rules w ctx := by
  refine h.imp_right fun ⟨hi, htame⟩ => ⟨hi, fun name body hbody => ?_⟩
  exact (hsame.tame _ name body hi hbody).elim id (htame name body)

theorem Chain.later {ctx : Context} (h : E.Chain v ctx) (hsame : E.Same v w) : E.Chain w ctx := by
  induction ctx with
  | standalone title directory scope => exact Rules.later h hsame
  | process p c config scope => exact Rules.later h hsame
  | shell id scope settings host ih => exact ⟨h.1.later hsame, ih h.2⟩
  | nested scope parent ih => exact ⟨h.1.later hsame, ih h.2⟩

theorem Chain.rules {ctx : Context} (h : E.Chain w ctx) : E.Rules w ctx := by
  cases ctx with
  | standalone title directory scope => exact h
  | process p c config scope => exact h
  | shell id scope settings host => exact h.1
  | nested scope parent => exact h.1

theorem Chain.enclosing {ctx owner : Context} (h : Encloses owner ctx) (hctx : E.Chain w ctx) :
    E.Chain w owner := by
  induction h with
  | here => exact hctx
  | shell _ ih => exact ih hctx.2
  | nested _ ih => exact ih hctx.2

theorem Tame.part {tree part : Instruction} (h : E.Tame tree) (hpart : part ∈ tree.parts) :
    E.Tame part := by
  have hwrites : part.writes ⊆ tree.writes :=
    Instruction.subset_of_part (by cases tree <;> simp [Instruction.parts, Instruction.writes]) hpart
  have hdeclares : part.declares ⊆ tree.declares :=
    Instruction.subset_of_part (by cases tree <;> simp [Instruction.parts, Instruction.declares])
      hpart
  exact ⟨List.Subset.trans hwrites h.1, List.Subset.trans hdeclares h.2⟩

theorem keeps_addScope (w : World) : E.Keeps w w.addScope.2 :=
  ⟨(Still.addScope w).scopes, Nat.le_refl _, fun _ =>
    .of_scopes (fun s _ => World.scope_addScope w s) (fun _ _ => rfl) fun _ _ _ _ _ => rfl⟩

theorem keeps_arguments (w : World) (script : String) (args : List String) :
    E.Keeps w (w.addScope.2.updateScope w.scopes.length (·.setArguments script args)) := by
  refine ⟨((Still.addScope w).trans (.setArguments ..)).scopes, Nat.le_refl _, fun h => ?_⟩
  refine .of_scopes (fun s hs => ?_) (fun _ _ => rfl) fun _ _ _ _ _ => rfl
  have hlt := Nat.lt_of_lt_of_le hs h.1
  obtain hsame | ⟨heq, -⟩ := World.scope_updateScope_or w.addScope.2 w.scopes.length
    (·.setArguments script args) s
  · rw [hsame, World.scope_addScope]
  · omega

variable (E) in
/-- Anything may be run within the parentheses, and outside what changes no more than functions there
do. -/
def regime : Regime where
  toUpkeep := upkeep E
  admits w ctx tree := E.Exists w ∧ E.Chain w ctx ∧ (E.Inner ctx ∨ E.Tame tree)
  framing :=
    { pushed := fun w i _ _ _ => keeps_updateScope w i (fun _ _ _ _ _ => rfl) (fun _ _ _ _ => rfl)
        fun _ _ _ _ h => .inr h
      popped := fun w i _ _ => keeps_updateScope w i (fun _ _ _ _ _ => rfl) (fun _ _ _ _ => rfl)
        fun _ _ _ _ h => .inr h }
  aside := keeps_aside
  grow := keeps_addScope
  arguments := keeps_arguments
  later h hfit :=
    ⟨hfit.1.later h, hfit.2.1.later (h.same hfit.1), hfit.2.2⟩
  parts h hpart := ⟨h.1, h.2.1, h.2.2.imp_right (·.part hpart)⟩
  enclosed {w ctx inner} h :=
    have hkeeps := keeps_addScope w
    have hinner : E.Inner (.nested w.scopes.length ctx) := h.1.1
    ⟨h.1.later hkeeps, ⟨.inl hinner, h.2.1.later (hkeeps.same h.1)⟩, .inl hinner⟩
  resolved {w ctx tree name owner body} h hfound :=
    have ⟨hencloses, hbody⟩ := Context.resolve?_function hfound
    have hchain := h.2.1.enclosing hencloses
    ⟨h.1, hchain, hchain.rules.imp_right fun hrules => hrules.2 name body hbody⟩
  script {v w ctx tree options text inner id scope settings p c config host} h hkeeps hscope hhost hp
      _ := by
    have hprocess : E.Inner (.process p c config host) :=
      ⟨Nat.le_trans h.1.2 hp, Nat.le_trans h.1.1 hhost⟩
    have hshell : E.Inner (.shell id scope settings (.process p c config host)) :=
      ⟨Nat.le_trans h.1.1 hscope, hprocess⟩
    exact ⟨h.1.later hkeeps, ⟨.inl hshell, .inl hprocess⟩, .inl hshell⟩
  assigned {w ctx assignments words made} h hmade := by
    refine keeps_assign (h.2.2.imp_right fun htame => ?_) w
    exact List.Subset.trans (List.map_subset _ hmade.subset) htame.1
  status {w ctx assignments words} code _ := keeps_set w _ (.inr (.inr rfl))
  declared h := keeps_declare _ h.2.2

theorem chain_of_tame {ctx : Context} (hctx : ctx.Within w) (hw : w.scopes.length = E.scopes)
    (htame : ∀ body ∈ ctx.bodies w, E.Tame body) : E.Chain w ctx := by
  have hrules {ctx : Context} (hi : ctx.ownScope < w.scopes.length)
      (h : ∀ body ∈ (w.scope ctx.ownScope).functions.map (·.2), E.Tame body) : E.Rules w ctx :=
    .inr ⟨hw ▸ hi, fun name body hbody => h body (Assoc.mem_values_of_get? hbody)⟩
  induction ctx with
  | standalone title directory scope => exact hrules hctx htame
  | process p c config scope => exact hrules hctx.2 htame
  | shell id scope settings host ih =>
    have htame := List.forall_mem_append.1 htame
    exact ⟨hrules hctx.1 htame.1, ih hctx.2 htame.2⟩
  | nested scope parent ih =>
    have htame := List.forall_mem_append.1 htame
    exact ⟨hrules hctx.1 htame.1, ih hctx.2 htame.2⟩

theorem Same.get? (h : E.Same v w) (hframes : ∀ i, (w.scope i).frames = (v.scope i).frames)
    {name : String} (hname : name ∉ E.writes) (hstatus : name ≠ "?") {ctx : Context}
    (hctx : ctx.Within v) (hscopes : v.scopes.length = E.scopes)
    (hprocesses : v.processes.all.length = E.processes) : ctx.get? w name = ctx.get? v name := by
  have hscope {s : Nat} (hs : s < v.scopes.length) :
      (w.scope s).get? name = (v.scope s).get? name := by
    rw [Scope.get?, Scope.get?, hframes, h.bindings s name (hscopes ▸ hs) hname hstatus]
  induction ctx with
  | standalone title directory scope => exact hscope hctx
  | process p c config scope =>
    have hp : p < E.processes := hprocesses ▸ hctx.1
    rw [Context.get?, Context.get?, hscope hctx.2, h.pids p hp, h.envs p name hp hname hstatus]
  | shell id scope settings host ih => rw [Context.get?, Context.get?, hscope hctx.1, ih hctx.2]
  | nested scope parent ih => rw [Context.get?, Context.get?, hscope hctx.1, ih hctx.2]

theorem Same.resolve? (h : E.Same v w) {name : String} (hname : name ∉ E.declares) {ctx : Context}
    (hctx : ctx.Within v) (hscopes : v.scopes.length = E.scopes) :
    ctx.resolve? w name = ctx.resolve? v name := by
  have hscope {s : Nat} (hs : s < v.scopes.length) :
      (w.scope s).function? name = (v.scope s).function? name :=
    h.functions s name (hscopes ▸ hs) hname
  induction ctx with
  | standalone title directory scope => rw [Context.resolve?, Context.resolve?, hscope hctx]
  | process p c config scope => rw [Context.resolve?, Context.resolve?, hscope hctx.2]
  | shell id scope settings host ih =>
    rw [Context.resolve?, Context.resolve?, hscope hctx.1, ih hctx.2]
  | nested scope parent ih => rw [Context.resolve?, Context.resolve?, hscope hctx.1, ih hctx.2]

end Outside

/-- Commands in parentheses, however they end, leave every variable but the status as it was unless a
function of the context assigns to it, and every function unless a function of the context declares
it. -/
theorem scoped_isolated {w : World} (hw : w.Framed) {ctx : Context} (hctx : ctx.Within w)
    {depth : Nat} {console : Console} {inner : Instruction} {s : World}
    {result : Except Fault Int}
    (hrun : (execute depth ctx console (.scoped inner) w).finish = some (s, result)) :
    (∀ name, name ≠ "?" → name ∉ ctx.writes w → ctx.get? s name = ctx.get? w name) ∧
    ∀ name, name ∉ ctx.declares w → ctx.resolve? s name = ctx.resolve? w name := by
  let E : Outside := ⟨w.scopes.length, w.processes.all.length, ctx.writes w, ctx.declares w⟩
  have hexists : E.Exists w := ⟨Nat.le_refl _, Nat.le_refl _⟩
  have hchain : E.Chain w ctx := Outside.chain_of_tame hctx rfl fun body hbody =>
    ⟨fun _ h => List.mem_flatMap.2 ⟨body, hbody, h⟩, fun _ h => List.mem_flatMap.2 ⟨body, hbody, h⟩⟩
  have hfit : E.regime.admits w ctx (.scoped inner) :=
    ⟨hexists, hchain, .inr ⟨List.nil_subset _, List.nil_subset _⟩⟩
  rw [← executeWatched_true] at hrun
  have hallows : E.regime.Allows .free (fun _ _ => False) unwatched :=
    fun _ _ _ _ _ _ _ _ _ _ => rfl
  obtain ⟨-, honward, hframes⟩ :=
    Regime.finish_executeWatched hallows (.inr fun _ _ h => h.elim) hw hfit hrun
  have hsame := honward.keeps.same hexists
  exact ⟨fun name hstatus hname => hsame.get? hframes hname hstatus hctx rfl rfl,
    fun name hname => hsame.resolve? hname hctx rfl⟩

namespace Sample

def keeping (body : Instruction) : World :=
  { scopes := [{ bindings := [("x", "1")], functions := [("f", body)] }]
    directories := ["/"], buffers := [{}] }

def script : Context := .standalone "script" 0 0

theorem keeping_framed (body : Instruction) : (keeping body).Framed := by
  have hframes (s : Nat) : ((keeping body).scope s).frames = [] := by
    obtain _ | s := s <;> rfl
  constructor
  · intro s
    rw [hframes]
    exact .nil
  · intro s frame hmem
    rw [hframes] at hmem
    cases hmem

/-- `( x=2; f() { x=3; }; f )` where `f` assigned to nothing. -/
theorem assignment_isolated :
    let w := keeping (.command [] [])
    let inner : Instruction := .sequential (.command [("x", .ofText "2")] [])
      (.sequential (.function "f" (.command [("x", .ofText "3")] [])) (.command [] [.ofText "f"]))
    w.Framed ∧ script.Within w ∧ "x" ∉ script.writes w ∧ "f" ∉ script.declares w ∧
    ∃ s, (execute 9 script (.buffer 0) (.scoped inner) w).finish = some (s, .ok 0) ∧
      script.get? s "x" = some "1" ∧
      script.resolve? s "f" = some (.function script (.command [] [])) := by
  intro w inner
  have hrun : (execute 9 script (.buffer 0) (.scoped inner) w).finish.map (·.2) = some (.ok 0) := by
    decide +kernel
  obtain ⟨⟨s, result⟩, hfinish, rfl⟩ := Option.map_eq_some_iff.1 hrun
  have hwithin : script.Within w := Nat.one_pos
  have hx : "x" ∉ script.writes w := by decide
  have hf : "f" ∉ script.declares w := by decide
  obtain ⟨hget, hresolve⟩ := scoped_isolated (keeping_framed _) hwithin hfinish
  exact ⟨keeping_framed _, hwithin, hx, hf, s, hfinish, hget "x" (by decide) hx, hresolve "f" hf⟩

/-- `( f )` where `f` assigns to `x`. -/
theorem assignment_escapes :
    let w := keeping (.command [("x", .ofText "2")] [])
    script.get? w "x" = some "1" ∧
    (execute 9 script (.buffer 0) (.scoped (.command [] [.ofText "f"])) w).finish.map
      (fun r => (script.get? r.1 "x", r.2)) = some (some "2", .ok 0) := by
  decide +kernel

end Sample

end ToyUnix
