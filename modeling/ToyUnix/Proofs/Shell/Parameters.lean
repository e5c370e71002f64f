import ToyUnix.Proofs.Shell.Names
import ToyUnix.Proofs.Shell.Regime

/-!
Positional parameters. The frame of a call stays in the scope of its function until the call ends,
whatever other branches do meanwhile; a name is looked up in the newest frame there. So parameters
are the call's own unless a call that another branch began is still open in the same scope: see
`own_parameters`.
-/

set_option autoImplicit false

namespace ToyUnix

open World (Framed Agree Clean Issued Aside Still)

/-- No variable has a positional name. -/
def Scope.Plain (scope : Scope) : Prop :=
  ∀ name, IsPositional name → scope.bindings.get? name = none

/-- Functions come from scripts. -/
def World.Scripted (w : World) : Prop :=
  ∀ s name body, (w.scope s).function? name = some body → body.Named

/-- No scope that commands in parentheses run in has a variable with a positional name. -/
def Context.Plain (w : World) : Context → Prop
  | .standalone _ _ _ | .process _ _ _ _ => True
  | .shell _ _ _ host => host.Plain w
  | .nested s parent => s < w.scopes.length ∧ (w.scope s).Plain ∧ parent.Plain w

/-- The frame in which a context looks up positional names. -/
def Context.newestFrame? (w : World) : Context → Option Frame
  | .standalone _ _ s | .process _ _ _ s => (w.scope s).frames.head?
  | .shell _ s _ host => ((w.scope s).frames.head?).or (host.newestFrame? w)
  | .nested s parent => ((w.scope s).frames.head?).or (parent.newestFrame? w)

/-! What scripts keep. -/

namespace Scripted

/-- Scopes stay free of variables with positional names, and functions come from scripts. -/
structure Keeps (v w : World) : Prop where
  scopes : v.scopes.length ≤ w.scopes.length
  plain : ∀ s, s < v.scopes.length → (v.scope s).Plain → (w.scope s).Plain
  scripted : v.Scripted → w.Scripted

def upkeep : Upkeep where
  keeps := Keeps
  refl _ := ⟨Nat.le_refl _, fun _ _ h => h, fun h => h⟩
  trans huv hvw := ⟨Nat.le_trans huv.scopes hvw.scopes,
    fun s hs h => hvw.plain s (Nat.lt_of_lt_of_le hs huv.scopes) (huv.plain s hs h),
    fun h => hvw.scripted (huv.scripted h)⟩

variable {v w : World}

theorem plain_later (h : Keeps v w) {ctx : Context} (hctx : ctx.Plain v) : ctx.Plain w := by
  induction ctx with
  | standalone title directory scope => trivial
  | process p c config scope => trivial
  | shell id scope settings host ih => exact ih hctx
  | nested scope parent ih =>
    exact ⟨Nat.lt_of_lt_of_le hctx.1 h.scopes, h.plain scope hctx.1 hctx.2.1, ih hctx.2.2⟩

theorem keeps_of_scopes (h : w.scopes = v.scopes) : Keeps v w := by
  have hscope (s : Nat) : w.scope s = v.scope s := by rw [World.scope, World.scope, h]
  refine ⟨Nat.le_of_eq (congrArg List.length h.symm), fun s _ hs => ?_, fun hv s => ?_⟩
  · rwa [hscope]
  · rw [hscope]
    exact hv s

theorem keeps_updateScope (w : World) (i : Nat) {f : Scope → Scope}
    (hplain : ∀ scope, scope.Plain → (f scope).Plain)
    (hfunctions : ∀ scope name body, (f scope).function? name = some body →
      body.Named ∨ scope.function? name = some body) : Keeps w (w.updateScope i f) := by
  refine ⟨Nat.le_of_eq (World.length_updateScope ..).symm, fun s _ h => ?_, fun hw s => ?_⟩
  all_goals obtain hsame | ⟨-, hnew⟩ := World.scope_updateScope_or w i f s
  · rwa [hsame]
  · rw [hnew]
    exact hplain _ h
  · rw [hsame]
    exact hw s
  · rw [hnew]
    exact fun name body hbody => (hfunctions _ name body hbody).elim id (hw s name body)

theorem keeps_set (w : World) {name : String} (hname : ¬ IsPositional name) (value : String)
    (ctx : Context) : Keeps w (ctx.set w name value) := by
  have hset (s : Nat) : Keeps w (w.updateScope s (·.set name value)) := by
    refine keeps_updateScope w s (fun scope h other hother => ?_) fun _ _ _ h => .inr h
    refine (Assoc.get?_set scope.bindings name other value).trans ?_
    rw [if_neg fun heq : name = other => hname (heq ▸ hother)]
    exact h other hother
  induction ctx with
  | standalone title directory scope => exact hset scope
  | process p c config scope =>
    simp only [Context.set]
    split
    · exact keeps_of_scopes rfl
    · exact hset scope
  | shell id scope settings host ih => exact ih
  | nested scope parent => exact hset scope

theorem keeps_assign (ctx : Context) {assignments : List (String × Word)}
    (h : ∀ a ∈ assignments, isIdentifier a.1 = true) (w : World) :
    Keeps w (assign ctx assignments w) := by
  induction assignments generalizing w with
  | nil => exact upkeep.refl w
  | cons first rest ih =>
    obtain ⟨hfirst, hrest⟩ := List.forall_mem_cons.1 h
    exact upkeep.trans (keeps_set w (not_isPositional hfirst) _ ctx) (ih hrest _)

theorem keeps_addScope (w : World) : Keeps w w.addScope.2 := by
  refine ⟨(Still.addScope w).scopes, fun s _ hs => ?_, fun hw s => ?_⟩
  · rwa [World.scope_addScope]
  · rw [World.scope_addScope]
    exact hw s

theorem keeps_arguments (w : World) (script : String) (args : List String) :
    Keeps w (w.addScope.2.updateScope w.scopes.length (·.setArguments script args)) := by
  have hi : w.scopes.length < w.addScope.2.scopes.length := by simp [World.addScope]
  refine ⟨((Still.addScope w).trans (.setArguments ..)).scopes, fun s hs h => ?_, fun hw s => ?_⟩
  · rwa [World.scope_updateScope hi, if_neg (Nat.ne_of_lt hs), World.scope_addScope]
  · rw [World.scope_updateScope hi]
    split
    · rw [Scope.setArguments_eq, World.scope_addScope, World.scope_of_le (Nat.le_refl _)]
      intro _ _ h
      cases h
    · rw [World.scope_addScope]
      exact hw s

theorem plain_enclosing {ctx owner : Context} (h : Encloses owner ctx) (hctx : ctx.Plain w) :
    owner.Plain w := by
  induction h with
  | here => exact hctx
  | shell _ ih => exact ih hctx
  | nested _ ih => exact ih hctx.2.2

theorem named_part {tree part : Instruction} (h : tree.Named) (hpart : part ∈ tree.parts) :
    part.Named := by
  have hassigned : part.assigned ⊆ tree.assigned :=
    Instruction.subset_of_part (by cases tree <;> simp [Instruction.parts, Instruction.assigned])
      hpart
  exact fun name hname => h name (hassigned hname)

/-- Trees from scripts, in contexts whose inner scopes are plain. -/
def regime : Regime where
  toUpkeep := upkeep
  admits w ctx tree := tree.Named ∧ w.Scripted ∧ ctx.Plain w
  framing :=
    { pushed := fun w i _ _ _ => keeps_updateScope w i (fun _ h => h) fun _ _ _ h => .inr h
      popped := fun w i _ _ => keeps_updateScope w i (fun _ h => h) fun _ _ _ h => .inr h }
  aside h := keeps_of_scopes h.scopes
  grow := keeps_addScope
  arguments := keeps_arguments
  later h hfit := ⟨hfit.1, h.scripted hfit.2.1, plain_later h hfit.2.2⟩
  parts h hpart := ⟨named_part h.1 hpart, h.2⟩
  enclosed {w ctx inner} h := by
    have hkeeps := keeps_addScope w
    refine ⟨h.1, hkeeps.scripted h.2.1, ?_, ?_, plain_later hkeeps h.2.2⟩
    · simp [World.addScope]
    · rw [World.scope_addScope, World.scope_of_le (Nat.le_refl _)]
      exact fun _ _ => rfl
  resolved {w ctx tree name owner body} h hfound :=
    have ⟨hencloses, hbody⟩ := Context.resolve?_function hfound
    ⟨h.2.1 _ name body hbody, h.2.1, plain_enclosing hencloses h.2.2⟩
  script h hkeeps _ _ _ hparse :=
    ⟨named_of_parseScript hparse, hkeeps.scripted h.2.1, trivial⟩
  assigned {w ctx assignments words made} h hmade := by
    refine keeps_assign ctx (fun a ha => h.1 _ ?_) w
    exact List.mem_map_of_mem (hmade.subset ha)
  status {w ctx assignments words} code _ := keeps_set w not_isPositional_status _ ctx
  declared {w ctx name body} h := by
    refine keeps_updateScope w _ (fun _ h => h) fun scope other found hfound => ?_
    rw [show (scope.declare name body).function? other = _ from
      Assoc.get?_set scope.functions name other body] at hfound
    split at hfound
    · cases hfound
      exact .inl h.1
    · exact .inr hfound

end Scripted

/-- Positional names have the values that the call of the frame binds them to: its function, how many
arguments there are, all of them, and each of them. -/
structure Context.Reads (ctx : Context) (w : World) (frame : Frame) : Prop where
  name : ctx.get? w "0" = some frame.name
  count : ctx.get? w "#" = some (toString frame.args.length)
  all : ctx.get? w "@" = some (" ".intercalate frame.args)
  parameter : ∀ text i, positionalIndex? text = some (i + 1) →
    ctx.get? w text = some (frame.args[i]?.getD "")

/-- The frame of a call is still there, and parameters are those of the newest frame. -/
structure Call.Open (call : Call) (ctx : Context) (w : World) : Prop where
  kept : ∀ own ∈ call.frame, own ∈ (w.scope call.owner.ownScope).frames
  reads : call.frame.isSome → ∃ newest, ctx.newestFrame? w = some newest ∧ ctx.Reads w newest

theorem Context.reads_of_binding? {ctx : Context} {w : World} {frame : Frame}
    (h : ∀ name, IsPositional name → ctx.get? w name = frame.binding? name) : ctx.Reads w frame where
  name := h "0" (.inl rfl)
  count := h "#" (.inr (.inl rfl))
  all := h "@" (.inr (.inr (.inl rfl)))
  parameter text i hi := by
    have hother {other : String} (hother : positionalIndex? other ≠ some (i + 1)) : text ≠ other :=
      fun heq => hother (heq ▸ hi)
    have hzero : text ≠ "0" := hother (by rw [show positionalIndex? "0" = some 0 from rfl]; simp)
    have hcount : text ≠ "#" := hother (by rw [show positionalIndex? "#" = none from rfl]; simp)
    have hall : text ≠ "@" := hother (by rw [show positionalIndex? "@" = none from rfl]; simp)
    rw [h text (.inr (.inr (.inr ⟨i, hi⟩))), Frame.binding?, if_neg hzero, if_neg hcount,
      if_neg hall, hi]

theorem Context.newestFrame?_of_head? {ctx : Context} {w : World} {frame : Frame}
    (h : (w.scope ctx.ownScope).frames.head? = some frame) : ctx.newestFrame? w = some frame := by
  cases ctx with
  | standalone title directory scope => exact h
  | process p c config scope => exact h
  | shell id scope settings host => exact congrArg (Option.or · _) h
  | nested scope parent => exact congrArg (Option.or · _) h

theorem Context.get?_of_head? {ctx : Context} {w : World} {frame : Frame}
    (h : (w.scope ctx.ownScope).frames.head? = some frame) {name : String}
    (hname : IsPositional name) : ctx.get? w name = frame.binding? name := by
  have hbound {scope : Scope} (hhead : scope.frames.head? = some frame) :
      scope.get? name = frame.binding? name := by
    obtain ⟨value, hvalue⟩ := Option.isSome_iff_exists.1 (frame.binding?_isSome hname)
    rw [Scope.get?, hhead, Option.bind_some, hvalue]
    rfl
  have hor {other : Option String} {scope : Scope} (hhead : scope.frames.head? = some frame) :
      (scope.get? name).or other = frame.binding? name := by
    rw [hbound hhead]
    exact Option.or_of_isSome (frame.binding?_isSome hname)
  cases ctx with
  | standalone title directory scope => exact hbound h
  | process p c config scope =>
    have hdollar : name ≠ "$" := fun heq => not_isPositional_dollar (heq ▸ hname)
    rw [Context.get?, if_neg hdollar]
    exact hor h
  | shell id scope settings host => exact hor h
  | nested scope parent => exact hor h

theorem Inside.get? {owner ctx : Context} {n : Nat} {w : World} (h : Inside owner n ctx)
    (hctx : ctx.Plain w) (hopen : (w.scope owner.ownScope).frames ≠ []) :
    ∃ newest, ctx.newestFrame? w = some newest ∧
      ∀ name, IsPositional name → ctx.get? w name = newest.binding? name := by
  induction h with
  | here =>
    obtain ⟨frame, hframe⟩ := Option.isSome_iff_exists.1 (List.isSome_head?.2 hopen)
    exact ⟨frame, Context.newestFrame?_of_head? hframe, fun name => Context.get?_of_head? hframe⟩
  | @nested scope parent _ hparent ih =>
    cases hhead : (w.scope scope).frames.head? with
    | some frame =>
      exact ⟨frame, Context.newestFrame?_of_head? hhead, fun name => Context.get?_of_head? hhead⟩
    | none =>
      obtain ⟨newest, hnewest, hget⟩ := ih hctx.2.2
      refine ⟨newest, ?_, fun name hname => ?_⟩
      · rw [Context.newestFrame?, hhead, Option.none_or, hnewest]
      · rw [Context.get?, Scope.get?, hhead, hctx.2.1 name hname]
        exact hget name hname

theorem allows_open {watch : Watch} (h : ∀ call ctx w, call.Open ctx w → watch call ctx w = true) :
    Scripted.regime.Allows .free (fun _ _ => False) watch := by
  intro S owner ctx mine w tree hS hready hctx hfit
  refine h _ _ _ ?_
  have hkept : ∀ own ∈ (S.start.scope owner.ownScope).frames.head?,
      own ∈ (w.scope owner.ownScope).frames := fun own hown =>
    (hready.agree _ own (hS.own own hown)).2 (List.mem_of_mem_head? hown)
  refine ⟨hkept, fun hsome => ?_⟩
  obtain ⟨own, hown⟩ := Option.isSome_iff_exists.1 hsome
  obtain ⟨newest, hnewest, hget⟩ :=
    hctx.get? hfit.2.2 (List.ne_nil_of_mem (hkept own hown))
  exact ⟨newest, hnewest, Context.reads_of_binding? hget⟩

/-- Where branches take turns only while no call of theirs is open, the newest frame is that of the
call whose body is run. -/
theorem allows_own {watch : Watch}
    (h : ∀ call ctx w, (∀ own ∈ call.frame, ctx.Reads w own) → watch call ctx w = true) :
    Scripted.regime.Allows .calm (fun _ _ => True) watch := by
  intro S owner ctx mine w tree hS hready hctx hfit
  refine h _ _ _ fun own hown => ?_
  have hframes (i : Nat) : (w.scope i).frames = (S.start.scope i).frames :=
    S.framed.frames_eq hready.framed fun frame => hready.agree i frame (hS.least _ _ trivial)
  have hhead : (w.scope owner.ownScope).frames.head? = some own := (congrArg _ (hframes _)).trans hown
  have hnewest : ctx.newestFrame? w = some own := by
    clear hfit
    induction hctx with
    | here => exact Context.newestFrame?_of_head? hhead
    | @nested scope parent hscope _ ih =>
      rw [Context.newestFrame?, hframes, World.scope_of_le hscope]
      exact ih
  obtain ⟨newest, hfound, hget⟩ := hctx.get? hfit.2.2
    (List.ne_nil_of_mem (List.mem_of_mem_head? hhead))
  obtain rfl : newest = own := Option.some.inj (hfound.symm.trans hnewest)
  exact Context.reads_of_binding? hget

/-- At every command of every run of a script, the frame of the call that the command is part of is
still in the scope of its function, and parameters are those of the newest frame on the way there.
If branches take turns only while no call that one of them began is open, they are the call's own. -/
theorem own_parameters {options : ParseOptions} {text : String} {localScope : Bool}
    {tree : Instruction} (hparse : parseScript options text localScope = .ok tree) {w : World}
    (hframed : w.Framed) (hscripted : w.Scripted) {ctx : Context} (hctx : ctx.Plain w)
    (console : Console) (deepest : Option Fault) (depth : Nat) {s : World}
    {result : Except Fault Int} (watch : Watch) :
    ((∀ call ctx v, call.Open ctx v → watch call ctx v = true) →
      (executeWatched unwatched .free deepest depth ctx console tree w).finish = some (s, result) →
      (executeWatched watch .free deepest depth ctx console tree w).finish = some (s, result)) ∧
    ((∀ call ctx v, (∀ own ∈ call.frame, ctx.Reads v own) → watch call ctx v = true) →
      (executeWatched unwatched .calm deepest depth ctx console tree w).finish = some (s, result) →
      (executeWatched watch .free deepest depth ctx console tree w).finish = some (s, result)) := by
  have hfit : Scripted.regime.admits w ctx tree := ⟨named_of_parseScript hparse, hscripted, hctx⟩
  constructor
  · intro hwatch hrun
    exact (Regime.finish_executeWatched (allows_open hwatch) (.inr fun _ _ h => h.elim) hframed
      hfit hrun).1
  · intro hwatch hrun
    exact (Regime.finish_executeWatched (allows_own hwatch) (.inl Level.calm_strict) hframed
      hfit hrun).1

def firstParameter : Watch := fun call ctx w =>
  call.frame.all fun own => ctx.get? w "1" = some (own.args[0]?.getD "")

theorem firstParameter_of_reads {call : Call} {ctx : Context} {w : World}
    (h : ∀ own ∈ call.frame, ctx.Reads w own) : firstParameter call ctx w = true := by
  unfold firstParameter
  cases hframe : call.frame with
  | none => rfl
  | some own => simpa using (h own hframe).parameter "1" 0 rfl

namespace Sample

def lone : World :=
  { scopes := [{}, {}], shells := [⟨"", [], .idle⟩], directories := ["/"], buffers := [{}] }

def loneShell : Context := .shell 0 1 ⟨{}, {}, false, .buffer 0⟩ (.standalone "lone" 0 0)

def root : User := ⟨0, "root", .root, 0, "/root"⟩

def box : World :=
  { lone with
    processes :=
      { all := [⟨1, "init", root, none, 0, "/", [], true, 0, []⟩]
        tables := [⟨0, [(1, 0)], [], 2, 0, true⟩] }
    computers := [⟨0, "box", none, "", [root], .memory 0, 0, 0, 0, some 0, some .utilities⟩]
    networks := [{ hosts := [⟨"h", "1.1.1.1", []⟩] }] }

def boxShell : Context := .shell 0 1 ⟨{}, {}, false, .buffer 0⟩ (.process 0 0 {} 0)

theorem scope_lone (s : Nat) : lone.scope s = {} := by
  obtain _ | _ | s := s <;> rfl

theorem lone_framed : lone.Framed := by
  constructor
  · intro s
    rw [scope_lone]
    exact .nil
  · intro s frame hmem
    rw [scope_lone] at hmem
    cases hmem

theorem lone_scripted : lone.Scripted := by
  intro s name body hbody
  rw [scope_lone] at hbody
  cases hbody

/-- `f() { echo $1; }` and then `f a`. -/
def echoing : Instruction :=
  .sequential (.function "f" (.command [] [.ofText "echo", ⟨[.variable "1"], false⟩]))
    (.command [] [.ofText "f", .ofText "a"])

/-- `g() { ping h; }`, `f() { g x & echo $1; }` and then `f a`. -/
def crossing : Instruction :=
  .sequential (.function "g" (.command [] [.ofText "ping", .ofText "h"]))
    (.sequential
      (.function "f" (.parallel (.command [] [.ofText "g", .ofText "x"])
        (.command [] [.ofText "echo", ⟨[.variable "1"], false⟩])))
      (.command [] [.ofText "f", .ofText "a"]))

theorem echo_own_parameters :
    parseScript {} "f() \x7b echo $1; \x7d\nf a" false = .ok echoing ∧
    lone.Framed ∧ lone.Scripted ∧ loneShell.Plain lone ∧
    (∀ call ctx v, (∀ own ∈ call.frame, ctx.Reads v own) → firstParameter call ctx v = true) ∧
    ∃ s, (Console.buffer 0).output s = "a\n" ∧
      (executeWatched unwatched .calm none 9 loneShell (.buffer 0) echoing lone).finish =
        some (s, .ok 0) ∧
      (executeWatched firstParameter .free none 9 loneShell (.buffer 0) echoing lone).finish =
        some (s, .ok 0) := by
  have hparse : parseScript {} "f() \x7b echo $1; \x7d\nf a" false = .ok echoing := by
    decide +kernel
  have hplain : loneShell.Plain lone := trivial
  have hwatch : ∀ call ctx v, (∀ own ∈ call.frame, ctx.Reads v own) →
      firstParameter call ctx v = true := fun _ _ _ => firstParameter_of_reads
  have hrun : ((executeWatched unwatched .calm none 9 loneShell (.buffer 0) echoing lone).finish.map
      fun r => ((Console.buffer 0).output r.1, r.2)) = some ("a\n", .ok 0) := by
    decide +kernel
  obtain ⟨⟨s, result⟩, hfinish, hout⟩ := Option.map_eq_some_iff.1 hrun
  obtain ⟨hout, rfl⟩ := Prod.mk.inj hout
  exact ⟨hparse, lone_framed, lone_scripted, hplain, hwatch, s, hout, hfinish,
    (own_parameters hparse lone_framed lone_scripted hplain (.buffer 0) none 9 firstParameter).2
      hwatch hfinish⟩

/-- While `g` waits for a reply, the first parameter of `f` is that of `g`. -/
theorem crossing_parameters :
    parseScript {} "g() \x7b ping h; \x7d\nf() \x7b g x & echo $1; \x7d\nf a" false = .ok crossing ∧
    (∀ call ctx v, (∀ own ∈ call.frame, ctx.Reads v own) → firstParameter call ctx v = true) ∧
    ((execute 9 boxShell (.buffer 0) crossing box).finish.map fun r =>
      ((Console.buffer 0).output r.1, r.2)) =
        some ("PING h (1.1.1.1)\nreply from 1.1.1.1: icmp_seq=1\nx\n" ++
          "reply from 1.1.1.1: icmp_seq=2\nreply from 1.1.1.1: icmp_seq=3\n" ++
          "3 packets transmitted, 3 received\n", .ok 0) ∧
    (executeWatched firstParameter .free none 9 boxShell (.buffer 0) crossing box).finish.isNone :=
  ⟨by decide +kernel, fun _ _ _ => firstParameter_of_reads, by cbv, by decide +kernel⟩

end Sample

end ToyUnix
