import ToyUnix.Proofs.Shell.Frugal
import ToyUnix.Proofs.Shell.Names
import ToyUnix.Proofs.Shell.Regime
import ToyUnix.Shell.Interactive

/-!
Prompt cycles. Whatever a command does and however it ends, its run puts the frames of calls back,
and a cycle leaves its shell idle with nothing pending. A graceful shell reports every fault itself,
so that nothing but an `exit` gets out of a cycle: see `graceful_survives`.
-/

set_option autoImplicit false

namespace ToyUnix

open World (Framed Frugal)

/-- The regime that asks for nothing. Frames are put back under every regime. -/
def Regime.lax : Regime where
  keeps _ _ := True
  refl _ := trivial
  trans _ _ := trivial
  admits _ _ _ := True
  framing := ⟨fun _ _ _ _ _ => trivial, fun _ _ _ _ => trivial⟩
  aside _ := trivial
  grow _ := trivial
  arguments _ _ _ := trivial
  later _ _ := trivial
  parts _ _ := trivial
  enclosed _ := trivial
  resolved _ _ := trivial
  script _ _ _ _ _ _ := trivial
  assigned _ _ := trivial
  status _ _ := trivial
  declared _ := trivial

/-- From an orderly world to its end, with nobody else about, a run leaves all frames as they
were. -/
theorem execute_framed {w : World} (hw : w.Framed) {depth : Nat} {ctx : Context}
    {console : Console} {tree : Instruction} {s : World} {result : Except Fault Int}
    (hrun : (execute depth ctx console tree w).finish = some (s, result)) :
    s.Framed ∧ ∀ i, (s.scope i).frames = (w.scope i).frames := by
  have hallows : Regime.lax.Allows .free (fun _ _ => False) unwatched :=
    fun _ _ _ _ _ _ _ _ _ _ => rfl
  rw [← executeWatched_true] at hrun
  obtain ⟨-, honward, hframes⟩ :=
    Regime.finish_executeWatched hallows (.inr fun _ _ h => h.elim) hw trivial hrun
  exact ⟨honward.framed hw, hframes⟩

namespace World

/-- The frames of calls are as they were, and of the shells that were there only the one in use may
have got something else to do. -/
structure Around (inUse : Option Nat) (v w : World) : Prop where
  framed : v.Framed → w.Framed
  frames : v.Framed → ∀ i, (w.scope i).frames = (v.scope i).frames
  room : v.shells.length ≤ w.shells.length
  duties : ∀ id < v.shells.length, inUse ≠ some id → w.duty? id = v.duty? id

theorem lt_of_duty? {w : World} {id : Nat} {duty : List Instruction × ShellMode}
    (h : w.duty? id = some duty) : id < w.shells.length := by
  obtain ⟨shell, hshell, -⟩ := Option.map_eq_some_iff.1 h
  exact (List.getElem?_eq_some_iff.1 hshell).1

theorem duty?_updateShell (w : World) (id : Nat) (f : ShellState → ShellState) (other : Nat) :
    (w.updateShell id f).duty? other =
      if id = other then (w.shells[id]?.map f).map fun shell => (shell.pending, shell.mode)
      else w.duty? other := by
  simp only [duty?, updateShell, List.getElem?_modify]
  split
  · rename_i h
    simp [h]
  · simp

namespace Around

variable {inUse : Option Nat} {u v w : World} {id : Nat}

theorem refl (w : World) : Around inUse w w :=
  ⟨fun h => h, fun _ _ => rfl, Nat.le_refl _, fun _ _ _ => rfl⟩

theorem trans (huv : Around inUse u v) (hvw : Around inUse v w) : Around inUse u w where
  framed hu := hvw.framed (huv.framed hu)
  frames hu i := (hvw.frames (huv.framed hu) i).trans (huv.frames hu i)
  room := Nat.le_trans huv.room hvw.room
  duties id hid hne :=
    (hvw.duties id (Nat.lt_of_lt_of_le hid huv.room) hne).trans (huv.duties id hid hne)

theorem any (h : Around none v w) : Around inUse v w :=
  { h with duties := fun id hid _ => h.duties id hid nofun }

theorem duty (h : Around none v w) {duty : List Instruction × ShellMode}
    (hv : v.duty? id = some duty) : w.duty? id = some duty :=
  (h.duties id (lt_of_duty? hv) nofun).trans hv

theorem of_still (h : v.Still w) (hroom : v.shells.length ≤ w.shells.length)
    (hduties : ∀ id < v.shells.length, inUse ≠ some id → w.duty? id = v.duty? id) :
    Around inUse v w :=
  ⟨h.framed, fun _ => h.frames, hroom, hduties⟩

theorem quiet (hapart : v.Apart w) (hfrugal : v.Frugal v.shells.length w) : Around none v w :=
  of_still (.of_aside (.of_apart hapart)) hfrugal.room fun id hid _ => hfrugal.shells id hid

theorem updateShell (w : World) (id : Nat) (f : ShellState → ShellState) :
    Around (some id) w (w.updateShell id f) := by
  refine of_still (.of_aside (.of_apart ⟨rfl, rfl⟩)) (Nat.le_of_eq (List.length_modify ..).symm) ?_
  intro other _ hne
  rw [duty?_updateShell, if_neg fun heq => hne (congrArg some heq)]

theorem addShell (w : World) (title : String) : Around none w (addShell w title).2 := by
  have hscope : w.Still (ToyUnix.addShell w title).2 :=
    (World.Still.addScope w).trans (.of_aside (.of_apart ⟨rfl, rfl⟩))
  have hfrugal : w.Frugal w.shells.length (ToyUnix.addShell w title).2 :=
    .addShell w title (Nat.le_refl _)
  exact of_still hscope hfrugal.room fun id hid _ => hfrugal.shells id hid

theorem writeLine (w : World) (text : String) (console : Console) :
    Around none w (console.writeLine w text) :=
  quiet (Console.writeLine_apart ..) ((Manners.frugal _).writeLine ..)

end Around

end World

open World (Around)

theorem execute_around {w : World} {depth : Nat} {ctx : Context} {console : Console}
    {tree : Instruction} {s : World} {result : Except Fault Int}
    (hrun : (execute depth ctx console tree w).finish = some (s, result)) : Around none w s := by
  have hfrugal : w.Frugal w.shells.length s :=
    (execute_frugal _ depth ctx console tree).finish (Nat.le_refl _) hrun
  exact ⟨fun hw => (execute_framed hw hrun).1, fun hw => (execute_framed hw hrun).2,
    hfrugal.room, fun id hid _ => hfrugal.shells id hid⟩

namespace Shell

variable {id scope : Nat} {settings : ShellSettings} {host shell : Context} {w v s : World}

theorem takePending_none (h : takePending id w = (none, v)) :
    v = w ∧ ∀ pending mode, w.duty? id = some (pending, mode) → pending = [] := by
  unfold takePending at h
  split at h
  · cases h
  · rename_i hpending
    refine ⟨(congrArg Prod.snd h).symm, fun pending mode hduty => ?_⟩
    obtain ⟨state, hstate, heq⟩ := Option.map_eq_some_iff.1 hduty
    cases heq
    cases hcase : state.pending with
    | nil => rfl
    | cons next rest => exact absurd (by rw [hstate, Option.map_some, hcase]) (hpending next rest)

theorem takePending_some {tree : Instruction} (h : takePending id w = (some tree, v)) :
    Around (some id) w v ∧ ∀ pending mode, w.duty? id = some (pending, mode) →
      ∃ rest, pending = tree :: rest ∧ v.duty? id = some (rest, mode) := by
  unfold takePending at h
  split at h
  · rename_i next rest hpending
    cases h
    refine ⟨.updateShell .., fun pending mode hduty => ?_⟩
    obtain ⟨state, hstate, heq⟩ := Option.map_eq_some_iff.1 hduty
    cases heq
    rw [hstate, Option.map_some, Option.some.injEq] at hpending
    refine ⟨rest, hpending, ?_⟩
    rw [World.duty?_updateShell, if_pos rfl, hstate]
    rfl
  · cases h

theorem duty?_clearPending {pending : List Instruction} {mode : ShellMode}
    (h : w.duty? id = some (pending, mode)) : (clearPending id w).duty? id = some ([], mode) := by
  obtain ⟨state, hstate, heq⟩ := Option.map_eq_some_iff.1 h
  cases heq
  rw [clearPending, World.duty?_updateShell, if_pos rfl, hstate]
  rfl

/-- An `exit` gets out of every shell, a `return` out of none. Others get out unless the shell is
graceful. -/
def Leaks (settings : ShellSettings) (fault : Fault) : Prop :=
  (∃ code, fault = .exit code) ∨
    settings.graceful = false ∧ ∀ code extent, fault ≠ .ended code extent

theorem reportFault_ends {fault : Fault} {result : Except Fault Unit}
    (hrun : (reportFault settings fault w).finish = some (s, result)) :
    Around none w s ∧
      ∀ other, result = .error other → settings.graceful = false ∧ other = fault := by
  unfold reportFault at hrun
  split at hrun
  · cases hrun
    exact ⟨.writeLine .., nofun⟩
  · rename_i hgraceful
    cases hrun
    refine ⟨.refl _, ?_⟩
    rintro _ ⟨rfl⟩
    exact ⟨by simpa using hgraceful, rfl⟩

/-- What comes of a queue of less than `limit` trees. -/
structure Drained (id : Nat) (settings : ShellSettings) (limit : Nat) (w s : World)
    (result : Except Fault Unit) : Prop where
  around : Around (some id) w s
  emptied : ∀ pending mode, w.duty? id = some (pending, mode) → pending.length < limit →
    s.duty? id = some ([], mode)
  leaks : ∀ fault, result = .error fault → Leaks settings fault

namespace Drained

variable {limit : Nat} {t : World} {result : Except Fault Unit}

theorem after (hwt : Around (some id) w t)
    (hduty : ∀ pending mode, w.duty? id = some (pending, mode) →
      ∃ left, t.duty? id = some (left, mode) ∧ left.length < pending.length)
    (h : Drained id settings limit t s result) : Drained id settings (limit + 1) w s result where
  around := hwt.trans h.around
  emptied pending mode hw hlt := by
    obtain ⟨left, ht, hless⟩ := hduty pending mode hw
    exact h.emptied left mode ht (by omega)
  leaks := h.leaks

theorem of_clear (hwt : Around (some id) w t)
    (hduty : ∀ pending mode, w.duty? id = some (pending, mode) → t.duty? id = some ([], mode))
    {fault : Fault} (hleaks : Leaks settings fault) :
    Drained id settings limit w t (.error fault) where
  around := hwt
  emptied pending mode hw _ := hduty pending mode hw
  leaks := by
    rintro _ ⟨rfl⟩
    exact hleaks

end Drained

/-- However the trees of a queue end, it is empty in the end, given enough steps. -/
theorem drained_drain {depth limit : Nat} {result : Except Fault Unit}
    (hrun : (drain (execute depth) id shell settings limit w).finish = some (s, result)) :
    Drained id settings limit w s result := by
  induction limit generalizing w with
  | zero =>
    cases hrun
    exact ⟨.refl _, fun _ _ _ hlt => absurd hlt (Nat.not_lt_zero _), nofun⟩
  | succ limit ih =>
    rw [drain, Job.update_bind] at hrun
    generalize htaken : takePending id w = taken at hrun
    obtain ⟨_ | tree, v⟩ := taken
    · obtain ⟨rfl, hempty⟩ := takePending_none htaken
      cases hrun
      exact ⟨.refl _, fun pending mode hduty _ => hempty pending mode hduty ▸ hduty, nofun⟩
    obtain ⟨hwv, hrest⟩ := takePending_some htaken
    simp only [Job.attempt_bind, Course.finish_bind] at hrun
    obtain ⟨⟨t, outcome⟩, hcall, hnext⟩ := Option.bind_eq_some_iff.1 hrun
    have hvt := execute_around hcall
    have hwt : Around (some id) w t := hwv.trans hvt.any
    have hshorter {u : World} (htu : Around none t u) : ∀ pending mode,
        w.duty? id = some (pending, mode) →
          ∃ left, u.duty? id = some (left, mode) ∧ left.length < pending.length := by
      intro pending mode hw
      obtain ⟨rest, rfl, hv⟩ := hrest pending mode hw
      exact ⟨rest, htu.duty (hvt.duty hv), Nat.lt_succ_self _⟩
    have hcleared : ∀ pending mode, w.duty? id = some (pending, mode) →
        (clearPending id t).duty? id = some ([], mode) := by
      intro pending mode hw
      obtain ⟨rest, -, hv⟩ := hrest pending mode hw
      exact duty?_clearPending (hvt.duty hv)
    have hclear : Around (some id) w (clearPending id t) := hwt.trans (.updateShell ..)
    simp only at hnext
    split at hnext
    · exact (ih hnext).after hwt (hshorter (.refl t))
    · have hwrite := Around.writeLine t Builtin.returnMessage settings.console
      exact (ih hnext).after (hwt.trans hwrite.any) (hshorter hwrite)
    · cases hnext
      exact .of_clear hclear hcleared (.inl ⟨_, rfl⟩)
    · rename_i fault hreturned hexit
      have hended : ∀ code extent, fault ≠ .ended code extent := by
        rintro code (_ | _) rfl
        · exact hreturned code rfl
        · exact hexit code rfl
      rw [Job.modify_bind, Job.finish_bind] at hnext
      obtain ⟨⟨u, reported⟩, hreport, hnext⟩ := Option.bind_eq_some_iff.1 hnext
      obtain ⟨htu, hleaks⟩ := reportFault_ends hreport
      have hduty : ∀ pending mode, w.duty? id = some (pending, mode) →
          u.duty? id = some ([], mode) := fun pending mode hw => htu.duty (hcleared pending mode hw)
      cases reported with
      | ok _ =>
        refine (ih hnext).after (hclear.trans htu.any) fun pending mode hw => ?_
        obtain ⟨rest, rfl, -⟩ := hrest pending mode hw
        exact ⟨[], hduty _ mode hw, Nat.succ_pos _⟩
      | error other =>
        cases hnext
        obtain ⟨hgraceful, rfl⟩ := hleaks other rfl
        exact .of_clear (hclear.trans htu.any) hduty (.inr ⟨hgraceful, hended⟩)

theorem readLogical_keeps (M : Manners) (settings : ShellSettings) (limit : Nat) (before : String)
    (w : World) : M.keeps w (readLogical settings limit before w).2 := by
  induction limit generalizing before w with
  | zero => exact M.refl w
  | succ limit ih =>
    have hread := M.readLine w settings.console
    simp only [readLogical]
    split <;> rename_i h <;> rw [h] at hread
    · exact hread
    · split
      · exact hread
      · exact M.trans hread (M.trans (M.write ..) (ih ..))

theorem readCommand_keeps (M : Manners) (settings : ShellSettings) (w : World) :
    M.keeps w (readCommand settings w).2 :=
  readLogical_keeps ..

theorem showPrompt_keeps (M : Manners) (id : Nat) (settings : ShellSettings) (host : Context)
    (w : World) : M.keeps w (showPrompt id settings host w) :=
  M.trans (M.setTitle ..) (M.write ..)

theorem prompted_keeps (M : Manners) (id : Nat) (settings : ShellSettings) (host : Context)
    (w : World) : M.keeps w (readCommand settings (showPrompt id settings host w)).2 :=
  M.trans (showPrompt_keeps ..) (readCommand_keeps ..)

theorem prompted_around (id : Nat) (settings : ShellSettings) (host : Context) (w : World) :
    Around none w (readCommand settings (showPrompt id settings host w)).2 :=
  .quiet (prompted_keeps .aloof ..) (prompted_keeps (.frugal _) ..)

def enqueue (id : Nat) (tree : Instruction) (w : World) : World :=
  w.updateShell id fun shell =>
    { shell with pending := shell.pending ++ [tree], mode := .executing }

def waiting (id : Nat) (w : World) : Nat := (w.shells[id]?.map (·.pending.length)).getD 0

theorem cycle_eq (call : Caller) (id scope : Nat) (settings : ShellSettings) (host : Context)
    (w : World) :
    cycle call id scope settings host w =
      match readCommand settings (showPrompt id settings host w) with
      | (none, v) => .done v (.error (.exit 0))
      | (some line, v) =>
        if isBlankText line then .done v (.ok ())
        else
          match parseScript settings.options line false with
          | .error fault => reportFault settings fault v
          | .ok tree =>
            (drain call id (.shell id scope settings host) settings
              (waiting id (enqueue id tree v) + 1) (enqueue id tree v)).bind fun s result =>
                .done (setMode (.shell id scope settings host) .idle s) result := by
  rw [cycle, Job.modify_bind, Job.update_bind]
  generalize readCommand settings (showPrompt id settings host w) = read
  obtain ⟨_ | line, v⟩ := read
  · rfl
  simp only
  split
  · rfl
  cases parseScript settings.options line false with
  | error fault => rfl
  | ok tree =>
    refine (Job.attempt_bind (drain call id _ settings _) _ (enqueue id tree v)).trans ?_
    congr 1
    funext s result
    cases result <;> rfl

theorem duty?_setMode {pending : List Instruction} {mode : ShellMode}
    (h : w.duty? id = some (pending, mode)) (next : ShellMode) :
    (setMode (.shell id scope settings host) next w).duty? id = some (pending, next) := by
  obtain ⟨state, hstate, heq⟩ := Option.map_eq_some_iff.1 h
  cases heq
  rw [setMode, World.duty?_updateShell, if_pos rfl, hstate]
  rfl

theorem enqueue_idle {mode : ShellMode} (h : w.duty? id = some ([], mode)) (tree : Instruction) :
    (enqueue id tree w).duty? id = some ([tree], .executing) ∧
      waiting id (enqueue id tree w) = 1 := by
  obtain ⟨state, hstate, heq⟩ := Option.map_eq_some_iff.1 h
  obtain ⟨hpending, -⟩ := Prod.mk.inj heq
  constructor
  · rw [enqueue, World.duty?_updateShell, if_pos rfl, hstate, Option.map_some, Option.map_some,
      hpending]
    rfl
  · simp [waiting, enqueue, World.updateShell, hstate, hpending]

/-- What comes of one use of shell `id`: it is idle with nothing pending if it was so before. -/
structure Rested (id : Nat) (w s : World) : Prop where
  around : Around (some id) w s
  duty : w.duty? id = some ([], .idle) → s.duty? id = some ([], .idle)

theorem Rested.of_around (h : Around none w s) : Rested id w s := ⟨h.any, h.duty⟩

theorem rested_cycle {depth : Nat} {result : Except Fault Unit}
    (hrun : (cycle (execute depth) id scope settings host w).finish = some (s, result)) :
    Rested id w s ∧ ∀ fault, result = .error fault → Leaks settings fault := by
  have hprompt := prompted_around id settings host w
  rw [cycle_eq] at hrun
  generalize readCommand settings (showPrompt id settings host w) = read at hrun hprompt
  obtain ⟨_ | line, v⟩ := read
  · cases hrun
    refine ⟨.of_around hprompt, ?_⟩
    rintro _ ⟨rfl⟩
    exact .inl ⟨0, rfl⟩
  simp only at hrun
  split at hrun
  · cases hrun
    exact ⟨.of_around hprompt, nofun⟩
  split at hrun
  · rename_i refused hrefused
    obtain ⟨hreport, hleaks⟩ := reportFault_ends hrun
    refine ⟨.of_around (hprompt.trans hreport), fun fault hfault => ?_⟩
    obtain ⟨hgraceful, rfl⟩ := hleaks fault hfault
    obtain ⟨detail, rfl⟩ := complains_parseScript _ _ _ _ hrefused
    exact .inr ⟨hgraceful, nofun⟩
  · rename_i tree _
    rw [Course.finish_bind] at hrun
    obtain ⟨⟨t, drained⟩, hdrain, hdone⟩ := Option.bind_eq_some_iff.1 hrun
    cases hdone
    have hdrained := drained_drain hdrain
    have hidle : Around (some id) t (setMode (.shell id scope settings host) .idle t) :=
      .updateShell ..
    refine ⟨⟨hprompt.any.trans (((Around.updateShell ..).trans hdrained.around).trans hidle),
      fun hw => ?_⟩, hdrained.leaks⟩
    obtain ⟨hone, hwaiting⟩ := enqueue_idle (hprompt.duty hw) tree
    exact duty?_setMode (hdrained.emptied _ _ hone (by rw [hwaiting]; exact Nat.lt_succ_self _)) _

theorem rested_runScript {depth : Nat} {text : String} {result : Except Fault Int}
    (hrun : (runScript (execute depth) (.shell id scope settings host) settings text w).finish =
      some (s, result)) : Rested id w s := by
  have hreports {fault : Fault} {code : Int} {v : World} (hv : Rested id w v)
      (h : ((reportFault settings fault >>= fun _ => pure code : Job Int) v).finish =
        some (s, result)) : Rested id w s := by
    rw [Job.finish_bind] at h
    obtain ⟨⟨t, reported⟩, hreport, hdone⟩ := Option.bind_eq_some_iff.1 h
    have hvt := (reportFault_ends hreport).1
    have hs : s = t := by cases reported <;> cases hdone <;> rfl
    exact hs ▸ ⟨hv.around.trans hvt.any, fun hw => hvt.duty (hv.duty hw)⟩
  cases hparse : parseScript settings.options text true with
  | error fault =>
    unfold runScript at hrun
    rw [hparse] at hrun
    exact hreports (.of_around (.refl w)) hrun
  | ok tree =>
    rw [runScript_parsed _ _ _ _ hparse, Course.finish_bind] at hrun
    obtain ⟨⟨t, outcome⟩, hcall, hnext⟩ := Option.bind_eq_some_iff.1 hrun
    have hwt : Rested id w (setMode (.shell id scope settings host) .idle t) := by
      have hrun := execute_around hcall
      refine ⟨(Around.updateShell ..).trans (hrun.any.trans (.updateShell ..)), fun hw => ?_⟩
      exact duty?_setMode (hrun.duty (duty?_setMode hw .executing)) .idle
    simp only at hnext
    split at hnext
    · cases hnext
      exact hwt
    · exact hreports hwt hnext

/-- The worlds that a shell may find itself in: it has been made, and then one thing has been done
after the other. -/
inductive Used (id scope : Nat) : World → Prop
  | made {w : World} (title : String) (hw : w.Framed) (hnew : (addShell w title).1 = (id, scope)) :
      Used id scope (addShell w title).2
  /-- A prompt cycle, of this shell or another one. -/
  | cycled {w s : World} {depth other otherScope : Nat} {settings : ShellSettings} {host : Context}
      {result : Except Fault Unit} (h : Used id scope w)
      (hrun : (cycle (execute depth) other otherScope settings host w).finish = some (s, result)) :
      Used id scope s
  /-- A script that is run within a shell, this one or another. -/
  | scripted {w s : World} {depth other otherScope : Nat} {settings : ShellSettings}
      {host : Context} {text : String} {result : Except Fault Int} (h : Used id scope w)
      (hrun : (runScript (execute depth) (.shell other otherScope settings host) settings text
        w).finish = some (s, result)) : Used id scope s
  /-- Commands in whatever context. -/
  | ran {w s : World} {depth : Nat} {ctx : Context} {console : Console} {tree : Instruction}
      {result : Except Fault Int} (h : Used id scope w)
      (hrun : (execute depth ctx console tree w).finish = some (s, result)) : Used id scope s
  | joined {w : World} (title : String) (h : Used id scope w) : Used id scope (addShell w title).2
  /-- Anything that concerns neither frames nor shells. -/
  | changed {w s : World} (h : Used id scope w) (hstill : w.Still s)
      (hshells : s.shells = w.shells) : Used id scope s

/-- Between two uses a shell is idle, and nothing of them is left. -/
structure Idle (id scope : Nat) (w : World) : Prop where
  framed : w.Framed
  duty : w.duty? id = some ([], .idle)
  frames : (w.scope scope).frames = []

theorem Idle.later (h : Idle id scope w) {inUse : Option Nat} (hws : Around inUse w s)
    (hduty : s.duty? id = some ([], .idle)) : Idle id scope s :=
  ⟨hws.framed h.framed, hduty, (hws.frames h.framed scope).trans h.frames⟩

theorem Idle.rested (h : Idle id scope w) {other : Nat} (hws : Rested other w s) :
    Idle id scope s := by
  refine h.later hws.around ?_
  by_cases heq : other = id
  · exact heq ▸ hws.duty (heq ▸ h.duty)
  · exact (hws.around.duties id (World.lt_of_duty? h.duty) fun hid =>
      heq (Option.some.inj hid)).trans h.duty

theorem Used.idle (h : Used id scope w) : Idle id scope w := by
  induction h with
  | @made w title hw hnew =>
    obtain ⟨rfl, rfl⟩ := Prod.mk.inj hnew
    refine ⟨(Around.addShell w title).framed hw, ?_, ?_⟩
    · simp [World.duty?, addShell, World.addScope]
    · rw [(Around.addShell w title).frames hw]
      exact congrArg Scope.frames (World.scope_of_le (Nat.le_refl _))
  | cycled _ hrun ih => exact ih.rested (rested_cycle hrun).1
  | scripted _ hrun ih => exact ih.rested (rested_runScript hrun)
  | ran _ hrun ih => exact ih.later (execute_around hrun) ((execute_around hrun).duty ih.duty)
  | @joined w title _ ih =>
    exact ih.later (.addShell w title) ((Around.addShell w title).duty ih.duty)
  | @changed w s _ hstill hshells ih =>
    have hsame (id : Nat) : s.duty? id = w.duty? id := by rw [World.duty?, World.duty?, hshells]
    have hroom := Nat.le_of_eq (congrArg List.length hshells.symm)
    have hws : Around none w s := .of_still hstill hroom fun id _ _ => hsame id
    exact ih.later hws ((hsame id).trans ih.duty)

/-- A prompt cycle of a graceful shell ends well or with an `exit`, and leaves the shell idle, with
nothing pending and no call open. -/
theorem graceful_survives {depth : Nat} (hused : Used id scope w)
    (hgraceful : settings.graceful = true) {result : Except Fault Unit}
    (hrun : (cycle (execute depth) id scope settings host w).finish = some (s, result)) :
    (result = .ok () ∨ ∃ code, result = .error (.exit code)) ∧
      (∃ state, s.shells[id]? = some state ∧ state.mode = .idle ∧ state.pending = []) ∧
      (s.scope scope).frames = [] := by
  obtain ⟨hrested, hleaks⟩ := rested_cycle hrun
  have hidle := hused.idle.rested hrested
  refine ⟨?_, ?_, hidle.frames⟩
  · cases result with
    | ok done => exact .inl rfl
    | error fault =>
      obtain ⟨code, rfl⟩ | ⟨hfalse, -⟩ := hleaks fault rfl
      · exact .inr ⟨code, rfl⟩
      · rw [hgraceful] at hfalse
        cases hfalse
  · obtain ⟨state, hstate, heq⟩ := Option.map_eq_some_iff.1 hidle.duty
    exact ⟨state, hstate, (Prod.mk.inj heq).2, (Prod.mk.inj heq).1⟩

def calling : World :=
  { scopes := [{}], directories := ["/"]
    buffers := [{ input := ["f() \x7b echo >x; \x7d; f"] }] }

theorem calling_framed : calling.Framed := by
  have hscope (i : Nat) : calling.scope i = {} := by obtain _ | i := i <;> rfl
  refine ⟨fun i => ?_, fun i frame hmem => ?_⟩
  · rw [hscope]
    exact .nil
  · rw [hscope] at hmem
    cases hmem

/-- There are no files, so the call ends with a fault. -/
theorem calling_survived :
    let shell : ShellSettings := ⟨{}, {}, true, .buffer 0⟩
    let w := (addShell calling "").2
    Used 0 1 w ∧ shell.graceful = true ∧
    ∃ s, (cycle (execute 9) 0 1 shell (.standalone "" 0 0) w).finish = some (s, .ok ()) ∧
      s.buffers.map (·.output) = ["$ -sh: x: No such file or directory\n"] ∧
      (∃ state, s.shells[0]? = some state ∧ state.mode = .idle ∧ state.pending = []) ∧
      (s.scope 1).frames = [] := by
  intro shell w
  have hrun : ((cycle (execute 9) 0 1 shell (.standalone "" 0 0) w).finish.map fun r =>
      (r.2, r.1.buffers.map (·.output))) =
        some (.ok (), ["$ -sh: x: No such file or directory\n"]) := by
    decide +kernel
  obtain ⟨⟨s, result⟩, hfinish, heq⟩ := Option.map_eq_some_iff.1 hrun
  obtain ⟨rfl, houtput⟩ := Prod.mk.inj heq
  have hused : Used 0 1 w := .made "" calling_framed rfl
  obtain ⟨-, hstate, hframes⟩ := graceful_survives hused rfl hfinish
  exact ⟨hused, rfl, s, hfinish, houtput, hstate, hframes⟩

end Shell

end ToyUnix
