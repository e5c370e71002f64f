import ToyUnix.Proofs.Shell.Manners

/-!
What stays apart from scopes and processes. Consoles, utilities and nearly all built-ins change
neither; of the built-ins only `cd` changes a process, the one that the shell runs in. A utility may
pause, but it comes back to nothing that it would have to know.
-/

set_option autoImplicit false

namespace ToyUnix

/-- Nothing has happened to the scopes and the processes. -/
structure World.Apart (v w : World) : Prop where
  scopes : w.scopes = v.scopes
  processes : w.processes = v.processes

namespace World.Apart

variable {u v w : World}

theorem refl (w : World) : w.Apart w := ⟨rfl, rfl⟩

theorem trans (huv : u.Apart v) (hvw : v.Apart w) : u.Apart w :=
  ⟨hvw.scopes.trans huv.scopes, hvw.processes.trans huv.processes⟩

end World.Apart

namespace Console

theorem write_apart (w : World) (text : String) (console : Console) :
    w.Apart (console.write w text) := by
  induction console with
  | input id parent ih => exact ih
  | _ => exact ⟨rfl, rfl⟩

theorem clear_apart (w : World) (console : Console) : w.Apart (console.clear w) := by
  induction console with
  | input id parent ih => exact ih
  | _ => exact ⟨rfl, rfl⟩

theorem setTitle_apart (w : World) (text : String) (console : Console) :
    w.Apart (console.setTitle w text) := by
  induction console with
  | pipe id parent ih => exact ih
  | input id parent ih => exact ih
  | file writer parent ih => exact ih
  | _ => exact ⟨rfl, rfl⟩

theorem readLine_apart (w : World) (console : Console) : w.Apart (console.readLine w).2 := by
  induction console with
  | pipe id parent ih => exact ih
  | file writer parent ih => exact ih
  | _ =>
    simp only [readLine]
    split <;> exact ⟨rfl, rfl⟩

theorem drain_apart (w : World) (console : Console) : w.Apart (console.drain w).2 := by
  cases console <;> exact ⟨rfl, rfl⟩

end Console

theorem setMode_apart (shell : Context) (mode : ShellMode) (w : World) :
    w.Apart (setMode shell mode w) := by
  cases shell <;> exact ⟨rfl, rfl⟩

def Manners.aloof : Manners where
  keeps := World.Apart
  refl := .refl
  trans := .trans
  ready _ := True
  later _ := id
  write := Console.write_apart
  clear := Console.clear_apart
  setTitle := Console.setTitle_apart
  readLine := Console.readLine_apart
  addInput _ _ := ⟨rfl, rfl⟩
  files _ _ := ⟨rfl, rfl⟩
  retitle _ _ _ := ⟨rfl, rfl⟩

theorem Console.writeLine_apart (w : World) (text : String) (console : Console) :
    w.Apart (console.writeLine w text) :=
  Manners.aloof.writeLine w text console

theorem Console.flush_apart (w : World) (console : Console) : w.Apart (console.flush w).2 :=
  Manners.aloof.flush w console

theorem closeConsole_apart (w : World) (console : Console) : w.Apart (closeConsole w console) :=
  Manners.aloof.closeConsole w console

theorem Context.openConsole_apart (w : World) (ctx : Context) (console : Console) (path : String)
    (mode : RedirectMode) : w.Apart (ctx.openConsole w console path mode).2 :=
  Manners.aloof.openConsole w ctx console path mode

theorem runBuiltin_apart_or (id scope : Nat) (settings : ShellSettings) (host : Context)
    (console : Console) (name : String) (args : List String) (w : World) :
    w.Apart (runBuiltin id scope settings host console name args w).2 ∨
      ∃ path, (runBuiltin id scope settings host console name args w).2 = host.setCwd w path :=
  Manners.aloof.runBuiltin_or id scope settings host console name args w

def Course.Apart {α : Type} (w : World) : Course World α → Prop
  | .done s _ => w.Apart s
  | .pause s resume => w.Apart s ∧ ∀ t, Apart t (resume t)
  | .exhausted => True

theorem Course.Keeps.apart {α : Type} {c : Course World α} {w : World}
    (h : c.Keeps .aloof w) : c.Apart w := by
  induction c generalizing w with
  | done s a => exact h
  | pause s resume ih => exact ⟨h.1, fun t => ih t (h.2 t trivial)⟩
  | exhausted => trivial

/-- Wherever it begins, the job leaves scopes and processes alone in every turn. -/
structure Job.Apart {α : Type} (x : Job α) : Prop where
  course : ∀ w, (x w).Apart w

theorem Program.run_apart (program : Program) (limit : Nat) (run : Invocation) :
    (program.run limit run).Apart :=
  ⟨fun w => ((program.run_keeps .aloof limit run).course w trivial).apart⟩

end ToyUnix
