import ToyUnix.Proofs.Files.Standing
import ToyUnix.Proofs.Shell.Containment

/-!
Straight courses, which never pause. Nobody gets a turn while one of them runs, so beside another
course it is simply run first. Of the programs only `rm` and `ping` ever pause, and they do not if
there is nothing to delete and no address to send to: see `Program.straight`.
-/

set_option autoImplicit false

namespace ToyUnix

namespace Course

variable {σ α β : Type} {c : Course σ α}

def Straight : Course σ α → Prop
  | .done _ _ => True
  | .pause _ _ => False
  | .exhausted => True

namespace Straight

theorem bind {f : σ → α → Course σ β} (h : c.Straight)
    (hnext : ∀ s a, c = .done s a → (f s a).Straight) : (c.bind f).Straight := by
  cases c with
  | done s a => exact hnext s a rfl
  | pause s resume => exact h.elim
  | exhausted => trivial

theorem map (h : c.Straight) (f : α → β) : (c.map f).Straight := by
  cases c with
  | done s a => trivial
  | pause s resume => exact h.elim
  | exhausted => trivial

end Straight

end Course

namespace Job

variable {α β : Type} {x : Job α} {w : World}

theorem straight_bind {f : α → Job β} (h : (x w).Straight)
    (hnext : ∀ s a, x w = .done s (.ok a) → (f a s).Straight) : ((x >>= f) w).Straight := by
  refine Course.Straight.bind h fun s result hdone => ?_
  cases result with
  | ok a => exact hnext s a hdone
  | error fault => trivial

theorem straight_attempt_bind {f : Except Fault α → Job β} (h : (x w).Straight)
    (hnext : ∀ s result, x w = .done s result → (f result s).Straight) :
    ((Job.attempt x >>= f) w).Straight := by
  rw [attempt_bind]
  exact h.bind hnext

theorem straight_both {y : Job β} (h : (x w).Straight)
    (hnext : ∀ s result, x w = .done s result → (y s).Straight) : (Job.both x y w).Straight := by
  refine Course.Straight.map ?_ _
  cases hx : x w with
  | done s result => exact (hnext s result hx).map _
  | pause s resume =>
    rw [hx] at h
    exact h.elim
  | exhausted => trivial

/-- A job that does not pause has come to its end before the one beside it begins. -/
theorem both_bind {γ : Type} {y : Job β} (h : (x w).Straight)
    (f : Except Fault α × Except Fault β → Job γ) :
    (Job.both x y >>= f) w = (do
      let left ← Job.attempt x
      let right ← Job.attempt y
      f (left, right)) w := by
  refine (Course.bind_map ((x w).both y) Except.ok _).trans ?_
  rw [attempt_bind]
  cases hx : x w with
  | done s left =>
    have hnext := attempt_bind y (fun right => f (left, right)) s
    exact (Course.bind_map (y s) _ _).trans hnext.symm
  | pause s resume =>
    rw [hx] at h
    exact h.elim
  | exhausted => rfl

theorem straight_ofExcept (result : Except Fault α) (w : World) :
    (Job.ofExcept result w).Straight := by
  cases result <;> trivial

theorem step_done {u : World → Except Fault α × World} {s : World} {a : α}
    (h : Job.step u w = .done s (.ok a)) : u w = (.ok a, s) := by
  have hdone : Course.done (u w).2 (u w).1 = .done s (.ok a) := h
  generalize u w = r at hdone ⊢
  obtain ⟨result, v⟩ := r
  cases hdone
  rfl

end Job

/-! Programs. -/

namespace Files

theorem setPending_eq (s : Files) (id : Nat) (pending : Bytes) :
    ∃ writers, s.setPending id pending = { s with writers } := by
  unfold setPending
  split
  · exact ⟨s.writers, rfl⟩
  · exact ⟨_, rfl⟩

theorem writeBytes_eq (s : Files) (id : Nat) (data : Bytes) :
    ∃ writers, s.writeBytes id data = { s with writers } := by
  unfold writeBytes
  split
  · exact ⟨s.writers, rfl⟩
  · exact s.setPending_eq id _

end Files

/-- Processes, and what is found in the files, are the same. -/
structure World.Rests (v w : World) : Prop where
  processes : w.processes = v.processes
  trees : w.files.trees = v.files.trees
  standing : v.files.Standing w.files

namespace World.Rests

variable {u v w : World}

theorem trans (h : u.Rests v) (h' : v.Rests w) : u.Rests w :=
  ⟨h'.processes.trans h.processes, h'.trees.trans h.trees, h.standing.trans h'.standing⟩

theorem answers (h : v.Rests w) (question : Question) (fs : FileSystem) (path : String) :
    w.files.answers question (w.files.route fs path) =
      v.files.answers question (v.files.route fs path) := by
  rw [h.standing.route, Files.answers_congr h.trees]

theorem target (h : v.Rests w) (run : Invocation) (operand : String) :
    run.fs w = run.fs v ∧ run.target w operand = run.target v operand := by
  simp only [Invocation.fs, Invocation.target, Invocation.cwd, Invocation.home, World.viewOf,
    World.process?, h.processes, and_self]

theorem write (w : World) (text : String) (console : Console) : w.Rests (console.write w text) := by
  induction console with
  | input id parent ih => exact ih
  | file writer parent _ =>
    obtain ⟨writers, hwriters⟩ := w.files.writeBytes_eq writer (Utf8.encode text)
    rw [Console.write, hwriters]
    exact ⟨rfl, rfl, rfl, rfl⟩
  | _ => exact ⟨rfl, rfl, .refl _⟩

theorem writeLine (w : World) (text : String) (console : Console) :
    w.Rests (console.writeLine w text) :=
  (write w text console).trans (write ..)

end World.Rests

namespace Utility

variable (run : Invocation)

/-- `rm` would delete what the operand names: a file, or a directory with all that is in it. -/
def Deletes (recursive : Bool) (operand : String) (w : World) : Prop :=
  w.files.isFile (run.fs w) (run.target w operand) = true ∨
    recursive = true ∧ w.files.isDirectory (run.fs w) (run.target w operand) = true

theorem deletes_congr {v w : World} (h : v.Rests w) (recursive : Bool) (operand : String) :
    Deletes run recursive operand w ↔ Deletes run recursive operand v := by
  obtain ⟨hfs, htarget⟩ := h.target run operand
  unfold Deletes Files.isFile Files.isDirectory
  rw [hfs, htarget, h.answers, h.answers]

theorem rmTarget_done {recursive : Bool} {operand : String} {w : World}
    (h : ¬ Deletes run recursive operand w) (limit : Nat) (force : Bool) :
    ∃ result, rmTarget limit (run.fs w) recursive force operand (run.target w operand) w =
      .done w result := by
  simp only [Deletes, not_or, not_and, Bool.not_eq_true] at h
  rw [rmTarget, Job.get_bind, h.1, if_neg Bool.false_ne_true]
  cases hdirectory : w.files.isDirectory (run.fs w) (run.target w operand) with
  | false =>
    cases force with
    | true => exact ⟨_, rfl⟩
    | false => exact ⟨_, rfl⟩
  | true =>
    cases recursive with
    | true => exact absurd hdirectory (Bool.eq_false_iff.1 (h.2 rfl))
    | false => exact ⟨_, rfl⟩

theorem rmTargets_straight {limit : Nat} {recursive : Bool} (force : Bool) {code : Int}
    {operands : List String} {w : World}
    (h : ∀ operand ∈ operands, ¬ Deletes run recursive operand w) :
    (rmTargets run limit recursive force code operands w).Straight := by
  induction operands generalizing code w with
  | nil => trivial
  | cons operand operands ih =>
    obtain ⟨hfirst, hrest⟩ := List.forall_mem_cons.1 h
    obtain ⟨result, hdone⟩ := rmTarget_done run hfirst limit force
    rw [rmTargets, Job.get_bind, Job.attempt_bind, hdone]
    cases result with
    | ok _ => exact ih hrest
    | error fault =>
      refine ih fun other hother => ?_
      exact mt (deletes_congr run (World.Rests.writeLine ..) recursive other).1 (hrest other hother)

/-- The first argument is a host that has an address. -/
def Reaches (w : World) : Prop :=
  ∃ host rest network address, run.args = host :: rest ∧ run.computer.network = some network ∧
    (w.networks[network]?).bind (·.resolve? host) = some address

theorem ping_straight {w : World} (h : ¬ Reaches run w) : (ping run w).Straight := by
  cases hargs : run.args with
  | nil =>
    simp only [ping, hargs]
    exact True.intro
  | cons host rest =>
    cases hnetwork : run.computer.network with
    | none =>
      simp only [ping, hargs, hnetwork]
      exact True.intro
    | some network =>
      cases hresolve : (w.networks[network]?).bind (·.resolve? host) with
      | none =>
        simp only [ping, hargs, hnetwork, Job.get_bind, hresolve]
        exact True.intro
      | some address => exact absurd ⟨host, rest, network, address, hargs, hnetwork, hresolve⟩ h

end Utility

/-- It is `rm` with something to delete, or `ping` with an address to send to. -/
def Program.Paced (run : Invocation) (w : World) : Program → Prop
  | .rm => ∃ operand ∈ (splitFlags run.args).2,
    Utility.Deletes run ((splitFlags run.args).1.contains 'r' || (splitFlags run.args).1.contains 'R')
      operand w
  | .ping => Utility.Reaches run w
  | _ => False

theorem Program.straight {program : Program} {run : Invocation} {w : World}
    (h : ¬ program.Paced run w) (limit : Nat) : (program.run limit run w).Straight := by
  cases program with
  | rm =>
    simp only [Program.Paced, not_exists, not_and] at h
    simp only [Program.run, Utility.rm]
    generalize splitFlags run.args = parsed at h ⊢
    obtain ⟨flags, operands⟩ := parsed
    cases operands with
    | nil => trivial
    | cons operand operands => exact Utility.rmTargets_straight run _ h
  | ping => exact Utility.ping_straight run h
  | _ => trivial

end ToyUnix
