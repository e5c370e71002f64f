import ToyUnix.Proofs.Process.Sound
import ToyUnix.Proofs.Shell.Apart

/-!
What commands do apart from scopes. A process keeps its id and its environment whatever is forked,
killed or moved to another directory; only assignments, declarations and calls change more than that.
-/

set_option autoImplicit false

namespace ToyUnix

/-- Every process is still there, and the same by `f`. -/
def Processes.Holds {α : Type} (f : Process → α) (s s' : Processes) : Prop :=
  ∀ (p : Nat) (process : Process), s.all[p]? = some process →
    ∃ later : Process, s'.all[p]? = some later ∧ f later = f process

namespace Processes.Holds

variable {α : Type} {f : Process → α} {s s' s'' : Processes}

variable (f) in
theorem refl (s : Processes) : s.Holds f s := fun _ process h => ⟨process, h, rfl⟩

theorem trans (h : s.Holds f s') (h' : s'.Holds f s'') : s.Holds f s'' := by
  intro p process hp
  obtain ⟨later, hlater, hsame⟩ := h p process hp
  obtain ⟨last, hlast, hsame'⟩ := h' p later hlater
  exact ⟨last, hlast, hsame'.trans hsame⟩

variable (f) in
theorem of_all (h : s'.all = s.all) : s.Holds f s' :=
  fun p process hp => ⟨process, by rw [h, hp], rfl⟩

variable (f) in
theorem append {more : List Process} (h : s'.all = s.all ++ more) : s.Holds f s' := by
  intro p process hp
  refine ⟨process, ?_, rfl⟩
  rw [h, List.getElem?_append_left (List.getElem?_eq_some_iff.1 hp).1, hp]

theorem set {p : Nat} {before after : Process} (hp : s.all[p]? = some before)
    (hsame : f after = f before) (h : s'.all = s.all.set p after) : s.Holds f s' := by
  intro q process hq
  by_cases hqp : q = p
  · subst hqp
    obtain rfl := Option.some.inj (hp.symm.trans hq)
    refine ⟨after, ?_, hsame⟩
    rw [h, List.getElem?_set_self (List.getElem?_eq_some_iff.1 hp).1]
  · exact ⟨process, by rw [h, List.getElem?_set_ne (Ne.symm hqp), hq], rfl⟩

theorem update (s : Processes) (p : Nat) {g : Process → Process}
    (hg : ∀ process, f (g process) = f process) : s.Holds f (s.update p g) := by
  unfold Processes.update
  split
  · exact refl f s
  · rename_i process hp
    exact set hp (hg process) rfl

variable (f) in
theorem forkAs (s : Processes) (p : Nat) (user : User) : s.Holds f (s.forkAs p user).2 := by
  unfold Processes.forkAs
  repeat' split
  all_goals first
  | exact refl f s
  | exact append f rfl

variable (f) in
theorem fork (s : Processes) (p : Nat) : s.Holds f (s.fork p).2 := by
  unfold Processes.fork
  split
  · exact refl f s
  · exact forkAs f s p _

theorem step (hf : ∀ (process : Process) alive exitCode reactions,
      f { process with alive, exitCode, reactions } = f process)
    (s : Processes) (errand : Errand) : s.Holds f (s.step errand).2 := by
  cases errand with
  | kill p code =>
    simp only [Processes.step]
    split <;> exact refl f s
  | finish p code =>
    simp only [Processes.step]
    split
    · exact refl f s
    · rename_i process hp
      split
      · exact set hp (hf process ..) (bury_all s process p code)
      · exact refl f s
  | react p reaction =>
    cases reaction with
    | done => exact refl f s
    | note tag next => exact of_all f rfl
    | fork parent next => exact fork f s parent
    | forkAs parent user next => exact forkAs f s parent user
    | kill target code next => exact refl f s
    | listen target reaction next =>
      simp only [Processes.step]
      split
      · exact refl f s
      · rename_i process hp
        split
        · exact set hp (hf process ..) rfl
        · exact refl f s

theorem run (hf : ∀ (process : Process) alive exitCode reactions,
      f { process with alive, exitCode, reactions } = f process)
    (s : Processes) (errands : List Errand) : s.Holds f (s.run errands) := by
  induction s, errands using Processes.run.induct with
  | case1 s => rw [run_nil]; exact refl f s
  | case2 s errand rest next ih => rw [run_cons]; exact (step hf s errand).trans ih

end Processes.Holds

def Processes.Lasting (s s' : Processes) : Prop :=
  ∀ (p : Nat) (process : Process), s.all[p]? = some process →
    ∃ later : Process, s'.all[p]? = some later ∧ later.pid = process.pid ∧ later.env = process.env

namespace Processes.Lasting

variable {s s' s'' : Processes}

theorem of_holds (h : s.Holds (fun process => (process.pid, process.env)) s') : s.Lasting s' := by
  intro p process hp
  obtain ⟨later, hlater, hsame⟩ := h p process hp
  exact ⟨later, hlater, Prod.mk.inj hsame⟩

theorem refl (s : Processes) : s.Lasting s := fun _ process h => ⟨process, h, rfl, rfl⟩

theorem trans (h : s.Lasting s') (h' : s'.Lasting s'') : s.Lasting s'' := by
  intro p process hp
  obtain ⟨later, hlater, hpid, henv⟩ := h p process hp
  obtain ⟨last, hlast, hpid', henv'⟩ := h' p later hlater
  exact ⟨last, hlast, hpid'.trans hpid, henv'.trans henv⟩

theorem update (s : Processes) (p : Nat) {f : Process → Process}
    (hpid : ∀ process, (f process).pid = process.pid)
    (henv : ∀ process, (f process).env = process.env) : s.Lasting (s.update p f) :=
  of_holds (.update s p fun process => by rw [hpid, henv])

theorem fork (s : Processes) (p : Nat) : s.Lasting (s.fork p).2 := of_holds (.fork _ s p)

theorem run (s : Processes) (errands : List Errand) : s.Lasting (s.run errands) :=
  of_holds (.run (fun _ _ _ _ => rfl) s errands)

end Processes.Lasting

/-- Nothing has happened to the scopes, nor to the ids and environments of processes. -/
structure World.Aside (v w : World) : Prop where
  scopes : w.scopes = v.scopes
  processes : v.processes.Lasting w.processes

namespace World.Aside

variable {u v w : World}

theorem trans (huv : u.Aside v) (hvw : v.Aside w) : u.Aside w :=
  ⟨hvw.scopes.trans huv.scopes, huv.processes.trans hvw.processes⟩

theorem of_apart (h : v.Apart w) : v.Aside w := ⟨h.scopes, h.processes ▸ .refl _⟩

theorem updateProcesses {f : Processes → Processes} (h : w.processes.Lasting (f w.processes)) :
    w.Aside (w.updateProcesses f) :=
  ⟨rfl, h⟩

end World.Aside

theorem Context.setCwd_aside (w : World) (path : String) (ctx : Context) :
    w.Aside (ctx.setCwd w path) := by
  induction ctx with
  | standalone title directory scope => exact .of_apart ⟨rfl, rfl⟩
  | process p c config scope =>
    exact .updateProcesses (.update _ p (fun _ => rfl) fun _ => rfl)
  | shell id scope settings host ih => exact ih
  | nested scope parent ih => exact ih

theorem runBuiltin_aside (id scope : Nat) (settings : ShellSettings) (host : Context)
    (console : Console) (name : String) (args : List String) (w : World) :
    w.Aside (runBuiltin id scope settings host console name args w).2 := by
  rcases runBuiltin_apart_or id scope settings host console name args w with h | ⟨path, h⟩
  · exact .of_apart h
  · exact h ▸ Context.setCwd_aside ..

end ToyUnix
