import Mathlib.Tactic.SplitIfs
import ToyUnix.Proofs.Shell.Turns

/-!
Acting on a console. All that a utility does comes down to a few acts: it writes to its console,
reads lines from it, and changes files. So what is true of each act is true of each of its turns,
wherever that begins: see `Program.run_acts`. What is said by these acts is told too.
-/

set_option autoImplicit false

namespace ToyUnix

namespace Console

/-- From one state to another by acts on that console, and by `aside` in between; `said` is all that
has been written. -/
inductive Acts (console : Console) (aside : World → World → Prop) : World → String → World → Prop
  | idle (w : World) : Acts console aside w "" w
  | write {v w : World} {said : String} : Acts console aside v said w → ∀ text,
      Acts console aside v (said ++ text) (console.write w text)
  | clear {v w : World} {said : String} : Acts console aside v said w →
      Acts console aside v said (console.clear w)
  | setTitle {v w : World} {said : String} : Acts console aside v said w → ∀ text,
      Acts console aside v said (console.setTitle w text)
  | readLine {v w : World} {said : String} : Acts console aside v said w →
      Acts console aside v said (console.readLine w).2
  | change {v w : World} {said : String} : Acts console aside v said w → ∀ fs path c,
      Acts console aside v said (w.onFiles (·.apply fs path c)).2
  | aside {v w s : World} {said : String} : Acts console aside v said w → aside w s →
      Acts console aside v said s

variable {console : Console} {aside : World → World → Prop} {u v w : World}

theorem Acts.trans {said more : String} (huv : console.Acts aside u said v)
    (hvw : console.Acts aside v more w) : console.Acts aside u (said ++ more) w := by
  induction hvw with
  | idle => rwa [String.append_empty]
  | write _ text ih =>
    rw [← String.append_assoc]
    exact ih.write text
  | clear _ ih => exact ih.clear
  | setTitle _ text ih => exact ih.setTitle text
  | readLine _ ih => exact ih.readLine
  | change _ fs path c ih => exact ih.change fs path c
  | aside _ haside ih => exact ih.aside haside

def acting (console : Console) (aside : World → World → Prop) : Upkeep where
  keeps v w := ∃ said, console.Acts aside v said w
  refl w := ⟨"", .idle w⟩
  trans := fun ⟨_, huv⟩ ⟨_, hvw⟩ => ⟨_, huv.trans hvw⟩

variable (console aside)

theorem acting_write (w : World) (text : String) :
    (acting console aside).keeps w (console.write w text) :=
  ⟨_, .write (.idle w) text⟩

theorem acting_writeLine (w : World) (text : String) :
    (acting console aside).keeps w (console.writeLine w text) :=
  (acting console aside).trans (acting_write ..) (acting_write ..)

theorem acting_clear (w : World) : (acting console aside).keeps w (console.clear w) :=
  ⟨_, .clear (.idle w)⟩

theorem acting_setTitle (w : World) (text : String) :
    (acting console aside).keeps w (console.setTitle w text) :=
  ⟨_, .setTitle (.idle w) text⟩

theorem acting_readLine (w : World) : (acting console aside).keeps w (console.readLine w).2 :=
  ⟨_, .readLine (.idle w)⟩

theorem acting_change (w : World) (fs : FileSystem) (path : String) (c : Change) :
    (acting console aside).keeps w (w.onFiles (·.apply fs path c)).2 :=
  ⟨_, .change (.idle w) fs path c⟩

variable {aside} in
theorem acting_aside (h : aside v w) : (acting console aside).keeps v w := ⟨_, .aside (.idle v) h⟩

end Console

namespace Course

variable {α β : Type} {U : Upkeep} {v w : World}

def Minds (U : Upkeep) (w : World) : Course World α → Prop
  | .done s _ => U.keeps w s
  | .pause s resume => U.keeps w s ∧ ∀ t, Minds U t (resume t)
  | .exhausted => True

namespace Minds

theorem after {c : Course World α} (hvw : U.keeps v w) (h : c.Minds U w) : c.Minds U v := by
  cases c with
  | done s a => exact U.trans hvw h
  | pause s resume => exact ⟨U.trans hvw h.1, h.2⟩
  | exhausted => trivial

theorem bind {c : Course World α} {f : World → α → Course World β} (h : c.Minds U w)
    (hnext : ∀ s a, (f s a).Minds U s) : (c.bind f).Minds U w := by
  induction c generalizing w with
  | done s a => exact after h (hnext s a)
  | pause s resume ih => exact ⟨h.1, fun t => ih t (h.2 t)⟩
  | exhausted => trivial

theorem map {c : Course World α} (h : c.Minds U w) (f : α → β) : (c.map f).Minds U w := by
  induction c generalizing w with
  | done s a => exact h
  | pause s resume ih => exact ⟨h.1, fun t => ih t (h.2 t)⟩
  | exhausted => trivial

end Minds

end Course

namespace Job

variable {α β : Type}

/-- Wherever it begins, the job keeps what it should in every turn. -/
structure Minds (U : Upkeep) (x : Job α) : Prop where
  course : ∀ w, (x w).Minds U w

namespace Minds

variable {U : Upkeep} {x : Job α} {f : α → Job β}

theorem ofExcept (result : Except Fault α) : (Job.ofExcept result).Minds U := by
  cases result <;> exact ⟨fun w => U.refl w⟩

theorem pure (a : α) : (Pure.pure a : Job α).Minds U := ofExcept (.ok a)

theorem throw (fault : Fault) : (Job.throw fault : Job α).Minds U := ofExcept (.error fault)

theorem exhausted : (Job.exhausted : Job α).Minds U := ⟨fun _ => trivial⟩

theorem get : Job.get.Minds U := ⟨fun w => U.refl w⟩

theorem pause : Job.pause.Minds U := ⟨fun w => ⟨U.refl w, fun t => U.refl t⟩⟩

theorem bind_course {w : World} (h : (x w).Minds U w) (hnext : ∀ a, (f a).Minds U) :
    ((x >>= f) w).Minds U w := by
  refine h.bind fun s result => ?_
  cases result with
  | ok a => exact (hnext a).course s
  | error fault => exact U.refl s

theorem bind (h : x.Minds U) (hnext : ∀ a, (f a).Minds U) : (x >>= f).Minds U :=
  ⟨fun w => bind_course (h.course w) hnext⟩

theorem attempt (h : x.Minds U) : (Job.attempt x).Minds U := ⟨fun w => (h.course w).map _⟩

theorem step {u : World → Except Fault α × World} (h : ∀ w, U.keeps w (u w).2) :
    (Job.step u).Minds U := ⟨h⟩

theorem update {u : World → α × World} (h : ∀ w, U.keeps w (u w).2) : (Job.update u).Minds U :=
  ⟨h⟩

theorem modify {u : World → World} (h : ∀ w, U.keeps w (u w)) : (Job.modify u).Minds U := ⟨h⟩

end Minds

end Job

/-! Utilities. -/

abbrev Invocation.acting (run : Invocation) (aside : World → World → Prop) : Upkeep :=
  Console.acting run.console aside

namespace Utility

open Console Job

variable (run : Invocation) {aside : World → World → Prop}

theorem copyLines_acts (limit : Nat) (w : World) :
    (run.acting aside).keeps w (copyLines run limit w) := by
  induction limit generalizing w with
  | zero => exact Upkeep.refl _ w
  | succ limit ih =>
    have hread := acting_readLine run.console aside w
    simp only [copyLines]
    split <;> rename_i h <;> rw [h] at hread
    · exact hread
    · exact Upkeep.trans _ (Upkeep.trans _ hread (acting_writeLine ..)) (ih _)

theorem catFiles_acts (code : Int) (args : List String) (w : World) :
    (run.acting aside).keeps w (catFiles run code args w).2 := by
  induction args generalizing code w with
  | nil => exact Upkeep.refl _ w
  | cons arg args ih =>
    simp only [catFiles]
    split
    · exact Upkeep.trans _ (acting_write ..) (ih ..)
    · exact Upkeep.trans _ (acting_writeLine ..) (ih ..)

theorem cat_acts (w : World) : (run.acting aside).keeps w (cat run w).2 := by
  unfold cat
  split
  · exact copyLines_acts run _ w
  · exact catFiles_acts run 0 _ w

theorem chmodFiles_acts (value : Bool) (code : Int) (args : List String) (w : World) :
    (run.acting aside).keeps w (chmodFiles run value code args w).2 := by
  induction args generalizing code w with
  | nil => exact Upkeep.refl _ w
  | cons arg args ih =>
    have hset :=
      acting_change run.console aside w (run.fs w) (run.target w arg) (.setExecutable value)
    simp only [chmodFiles]
    split <;> rename_i h <;> rw [h] at hset
    · exact Upkeep.trans _ hset (ih ..)
    · exact Upkeep.trans _ (Upkeep.trans _ hset (acting_writeLine ..)) (ih ..)

theorem chmod_acts (w : World) : (run.acting aside).keeps w (chmod run w).2 := by
  unfold chmod
  split
  · exact Upkeep.refl _ w
  · dsimp only
    split_ifs
    · exact chmodFiles_acts ..
    · exact chmodFiles_acts ..
    · exact Upkeep.refl _ w

theorem mkdirTargets_acts (parents : Bool) (code : Int) (args : List String) (w : World) :
    (run.acting aside).keeps w (mkdirTargets run parents code args w).2 := by
  induction args generalizing code w with
  | nil => exact Upkeep.refl _ w
  | cons arg args ih =>
    have hmake := acting_change run.console aside w (run.fs w) (run.target w arg) .makeDirectory
    simp only [mkdirTargets]
    split
    · split
      · exact ih ..
      · exact Upkeep.trans _ (acting_writeLine ..) (ih ..)
    · split <;> rename_i h <;> rw [h] at hmake
      · exact Upkeep.trans _ hmake (ih ..)
      · exact Upkeep.trans _ (Upkeep.trans _ hmake (acting_writeLine ..)) (ih ..)

theorem mkdir_acts (w : World) : (run.acting aside).keeps w (mkdir run w).2 := by
  unfold mkdir
  split
  · exact Upkeep.refl _ w
  · exact mkdirTargets_acts ..

theorem writeLines_acts (w : World) (lines : List String) :
    (run.acting aside).keeps w (writeLines run w lines) := by
  unfold writeLines
  induction lines generalizing w with
  | nil => exact Upkeep.refl _ w
  | cons line lines ih => exact Upkeep.trans _ (acting_writeLine ..) (ih _)

theorem heading_acts (w : World) (many first : Bool) (arg : String) :
    (run.acting aside).keeps w (heading run w many first arg) := by
  unfold heading
  split_ifs
  · exact Upkeep.refl _ w
  · exact acting_writeLine ..
  · exact Upkeep.trans _ (acting_write ..) (acting_writeLine ..)

theorem lsTargets_acts (many first : Bool) (code : Int) (args : List String) (w : World) :
    (run.acting aside).keeps w (lsTargets run many first code args w).2 := by
  induction args generalizing first code w with
  | nil => exact Upkeep.refl _ w
  | cons arg args ih =>
    have hheading : (run.acting aside).keeps w (heading run w many first arg) :=
      heading_acts run w many first arg
    simp only [lsTargets]
    split
    · exact Upkeep.trans _ (acting_writeLine ..) (ih ..)
    · split
      · exact Upkeep.trans _ (acting_writeLine ..) (ih ..)
      · split
        · exact hheading
        · exact Upkeep.trans _ (Upkeep.trans _ hheading (writeLines_acts ..)) (ih ..)

theorem ls_acts (w : World) : (run.acting aside).keeps w (ls run w).2 := lsTargets_acts ..

theorem ps_acts (w : World) : (run.acting aside).keeps w (ps run w).2 := writeLines_acts ..

theorem pwd_acts (w : World) : (run.acting aside).keeps w (pwd run w).2 :=
  acting_writeLine ..

theorem whoami_acts (w : World) : (run.acting aside).keeps w (whoami run w).2 :=
  acting_writeLine ..

theorem pingFrom_acts (network : Nat) (address : String) (sequence left : Nat) :
    (pingFrom run network address sequence left).Minds (run.acting aside) := by
  induction left generalizing sequence with
  | zero => exact Minds.pure 0
  | succ left ih =>
    refine Minds.get.bind fun w => ?_
    refine (Minds.modify fun _ => acting_writeLine ..).bind fun _ => ?_
    exact Minds.pause.bind fun _ => (ih _).bind fun others => Minds.pure _

theorem ping_acts : (ping run).Minds (run.acting aside) := by
  have hsay (text : String) : (Job.modify (run.writeLine · text)).Minds (run.acting aside) :=
    Minds.modify fun _ => acting_writeLine ..
  unfold ping
  split
  · exact Minds.throw _
  · refine Minds.get.bind fun w => ?_
    split
    · exact (hsay _).bind fun _ => Minds.pure 2
    · split
      · exact (hsay _).bind fun _ => Minds.pure 2
      · refine (hsay _).bind fun _ => (pingFrom_acts run ..).bind fun received => ?_
        exact (hsay _).bind fun _ => Minds.pure _

theorem change_acts (fs : FileSystem) (path : String) (c : Change) :
    (change fs path c).Minds (run.acting aside) :=
  Minds.step fun _ => acting_change ..

theorem deleteEach_acts (fs : FileSystem) (c : Change) (paths : List String) :
    (deleteEach fs c paths).Minds (run.acting aside) := by
  induction paths with
  | nil => exact Minds.pure ()
  | cons path paths ih =>
    exact (change_acts run fs path c).bind fun _ => Minds.pause.bind fun _ => ih

theorem removeFiles_acts (fs : FileSystem) (limit : Nat) (pending visited : List String) :
    (removeFiles fs limit pending visited).Minds (run.acting aside) := by
  induction limit generalizing pending visited with
  | zero =>
    cases pending with
    | nil => exact Minds.pure visited
    | cons dir pending => exact Minds.exhausted
  | succ limit ih =>
    cases pending with
    | nil => exact Minds.pure visited
    | cons dir pending =>
      refine (Minds.step fun w => Upkeep.refl _ w).bind fun files => ?_
      refine (deleteEach_acts run fs .deleteFile files).bind fun _ => ?_
      exact (Minds.step fun w => Upkeep.refl _ w).bind fun dirs => ih ..

theorem rmTarget_acts (limit : Nat) (fs : FileSystem) (recursive force : Bool)
    (arg target : String) :
    (rmTarget limit fs recursive force arg target).Minds (run.acting aside) := by
  refine Minds.get.bind fun w => ?_
  split
  · exact change_acts ..
  split
  · split
    · exact Minds.pure ()
    · exact Minds.throw _
  split
  · exact (removeFiles_acts ..).bind fun visited => deleteEach_acts ..
  · exact Minds.throw _

theorem rmTargets_acts (limit : Nat) (recursive force : Bool) (code : Int) (args : List String) :
    (rmTargets run limit recursive force code args).Minds (run.acting aside) := by
  induction args generalizing code with
  | nil => exact Minds.pure code
  | cons arg args ih =>
    refine Minds.get.bind fun w => (rmTarget_acts ..).attempt.bind fun result => ?_
    cases result with
    | ok _ => exact ih _
    | error fault => exact (Minds.modify fun _ => acting_writeLine ..).bind fun _ => ih _

theorem rm_acts (limit : Nat) : (rm run limit).Minds (run.acting aside) := by
  unfold rm
  split
  · exact Minds.throw _
  · exact rmTargets_acts ..

end Utility

theorem Program.run_acts (aside : World → World → Prop) (program : Program) (limit : Nat)
    (run : Invocation) : (program.run limit run).Minds (run.acting aside) := by
  cases program with
  | cat => exact Job.Minds.update (Utility.cat_acts run)
  | chmod => exact Job.Minds.step (Utility.chmod_acts run)
  | ls => exact Job.Minds.step (Utility.ls_acts run)
  | mkdir => exact Job.Minds.step (Utility.mkdir_acts run)
  | ping => exact Utility.ping_acts run
  | ps => exact Job.Minds.update (Utility.ps_acts run)
  | pwd => exact Job.Minds.update (Utility.pwd_acts run)
  | rm => exact Utility.rm_acts run limit
  | whoami => exact Job.Minds.update (Utility.whoami_acts run)

end ToyUnix
