import ToyUnix.Proofs.Shell.Graceful
import ToyUnix.Proofs.Shell.Parameters

/-!
Unwinding. However a run ends, each call has taken its own frame off its stack, also where frames
that others have put there meanwhile lie above it. So the stacks are at the end as they were at the
beginning, but for what others have done to their own frames: see `frames_restored`.
-/

set_option autoImplicit false

namespace ToyUnix

open World (Framed Agree Clean Issued grown)

/-- The course, in a turn that began at `v` with the frames in `mine` put up by itself, comes to its
end `e`, when the frames in `own` are those that it has put up. Others take their turns at each of its
pauses, in any way that leaves alone the frames in `base` and the course's own. -/
inductive Course.EndsAmong {α : Type} (base : Marks) :
    Marks → World → Course World α → Marks → World → α → Prop
  | done {mine : Marks} {v s : World} {a : α} :
    EndsAmong base mine v (.done s a) (grown mine v s) s a
  | pause {mine own : Marks} {v s t e : World} {resume : World → Course World α} {a : α}
      (hothers : Rest Regime.lax.toUpkeep (fun i id => base i id ∨ grown mine v s i id) s t)
      (hrest : EndsAmong base (grown mine v s) t (resume t) own e a) :
    EndsAmong base mine v (.pause s resume) own e a

namespace Course

variable {α : Type}

def finishAmong (others : World → World) : Course World α → Option (World × α)
  | .done s a => some (s, a)
  | .pause s resume => finishAmong others (resume (others s))
  | .exhausted => none

theorem exists_endsAmong {others : World → World}
    (hothers : ∀ s, s.Framed → Turn Regime.lax.toUpkeep (fun _ _ => False) s (others s))
    {S : Stage Regime.lax.toUpkeep .free} {base mine : Marks} {v e : World} {c d : Course World α}
    {a : α} (hbelow : ∀ i id, S.base i id → base i id) (hbase : Issued base v)
    (hmine : Issued mine v) (hv : v.Framed) (hleads : Leads S mine v c d)
    (h : c.finishAmong others = some (e, a)) : ∃ own, EndsAmong base mine v c own e a := by
  induction c generalizing mine v d with
  | exhausted => cases h
  | done s b =>
    cases h
    exact ⟨_, .done⟩
  | pause s resume ih =>
    obtain ⟨resume', -, hturn, hresume⟩ := hleads
    have hissued : Issued (fun i id => base i id ∨ grown mine v s i id) s := fun i id hmark =>
      hmark.elim (hturn.issued hbase i id) (hturn.issued_grown hmine i id)
    have hother := hothers s (hturn.framed hv)
    have hrest : Rest Regime.lax.toUpkeep (fun i id => base i id ∨ grown mine v s i id) s
        (others s) :=
      { hother.toOnward with kept := hother.agree hissued fun _ _ _ h => h }
    obtain ⟨own, hlater⟩ := ih (others s) (hrest.issued (hturn.issued hbase))
      (hrest.issued (hturn.issued_grown hmine)) (hrest.framed (hturn.framed hv))
      (hresume _ (hrest.mono fun i id => Or.imp_left (hbelow i id))) h
    exact ⟨own, .pause hrest hlater⟩

theorem Leads.endsAmong {S : Stage Regime.lax.toUpkeep .free} {base mine own : Marks} {v e : World}
    {c d : Course World α} {a : α} (hleads : Leads S mine v c d) (h : EndsAmong base mine v c own e a)
    (hbelow : ∀ i id, S.base i id → base i id) (hissued : Issued base v)
    (hapart : ∀ i id, base i id → ¬ mine i id) (hv : v.Framed) :
    e.Framed ∧ Agree base v e ∧ Clean own e := by
  induction h generalizing d with
  | done =>
    obtain ⟨-, hturn, hclean, -⟩ := hleads
    exact ⟨hturn.framed hv, hturn.agree hissued hapart, hclean⟩
  | pause hothers hrest ih =>
    obtain ⟨resume', -, hturn, hresume⟩ := hleads
    have hagree := (hturn.agree hissued hapart).trans (hothers.kept.mono fun _ _ => .inl)
    obtain ⟨hframed, hlater, hclean⟩ :=
      ih (hresume _ (hothers.mono fun i id => Or.imp_left (hbelow i id)))
        (hothers.issued (hturn.issued hissued)) (hissued.apart hapart)
        (hothers.framed (hturn.framed hv))
    exact ⟨hframed, hagree.trans hlater, hclean⟩

end Course

def Stage.bare : Stage Regime.lax.toUpkeep .free where
  base _ _ := False
  start := {}
  framed := ⟨fun _ => .nil, fun _ _ h => nomatch h⟩

theorem Stage.bare_ready {w : World} (hw : w.Framed) : Stage.bare.Ready (fun _ _ => False) w where
  onward := ⟨trivial, Nat.zero_le _, fun _ => Nat.zero_le _, fun _ => hw⟩
  issued _ _ h := h.elim
  apart := .inr ⟨fun _ _ h => h.elim, fun _ _ h => h.elim⟩
  clean _ _ _ h := h
  agree _ _ h := h.elim

theorem leads_execute {w : World} (hw : w.Framed) (depth : Nat) (ctx : Context) (console : Console)
    (tree : Instruction) :
    Course.Leads Stage.bare (fun _ _ => False) w (execute depth ctx console tree w)
      (execute depth ctx console tree w) := by
  have hready := Stage.bare_ready hw
  have hhosts : Stage.bare.Hosts (fun _ _ => False) ctx := ⟨fun _ _ h => h, fun _ h => nomatch h⟩
  have hallows : Regime.lax.Allows .free (fun _ _ => False) unwatched :=
    fun _ _ _ _ _ _ _ _ _ _ => rfl
  rw [← executeWatched_true]
  cases depth with
  | zero => exact (Job.Leads.exhausted _).course _ hready
  | succ depth =>
    exact (Regime.leads_runWatched depth (Regime.lax.runs_executeWatched hallows none depth) hallows
      hhosts tree console hready.onward .here trivial).course _ hready

/-- The stacks of frames are restored, whether the run ends with a status, a fault, an `exit` or a
`return`. By itself, with all its branches, it leaves each stack as it was. And if others take turns
with it, as a branch of a parallel command does with the other branch, the frames that they leave
alone are where they were when it ends, and none that it has put up itself is left. -/
theorem frames_restored {w : World} (hw : w.Framed) (depth : Nat) (ctx : Context)
    (console : Console) (tree : Instruction) :
    (∀ s result, (execute depth ctx console tree w).finish = some (s, result) →
      ∀ i, (s.scope i).frames = (w.scope i).frames) ∧
    ∀ base own s result, Issued base w →
      (execute depth ctx console tree w).EndsAmong base (fun _ _ => False) w own s result →
      s.Framed ∧ Agree base w s ∧ Clean own s :=
  ⟨fun _ _ hrun => (execute_framed hw hrun).2, fun _ _ _ _ hissued h =>
    (leads_execute hw depth ctx console tree).endsAmong h (fun _ _ h => h.elim) hissued
      (fun _ _ _ h => h) hw⟩

namespace Sample

def busyBox : World :=
  { box with scopes := [{}, { frames := [⟨0, "f", ["a"]⟩], nextFrame := 1 }] }

theorem scope_busyBox (i : Nat) :
    busyBox.scope i = if i = 1 then { frames := [⟨0, "f", ["a"]⟩], nextFrame := 1 } else {} := by
  obtain _ | _ | i := i <;> rfl

theorem busyBox_framed : busyBox.Framed := by
  constructor
  · intro i
    rw [scope_busyBox]
    split
    · exact List.pairwise_singleton ..
    · exact .nil
  · intro i frame hmem
    rw [scope_busyBox] at hmem ⊢
    split at hmem
    · simp_all
    · cases hmem

/-- `g() { ping h; }` and then `g x & g y & return 3`. -/
def overlapping : Instruction :=
  .sequential (.function "g" (.command [] [.ofText "ping", .ofText "h"]))
    (.parallel (.command [] [.ofText "g", .ofText "x"])
      (.parallel (.command [] [.ofText "g", .ofText "y"])
        (.command [] [.ofText "return", .ofText "3"])))

def intruder (w : World) : World := w.pushed 1 "k" []

theorem intruder_turn (w : World) :
    Turn Regime.lax.toUpkeep (fun _ _ => False) w (intruder w) := by
  by_cases h : 1 < w.scopes.length
  · exact Regime.lax.framing.turn_pushed h "k" [] _
  · have hsame : intruder w = w := by
      simp only [intruder, World.pushed, World.updateScope,
        List.modify_eq_self (Nat.not_lt.1 h)]
    rw [hsame]
    exact (Steady.refl _ w).turn _

/-- The calls of `g` overlap, and the run ends with a `return` out of the last branch. -/
theorem overlapping_frames :
    parseScript {} "g() \x7b ping h; \x7d\ng x & g y & return 3" false = .ok overlapping ∧
    busyBox.Framed ∧
    (∃ s, (execute 9 boxShell (.buffer 0) overlapping busyBox).finish =
        some (s, .error (.ended 3 .callee)) ∧ (s.scope 1).frames = [⟨0, "f", ["a"]⟩]) ∧
    ∃ own s, (execute 9 boxShell (.buffer 0) overlapping busyBox).EndsAmong
        (fun i id => i = 1 ∧ id = 0) (fun _ _ => False) busyBox own s (.error (.ended 3 .callee)) ∧
      ⟨0, "f", ["a"]⟩ ∈ (s.scope 1).frames ∧ Clean own s := by
  have halone : ((execute 9 boxShell (.buffer 0) overlapping busyBox).finish.map Prod.snd) =
      some (.error (.ended 3 .callee)) := by
    decide +kernel
  have hamong : ((execute 9 boxShell (.buffer 0) overlapping busyBox).finishAmong intruder).map
      Prod.snd = some (.error (.ended 3 .callee)) := by
    decide +kernel
  obtain ⟨⟨s, _⟩, hs, rfl⟩ := Option.map_eq_some_iff.1 halone
  obtain ⟨⟨t, _⟩, ht, rfl⟩ := Option.map_eq_some_iff.1 hamong
  have hbase : Issued (fun i id => i = 1 ∧ id = 0) busyBox := by
    rintro i id ⟨rfl, rfl⟩
    exact Nat.zero_lt_one
  have hmine : Issued (fun _ _ => False) busyBox := fun _ _ h => h.elim
  obtain ⟨own, hends⟩ := Course.exists_endsAmong (S := Stage.bare) (fun s _ => intruder_turn s)
    (fun _ _ h => h.elim) hbase hmine busyBox_framed
    (leads_execute busyBox_framed 9 boxShell (.buffer 0) overlapping) ht
  obtain ⟨hrestored, hothers⟩ := frames_restored busyBox_framed 9 boxShell (.buffer 0) overlapping
  obtain ⟨-, hagree, hclean⟩ := hothers _ own t _ hbase hends
  exact ⟨by decide +kernel, busyBox_framed, ⟨s, hs, hrestored s _ hs 1⟩, own, t, hends,
    (hagree 1 ⟨0, "f", ["a"]⟩ ⟨rfl, rfl⟩).2 (List.mem_singleton.2 rfl), hclean⟩

end Sample

end ToyUnix
