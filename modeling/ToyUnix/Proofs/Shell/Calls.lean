import ToyUnix.Proofs.Shell.Turns

/-!
Calls on a stage. A call puts its frame into the scope of the context that declares the function,
runs the body there, and takes the frame off again. For the body the frame is one that the others
leave alone; for the caller it is one more frame of its own.
-/

set_option autoImplicit false

namespace ToyUnix

open World (Framed Agree Clean Issued grown)

namespace World

def pushed (w : World) (i : Nat) (name : String) (args : List String) : World :=
  w.updateScope i fun scope => (scope.push name args).2

def popped (w : World) (i id : Nat) : World := w.updateScope i (·.pop id)

variable {w : World} {i : Nat}

theorem updateScope_const (w : World) (i : Nat) (f : Scope → Scope) :
    (w.updateScope i fun _ => f (w.scope i)) = w.updateScope i f := by
  unfold updateScope
  congr 1
  refine List.ext_getElem? fun s => ?_
  rw [List.getElem?_modify, List.getElem?_modify]
  split
  · rename_i his
    subst his
    unfold scope
    cases w.scopes[i]? <;> rfl
  · rfl

theorem scope_pushed (h : i < w.scopes.length) (name : String) (args : List String) (s : Nat) :
    (w.pushed i name args).scope s =
      if s = i then ((w.scope i).push name args).2 else w.scope s :=
  scope_updateScope h _ s

theorem scope_popped (h : i < w.scopes.length) (id s : Nat) :
    (w.popped i id).scope s = if s = i then (w.scope i).pop id else w.scope s :=
  scope_updateScope h _ s

theorem frames_pushed (h : i < w.scopes.length) (name : String) (args : List String) :
    ((w.pushed i name args).scope i).frames =
      ⟨(w.scope i).nextFrame, name, args⟩ :: (w.scope i).frames := by
  rw [scope_pushed h, if_pos rfl]
  rfl

theorem Framed.pushed (hw : w.Framed) (h : i < w.scopes.length) (name : String)
    (args : List String) : (w.pushed i name args).Framed := by
  constructor
  all_goals
    intro s
    rw [scope_pushed h]
    by_cases hs : s = i
  · rw [if_pos hs]
    exact List.pairwise_cons.2 ⟨hw.fresh i, hw.sorted i⟩
  · rw [if_neg hs]
    exact hw.sorted s
  · rw [if_pos hs]
    refine List.forall_mem_cons.2 ⟨Nat.lt_succ_self _, fun frame hmem => ?_⟩
    exact Nat.lt_succ_of_lt (hw.fresh i frame hmem)
  · rw [if_neg hs]
    exact hw.fresh s

theorem numbers_pushed (h : i < w.scopes.length) (name : String) (args : List String) (s : Nat) :
    ((w.pushed i name args).scope s).nextFrame =
      (w.scope s).nextFrame + if s = i then 1 else 0 := by
  rw [scope_pushed h]
  split
  case isTrue hs => rw [hs]; rfl
  case isFalse => rfl

theorem mem_pushed (h : i < w.scopes.length) (name : String) (args : List String) {s : Nat}
    {frame : Frame} (hframe : s = i → frame.id ≠ (w.scope i).nextFrame) :
    frame ∈ ((w.pushed i name args).scope s).frames ↔ frame ∈ (w.scope s).frames := by
  by_cases hs : s = i
  · subst hs
    rw [frames_pushed h, List.mem_cons]
    exact or_iff_right fun heq => hframe rfl (heq ▸ rfl)
  · rw [scope_pushed h, if_neg hs]

theorem grown_pushed (h : i < w.scopes.length) (name : String) (args : List String) (mine : Marks) :
    grown mine w (w.pushed i name args) =
      fun s id => mine s id ∨ s = i ∧ id = (w.scope i).nextFrame := by
  funext s id
  have hnumber := numbers_pushed h name args s
  simp only [grown, hnumber]
  by_cases hs : s = i
  · subst hs
    simp only [if_true, true_and]
    congr 1
    simp only [eq_iff_iff]
    omega
  · simp only [hs, if_false, false_and, or_false, Nat.add_zero, eq_iff_iff, or_iff_left_iff_imp]
    omega

theorem mem_popped (hw : w.Framed) (h : i < w.scopes.length) (id : Nat) {s : Nat} {frame : Frame} :
    frame ∈ ((w.popped i id).scope s).frames ↔
      frame ∈ (w.scope s).frames ∧ ¬ (s = i ∧ frame.id = id) := by
  rw [scope_popped h]
  by_cases hs : s = i
  · subst hs
    simp only [if_true, true_and]
    exact Scope.mem_pop (hw.sorted s)
  · simp [hs]

theorem numbers_popped (h : i < w.scopes.length) (id s : Nat) :
    ((w.popped i id).scope s).nextFrame = (w.scope s).nextFrame := by
  rw [scope_popped h]
  split
  case isTrue hs => rw [hs]; rfl
  case isFalse => rfl

theorem Framed.popped (hw : w.Framed) (h : i < w.scopes.length) (id : Nat) :
    (w.popped i id).Framed := by
  constructor
  · intro s
    rw [scope_popped h]
    split
    · exact (hw.sorted i).sublist List.eraseP_sublist
    · exact hw.sorted s
  · intro s frame hmem
    rw [numbers_popped h]
    exact hw.fresh s frame ((mem_popped hw h id).1 hmem).1

end World

namespace Upkeep

/-- Frames may come and go. -/
structure Framing (U : Upkeep) : Prop where
  pushed : ∀ (w : World) i name args, i < w.scopes.length → U.keeps w (w.pushed i name args)
  popped : ∀ (w : World) i id, i < w.scopes.length → U.keeps w (w.popped i id)

variable {U : Upkeep} {w : World} {i : Nat}

theorem Framing.turn_pushed (hU : U.Framing) (h : i < w.scopes.length) (name : String)
    (args : List String) (mine : Marks) : Turn U mine w (w.pushed i name args) where
  keeps := hU.pushed w i name args h
  scopes := Nat.le_of_eq (World.length_updateScope ..).symm
  numbers s := by
    rw [World.numbers_pushed h]
    omega
  framed hw := hw.pushed h name args
  others s frame hother := by
    rw [World.grown_pushed h] at hother
    exact World.mem_pushed h name args fun hs hid => hother (.inr ⟨hs, hid⟩)

theorem Framing.turn_popped (hU : U.Framing) (hw : w.Framed) (h : i < w.scopes.length) {id : Nat}
    {mine : Marks} (hmine : mine i id) : Turn U mine w (w.popped i id) where
  keeps := hU.popped w i id h
  scopes := Nat.le_of_eq (World.length_updateScope ..).symm
  numbers s := Nat.le_of_eq (World.numbers_popped h id s).symm
  framed _ := hw.popped h id
  others s frame hother := by
    rw [World.mem_popped hw h]
    refine and_iff_left ?_
    rintro ⟨rfl, rfl⟩
    exact hother (.inl hmine)

end Upkeep

namespace Stage

variable {U : Upkeep} {level : Level}

/-- The stage of a body whose call has put frame `id` into scope `i`. -/
def enter (S : Stage U level) (i id : Nat) (start : World) (framed : start.Framed) :
    Stage U level :=
  { S with base := fun s n => S.base s n ∨ s = i ∧ n = id, start, framed }

/-- The frames in `least` are left alone, and the one of the call whose body begins here. -/
structure Hosts (S : Stage U level) (least : Marks) (owner : Context) : Prop where
  least : ∀ s id, least s id → S.base s id
  own : ∀ frame ∈ (S.start.scope owner.ownScope).frames.head?, S.base owner.ownScope frame.id

def restart (S : Stage U level) (start : World) (framed : start.Framed) : Stage U level :=
  { S with start, framed }

variable {S : Stage U level} {mine : Marks} {w : World}

theorem Ready.enter (h : S.Ready mine w) {i : Nat} (hi : i < w.scopes.length) (name : String)
    (args : List String) (hw : (w.pushed i name args).Framed) :
    (S.enter i (w.scope i).nextFrame _ hw).Ready mine (w.pushed i name args) := by
  have hnot : ∀ s id, mine s id → ¬ (s = i ∧ id = (w.scope i).nextFrame) := by
    rintro s id hmine ⟨rfl, rfl⟩
    exact Nat.lt_irrefl _ (h.issued _ _ hmine)
  have hissued {marks : Marks} (hmarks : Issued marks w) : Issued marks (w.pushed i name args) := by
    intro s id hid
    have := hmarks s id hid
    rw [World.numbers_pushed hi]
    omega
  refine
    { onward := Onward.refl .., issued := hissued h.issued, apart := ?_, clean := ?_,
      agree := Agree.refl _ _ }
  · refine h.apart.imp_right fun ⟨hbase, hapart⟩ => ⟨?_, ?_⟩
    · rintro s id (hid | ⟨rfl, rfl⟩)
      · exact hissued hbase s id hid
      · rw [World.numbers_pushed hi, if_pos rfl]
        exact Nat.lt_succ_self _
    · rintro s id (hid | hown) hmine
      · exact hapart s id hid hmine
      · exact hnot s id hmine hown
  · intro s frame hmem hmine
    rw [World.mem_pushed hi name args fun hs hid => hnot s _ hmine ⟨hs, hid⟩] at hmem
    exact h.clean s frame hmem hmine

theorem Ready.restart (h : S.Ready mine w) (hw : w.Framed) : (S.restart w hw).Ready mine w :=
  { h with onward := Onward.refl .., agree := Agree.refl _ _ }

end Stage

namespace Course.Leads

variable {U : Upkeep} {level : Level} {S : Stage U level} {i id : Nat}
variable {start : World} {framed : start.Framed}

/-- A body in its caller. The frame of the call is one of the caller's own until it is taken off. -/
theorem leave {c d : Course World (Except Fault Int)} {mine : Marks} {w : World}
    (hframing : U.Framing) (hi : i < w.scopes.length)
    (hfits : S.Fits (fun s n => mine s n ∨ s = i ∧ n = id) w)
    (hnew : ∀ frame ∈ (S.start.scope i).frames, frame.id ≠ id)
    (hstart : ∀ s (frame : Frame), S.base s frame.id → ¬ (s = i ∧ frame.id = id) →
      (frame ∈ (start.scope s).frames ↔ frame ∈ (S.start.scope s).frames))
    (hbody : Leads (S.enter i id start framed) mine w c d)
    (f : Except Fault Int → Except Fault Int) :
    Leads S (fun s n => mine s n ∨ s = i ∧ n = id) w
      (c.bind fun w result => .done (w.popped i id) (f result))
      (d.bind fun w result => .done (w.popped i id) (f result)) := by
  induction c generalizing mine w d with
  | exhausted => trivial
  | done s result =>
    obtain ⟨rfl, hturn, hclean, hagree⟩ := hbody
    have hwide : Turn U (fun s n => mine s n ∨ s = i ∧ n = id) w s := hturn.mono fun _ _ => .inl
    have hframed := hturn.framed hfits.framed
    have his : i < s.scopes.length := Nat.lt_of_lt_of_le hi hturn.scopes
    have hpop : Turn U (grown (fun s n => mine s n ∨ s = i ∧ n = id) w s) s (s.popped i id) :=
      hframing.turn_popped hframed his (.inl (.inr ⟨rfl, rfl⟩))
    refine ⟨rfl, hwide.trans hpop, ?_, ?_⟩
    · rw [← hwide.toOnward.grown_grown hpop.toOnward, World.grown_or]
      intro n frame hmem
      obtain ⟨hmem, hown⟩ := (World.mem_popped hframed his id).1 hmem
      rintro ((hmine | hthis) | hnone)
      · exact hclean n frame hmem hmine
      · exact hown hthis
      · rw [World.numbers_popped his] at hnone
        exact Nat.not_lt.2 hnone.1 hnone.2
    · intro n frame hbase
      rw [World.mem_popped hframed his]
      by_cases hown : n = i ∧ frame.id = id
      · obtain ⟨rfl, rfl⟩ := hown
        simp only [and_self, not_true, and_false, false_iff]
        exact fun hmem => hnew frame hmem rfl
      · rw [and_iff_left hown, hagree n frame (.inl hbase)]
        exact hstart n frame hbase hown
  | pause s resume ih =>
    obtain ⟨resume', rfl, hturn, hrest⟩ := hbody
    have hwide : Turn U (fun s n => mine s n ∨ s = i ∧ n = id) w s := hturn.mono fun _ _ => .inl
    refine ⟨_, rfl, hwide, fun t ht => ?_⟩
    have hfits' := (hfits.turn hwide).rest ht
    have hit := Nat.lt_of_lt_of_le hi (Nat.le_trans hturn.scopes ht.scopes)
    rw [World.grown_or] at ht hfits' ⊢
    refine ih t hit hfits' (hrest t (ht.mono fun n m => ?_))
    rintro ((hbase | hown) | hmine)
    · exact .inl hbase
    · exact .inr (.inr hown)
    · exact .inr (.inl hmine)

theorem of_restart {α : Type} {c d : Course World α} {mine : Marks} {w : World}
    (h : Leads (S.restart start framed) mine w c d) (hagree : Agree S.base S.start start) :
    Leads S mine w c d := by
  induction c generalizing mine w d with
  | exhausted => trivial
  | done s a =>
    obtain ⟨rfl, hturn, hclean, hagree'⟩ := h
    exact ⟨rfl, hturn, hclean, hagree.trans hagree'⟩
  | pause s resume ih =>
    obtain ⟨resume', rfl, hturn, hrest⟩ := h
    exact ⟨_, rfl, hturn, fun t ht => ih t (hrest t ht)⟩

end Course.Leads

theorem Course.bind_map {σ α β γ : Type} (c : Course σ α) (f : α → β) (g : σ → β → Course σ γ) :
    (c.map f).bind g = c.bind fun s a => g s (f a) := by
  induction c with
  | done s a => rfl
  | pause s resume ih => exact congrArg _ (funext ih)
  | exhausted => rfl

namespace Job

variable {α β : Type}

theorem get_bind (f : World → Job β) (w : World) : (Job.get >>= f) w = f w w := rfl

theorem modify_bind (u : World → World) (f : Unit → Job β) (w : World) :
    (Job.modify u >>= f) w = f () (u w) := rfl

theorem update_bind (u : World → α × World) (f : α → Job β) (w : World) :
    (Job.update u >>= f) w = f (u w).1 (u w).2 := rfl

theorem step_bind {u : World → Except Fault α × World} {w v : World} {a : α}
    (h : u w = (.ok a, v)) (f : α → Job β) : (Job.step u >>= f) w = f a v := by
  have hrun : (Job.step u >>= f) w = Job.bind (fun _ => .done (u w).2 (u w).1) f w := rfl
  rw [hrun, h]
  rfl

theorem attempt_bind (x : Job α) (f : Except Fault α → Job β) (w : World) :
    (Job.attempt x >>= f) w = (x w).bind fun s result => f result s :=
  Course.bind_map (x w) _ _

theorem finish_bind (x : Job α) (f : α → Job β) (w : World) :
    ((x >>= f) w).finish = (x w).finish.bind fun r =>
      match r.2 with
      | .ok a => (f a r.1).finish
      | .error fault => some (r.1, .error fault) := by
  refine (Course.finish_bind (x w) _).trans (congrArg _ (funext fun r => ?_))
  cases r.2 <;> rfl

end Job

theorem callFunction_eq (call : Caller) (owner : Context) (body : Instruction) (console : Console)
    (name : String) (args : List String) (w : World) :
    callFunction call owner body console name args w =
      (call owner console body (w.pushed owner.ownScope name args)).bind fun s result =>
        .done (s.popped owner.ownScope (w.scope owner.ownScope).nextFrame) (catchReturn result) := by
  have hpushed := World.updateScope_const w owner.ownScope fun scope => (scope.push name args).2
  refine (Course.bind_map (call owner console body _) (Except.ok : Except Fault Int → _) _).trans ?_
  change Course.bind _ (call owner console body
    (w.updateScope owner.ownScope fun _ => ((w.scope owner.ownScope).push name args).2)) = _
  rw [hpushed]
  congr 1
  funext s result
  change Job.ofExcept (catchReturn result) _ = _
  cases catchReturn result <;> rfl

theorem runScript_parsed (call : Caller) (shell : Context) (settings : ShellSettings) (w : World)
    {text : String} {tree : Instruction}
    (hparse : parseScript settings.options text true = .ok tree) :
    runScript call shell settings text w =
      (call shell settings.console tree (setMode shell .executing w)).bind fun s result =>
        match catchEnd result with
        | .ok code => .done (setMode shell .idle s) (.ok code)
        | .error fault =>
          (reportFault settings fault >>= fun _ => pure 1 : Job Int) (setMode shell .idle s) := by
  unfold runScript
  rw [hparse]
  refine (Job.attempt_bind (call shell settings.console tree) _ _).trans ?_
  refine congrArg (fun f => Course.bind f _) (funext fun s => funext fun result => ?_)
  cases catchEnd result <;> rfl

namespace Job.Leads

variable {U : Upkeep} {level : Level} {S : Stage U level} {w : World}

theorem callFunction {call call' : Caller} {owner : Context} {body : Instruction}
    {console : Console} {name : String} {args : List String} (hframing : U.Framing)
    (hi : owner.ownScope < w.scopes.length)
    (hbody : ∀ hw : (w.pushed owner.ownScope name args).Framed,
      Leads (S.enter owner.ownScope (w.scope owner.ownScope).nextFrame _ hw)
        (w.pushed owner.ownScope name args) (call owner console body) (call' owner console body)) :
    Leads S w (callFunction call owner body console name args)
      (callFunction call' owner body console name args) := by
  constructor
  intro mine hready
  rw [callFunction_eq, callFunction_eq]
  have hturn := hframing.turn_pushed hi name args mine
  have hw := hready.framed.pushed hi name args
  have hfits := hready.toFits.turn hturn
  rw [World.grown_pushed hi] at hfits
  refine Course.Leads.after hturn ?_
  rw [World.grown_pushed hi]
  refine Course.Leads.leave hframing (Nat.lt_of_lt_of_le hi hturn.scopes) hfits ?_ ?_
    ((hbody hw).course mine (hready.enter hi name args hw)) catchReturn
  · intro frame hmem
    have := S.framed.fresh _ frame hmem
    have := hready.onward.numbers owner.ownScope
    omega
  · intro s frame hbase hother
    rw [World.mem_pushed hi name args fun hs hid => hother ⟨hs, hid⟩]
    exact hready.agree s frame hbase

theorem of_restart {α : Type} {x y : Job α} (h : ∀ hw : w.Framed, Leads (S.restart w hw) w x y) :
    Leads S w x y where
  course mine hready :=
    ((h hready.framed).course mine (hready.restart _)).of_restart hready.agree

end Job.Leads

end ToyUnix
