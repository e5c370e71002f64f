import Mathlib.Data.List.Sort
import ToyUnix.Proofs.Shell.Watched

/-!
Turns. Courses that share a world take turns at it. A call puts a frame into a scope and takes it off
again, and in between the others may put frames into the same scope. Each course answers for the
frames that it has put there itself, and relies on the others to leave alone both those and the
frames of the calls that it is part of. `Leads` says that a course keeps to this and that a second
course goes the same way: through the same states, as long as the first one has enough steps.
-/

set_option autoImplicit false

namespace ToyUnix

/-- Some frames, by the number of their scope and their own. -/
abbrev Marks := Nat → Nat → Prop

namespace World

/-- The newest frame comes first, and the next number is free. -/
structure Framed (w : World) : Prop where
  sorted : ∀ s, (w.scope s).frames.Pairwise fun a b => b.id < a.id
  fresh : ∀ s, ∀ frame ∈ (w.scope s).frames, frame.id < (w.scope s).nextFrame

/-- The marked frames are in the same scopes. -/
def Agree (marks : Marks) (v w : World) : Prop :=
  ∀ s (frame : Frame), marks s frame.id →
    (frame ∈ (w.scope s).frames ↔ frame ∈ (v.scope s).frames)

def Clean (marks : Marks) (w : World) : Prop :=
  ∀ s, ∀ frame ∈ (w.scope s).frames, ¬ marks s frame.id

def Issued (marks : Marks) (w : World) : Prop :=
  ∀ s id, marks s id → id < (w.scope s).nextFrame

def grown (mine : Marks) (v w : World) : Marks := fun s id =>
  mine s id ∨ (v.scope s).nextFrame ≤ id ∧ id < (w.scope s).nextFrame

theorem grown_or (mine more : Marks) (v w : World) :
    grown (fun s id => mine s id ∨ more s id) v w = fun s id => grown mine v w s id ∨ more s id := by
  funext s id
  simp only [grown, or_right_comm]

theorem grown_both (mine theirs : Marks) {u v w : World}
    (huv : ∀ s, (u.scope s).nextFrame ≤ (v.scope s).nextFrame)
    (hvw : ∀ s, (v.scope s).nextFrame ≤ (w.scope s).nextFrame) :
    grown (fun s id => mine s id ∨ theirs s id) u w =
      fun s id => grown mine u v s id ∨ grown theirs v w s id := by
  funext s id
  have := huv s
  have := hvw s
  simp only [grown, eq_iff_iff]
  by_cases hmine : mine s id
  · simp [hmine]
  by_cases htheirs : theirs s id
  · simp [htheirs]
  simp only [hmine, htheirs, false_or]
  omega

theorem Issued.apart {marks mine : Marks} {v w : World} (hissued : Issued marks v)
    (hapart : ∀ s id, marks s id → ¬ mine s id) : ∀ s id, marks s id → ¬ grown mine v w s id := by
  rintro s id hmark (hmine | hnew)
  · exact hapart s id hmark hmine
  · exact Nat.not_lt.2 hnew.1 (hissued s id hmark)

/-- The same frames in the same scopes; there may be more scopes, without frames. -/
structure Still (v w : World) : Prop where
  scopes : v.scopes.length ≤ w.scopes.length
  frames : ∀ s, (w.scope s).frames = (v.scope s).frames
  numbers : ∀ s, (w.scope s).nextFrame = (v.scope s).nextFrame

theorem Still.refl (w : World) : w.Still w := ⟨Nat.le_refl _, fun _ => rfl, fun _ => rfl⟩

theorem Still.trans {u v w : World} (huv : u.Still v) (hvw : v.Still w) : u.Still w :=
  ⟨Nat.le_trans huv.scopes hvw.scopes, fun s => (hvw.frames s).trans (huv.frames s),
    fun s => (hvw.numbers s).trans (huv.numbers s)⟩

theorem Still.framed {v w : World} (h : v.Still w) (hv : v.Framed) : w.Framed := by
  constructor
  · intro s
    rw [h.frames s]
    exact hv.sorted s
  · intro s
    rw [h.frames s, h.numbers s]
    exact hv.fresh s

theorem scope_updateScope {w : World} {i : Nat} (h : i < w.scopes.length) (f : Scope → Scope)
    (s : Nat) : (w.updateScope i f).scope s = if s = i then f (w.scope i) else w.scope s := by
  unfold updateScope scope
  rw [List.getElem?_modify]
  by_cases hs : s = i
  · subst hs
    simp [h]
  · simp [hs, Ne.symm hs]

theorem scope_of_le {w : World} {i : Nat} (h : w.scopes.length ≤ i) : w.scope i = {} := by
  rw [scope, List.getElem?_eq_none h]
  rfl

theorem scope_updateScope_or (w : World) (i : Nat) (f : Scope → Scope) (s : Nat) :
    (w.updateScope i f).scope s = w.scope s ∨
      s = i ∧ (w.updateScope i f).scope s = f (w.scope s) := by
  by_cases hi : i < w.scopes.length
  · rw [scope_updateScope hi]
    split
    case isTrue hs => exact .inr ⟨hs, by rw [hs]⟩
    case isFalse => exact .inl rfl
  · refine .inl (congrArg (World.scope · s) ?_)
    unfold updateScope
    rw [List.modify_eq_self (Nat.not_lt.1 hi)]

@[simp] theorem length_updateScope (w : World) (i : Nat) (f : Scope → Scope) :
    (w.updateScope i f).scopes.length = w.scopes.length :=
  List.length_modify ..

theorem Agree.refl (marks : Marks) (w : World) : Agree marks w w := fun _ _ _ => Iff.rfl

theorem Agree.trans {marks : Marks} {u v w : World} (huv : Agree marks u v)
    (hvw : Agree marks v w) : Agree marks u w :=
  fun s frame h => (hvw s frame h).trans (huv s frame h)

theorem Agree.symm {marks : Marks} {v w : World} (h : Agree marks v w) : Agree marks w v :=
  fun s frame hmark => (h s frame hmark).symm

theorem Agree.mono {marks fewer : Marks} {v w : World} (h : Agree marks v w)
    (hle : ∀ s id, fewer s id → marks s id) : Agree fewer v w :=
  fun s frame hmark => h s frame (hle s _ hmark)

theorem Agree.clean {marks : Marks} {v w : World} (h : Agree marks v w) (hclean : Clean marks v) :
    Clean marks w :=
  fun s frame hmem hmark => hclean s frame ((h s frame hmark).1 hmem) hmark

theorem agree_of_frames {marks : Marks} {v w : World}
    (h : ∀ s, (w.scope s).frames = (v.scope s).frames) : Agree marks v w :=
  fun s frame _ => by rw [h s]

theorem Framed.frames_eq {v w : World} (hv : v.Framed) (hw : w.Framed) {s : Nat}
    (h : ∀ frame : Frame, frame ∈ (w.scope s).frames ↔ frame ∈ (v.scope s).frames) :
    (w.scope s).frames = (v.scope s).frames :=
  have : Std.Asymm fun a b : Frame => b.id < a.id := ⟨fun _ _ hab => Nat.lt_asymm hab⟩
  List.Pairwise.eq_of_mem_iff (hw.sorted s) (hv.sorted s) h

end World

theorem Scope.mem_pop {scope : Scope} (h : scope.frames.Pairwise fun a b => b.id < a.id) {id : Nat}
    {frame : Frame} : frame ∈ (scope.pop id).frames ↔ frame ∈ scope.frames ∧ frame.id ≠ id := by
  change frame ∈ scope.frames.eraseP _ ↔ _
  generalize scope.frames = frames at h
  induction frames with
  | nil => simp
  | cons first rest ih =>
    obtain ⟨hfirst, hrest⟩ := List.pairwise_cons.1 h
    by_cases hid : first.id = id
    · have hne : ∀ other ∈ rest, other.id ≠ id := fun other hmem => by
        have := hfirst other hmem
        omega
      rw [List.eraseP_cons_of_pos (by simpa using hid)]
      constructor
      · exact fun hmem => ⟨List.mem_cons_of_mem _ hmem, hne frame hmem⟩
      · rintro ⟨hmem, hframe⟩
        exact (List.mem_cons.1 hmem).resolve_left fun heq => hframe (heq ▸ hid)
    · rw [List.eraseP_cons_of_neg (by simpa using hid), List.mem_cons, ih hrest, List.mem_cons]
      constructor
      · rintro (rfl | ⟨hmem, hframe⟩)
        · exact ⟨.inl rfl, hid⟩
        · exact ⟨.inr hmem, hframe⟩
      · rintro ⟨rfl | hmem, hframe⟩
        · exact .inl rfl
        · exact .inr ⟨hmem, hframe⟩

open World (Framed Agree Clean Issued grown)

/-- What every turn keeps. -/
structure Upkeep where
  keeps : World → World → Prop
  refl : ∀ w, keeps w w
  trans : ∀ {u v w}, keeps u v → keeps v w → keeps u w

/-- A later state. -/
structure Onward (U : Upkeep) (v w : World) : Prop where
  keeps : U.keeps v w
  scopes : v.scopes.length ≤ w.scopes.length
  numbers : ∀ s, (v.scope s).nextFrame ≤ (w.scope s).nextFrame
  framed : v.Framed → w.Framed

namespace Onward

variable {U : Upkeep} {u v w : World}

theorem refl (U : Upkeep) (w : World) : Onward U w w :=
  ⟨U.refl w, Nat.le_refl _, fun _ => Nat.le_refl _, id⟩

theorem trans (huv : Onward U u v) (hvw : Onward U v w) : Onward U u w :=
  ⟨U.trans huv.keeps hvw.keeps, Nat.le_trans huv.scopes hvw.scopes,
    fun s => Nat.le_trans (huv.numbers s) (hvw.numbers s), hvw.framed ∘ huv.framed⟩

theorem issued {marks : Marks} (h : Onward U v w) (hmarks : Issued marks v) : Issued marks w :=
  fun s id hmark => Nat.lt_of_lt_of_le (hmarks s id hmark) (h.numbers s)

theorem grown_grown (huv : Onward U u v) (hvw : Onward U v w) (mine : Marks) :
    grown (grown mine u v) v w = grown mine u w := by
  funext s id
  have := huv.numbers s
  have := hvw.numbers s
  simp only [grown, eq_iff_iff]
  by_cases hmine : mine s id
  · simp [hmine]
  · simp only [hmine, false_or]
    omega

theorem issued_grown {mine : Marks} (h : Onward U v w) (hmine : Issued mine v) :
    Issued (grown mine v w) w := by
  rintro s id (hid | hid)
  · exact h.issued hmine s id hid
  · exact hid.2

end Onward

/-- A turn that leaves all frames alone. -/
structure Steady (U : Upkeep) (v w : World) : Prop extends v.Still w where
  keeps : U.keeps v w

/-- A turn of the course that answers for the frames in `mine`. -/
structure Turn (U : Upkeep) (mine : Marks) (v w : World) : Prop extends Onward U v w where
  others : Agree (fun s id => ¬ grown mine v w s id) v w

/-- What a course finds when it is its turn again. -/
structure Rest (U : Upkeep) (kept : Marks) (v w : World) : Prop extends Onward U v w where
  kept : Agree kept v w

namespace Steady

variable {U : Upkeep} {v w : World}

theorem refl (U : Upkeep) (w : World) : Steady U w w := ⟨.refl w, U.refl w⟩

theorem onward (h : Steady U v w) : Onward U v w where
  keeps := h.keeps
  scopes := h.scopes
  numbers s := Nat.le_of_eq (h.numbers s).symm
  framed := h.toStill.framed

theorem grown_eq (h : Steady U v w) (mine : Marks) : grown mine v w = mine := by
  funext s id
  have := h.numbers s
  simp only [grown, eq_iff_iff, or_iff_left_iff_imp]
  omega

theorem turn (h : Steady U v w) (mine : Marks) : Turn U mine v w :=
  { h.onward with others := World.agree_of_frames h.frames }

end Steady

namespace Turn

variable {U : Upkeep} {mine : Marks} {u v w : World}

theorem trans (huv : Turn U mine u v) (hvw : Turn U (grown mine u v) v w) : Turn U mine u w := by
  have hgrown := huv.toOnward.grown_grown hvw.toOnward mine
  refine { huv.toOnward.trans hvw.toOnward with others := ?_ }
  refine Agree.trans (huv.others.mono ?_) (hgrown ▸ hvw.others)
  intro s id hother hfirst
  rw [← hgrown] at hother
  exact hother (.inl hfirst)

theorem agree {marks : Marks} (h : Turn U mine v w) (hissued : Issued marks v)
    (hapart : ∀ s id, marks s id → ¬ mine s id) : Agree marks v w :=
  h.others.mono (hissued.apart hapart)

theorem mono {more : Marks} (h : Turn U mine v w) (hle : ∀ s id, mine s id → more s id) :
    Turn U more v w :=
  { h.toOnward with
    others := h.others.mono fun s id hother hmine => hother (hmine.imp_left (hle s id)) }

theorem clean {marks : Marks} (h : Turn U mine v w) (hclean : Clean marks v)
    (hissued : Issued marks v) (hapart : ∀ s id, marks s id → ¬ mine s id) : Clean marks w :=
  (h.agree hissued hapart).clean hclean

theorem rest {base marks : Marks} (h : Turn U mine v w) (hbase : Agree base v w)
    (hissued : Issued marks v) (hapart : ∀ s id, marks s id → ¬ mine s id) :
    Rest U (fun s id => base s id ∨ marks s id) v w :=
  { h.toOnward with
    kept := fun s frame hmark =>
      hmark.elim (hbase s frame) (h.agree hissued hapart s frame) }

end Turn

namespace Rest

variable {U : Upkeep} {kept : Marks} {u v w : World}

theorem trans (huv : Rest U kept u v) (hvw : Rest U kept v w) : Rest U kept u w :=
  { huv.toOnward.trans hvw.toOnward with kept := huv.kept.trans hvw.kept }

theorem mono {fewer : Marks} (h : Rest U kept v w) (hle : ∀ s id, fewer s id → kept s id) :
    Rest U fewer v w :=
  { h.toOnward with kept := h.kept.mono hle }

end Rest

/-- Branches take turns only while no call is open that one of them began. -/
def Level.Strict (level : Level) : Prop :=
  ∀ v w s, level v w = true → (w.scope s).frames = (v.scope s).frames

theorem Level.calm_strict : Level.calm.Strict := by
  intro v w s h
  by_cases hs : s < max v.scopes.length w.scopes.length
  · simpa using List.all_eq_true.1 h s (List.mem_range.2 hs)
  · rw [World.scope_of_le (by omega), World.scope_of_le (by omega)]

/-- Where a course runs that takes turns with others. -/
structure Stage (U : Upkeep) (level : Level) where
  /-- The frames that the others leave alone. -/
  base : Marks
  /-- The frames in `base` are as they were here whenever the course has no call of its own open. -/
  start : World
  framed : start.Framed

namespace Stage

variable {U : Upkeep} {level : Level}

/-- The stage of a course with nobody else about: all frames that there are stay. -/
def alone (U : Upkeep) (level : Level) (least : Marks) {w : World} (hw : w.Framed) :
    Stage U level :=
  ⟨fun i id => id < (w.scope i).nextFrame ∨ least i id, w, hw⟩

/-- A state that a course on the stage may be in, the frames in `mine` being its own. -/
structure Fits (S : Stage U level) (mine : Marks) (w : World) : Prop where
  onward : Onward U S.start w
  issued : Issued mine w
  apart : level.Strict ∨ Issued S.base w ∧ ∀ s id, S.base s id → ¬ mine s id

/-- A state in which a course has no call of its own open. -/
structure Ready (S : Stage U level) (mine : Marks) (w : World) : Prop extends Fits S mine w where
  clean : Clean mine w
  agree : Agree S.base S.start w

variable {S : Stage U level} {mine : Marks} {v w : World}

theorem Fits.framed (h : S.Fits mine w) : Framed w := h.onward.framed S.framed

theorem Fits.turn (h : S.Fits mine v) (hturn : Turn U mine v w) :
    S.Fits (grown mine v w) w where
  onward := h.onward.trans hturn.toOnward
  issued := hturn.issued_grown h.issued
  apart := h.apart.imp_right fun ⟨hissued, hapart⟩ =>
    ⟨hturn.issued hissued, hissued.apart hapart⟩

/-- No turn changes the frames in `base`, or it ends where none of them may have changed. -/
theorem Fits.agree (h : S.Fits mine v) (hagree : Agree S.base S.start v)
    (hturn : Turn U mine v w) (hstrict : level.Strict → Agree S.base S.start w) :
    Agree S.base S.start w :=
  h.apart.elim hstrict fun hapart => hagree.trans (hturn.agree hapart.1 hapart.2)

theorem Fits.rest {kept : Marks} (h : S.Fits mine v) (hrest : Rest U kept v w) :
    S.Fits mine w where
  onward := h.onward.trans hrest.toOnward
  issued := hrest.issued h.issued
  apart := h.apart.imp_right fun ⟨hissued, hapart⟩ => ⟨hrest.issued hissued, hapart⟩

theorem Ready.steady (h : S.Ready mine v) (hsteady : Steady U v w) : S.Ready mine w := by
  have hfits := h.toFits.turn (hsteady.turn mine)
  rw [hsteady.grown_eq] at hfits
  refine { hfits with clean := ?_, agree := h.agree.trans (World.agree_of_frames hsteady.frames) }
  intro s
  rw [hsteady.frames s]
  exact h.clean s

theorem Ready.rest (h : S.Ready mine v) (hrest : Rest U (fun s id => S.base s id ∨ mine s id) v w) :
    S.Ready mine w :=
  { h.toFits.rest hrest with
    clean := (hrest.kept.mono fun _ _ => .inr).clean h.clean
    agree := h.agree.trans (hrest.kept.mono fun _ _ => .inl) }

end Stage

namespace Course

variable {α β : Type} {U : Upkeep} {level : Level}

/-- The first course, from state `w` on and the frames in `mine` being its own, keeps to its turns on
the stage, and the second goes the same way. -/
def Leads (S : Stage U level) (mine : Marks) (w : World) : Course World α → Course World α → Prop
  | .exhausted, _ => True
  | .done s a, other =>
    other = .done s a ∧ Turn U mine w s ∧ Clean (grown mine w s) s ∧ Agree S.base S.start s
  | .pause s resume, other => ∃ resume', other = .pause s resume' ∧ Turn U mine w s ∧
    ∀ t, Rest U (fun i id => S.base i id ∨ grown mine w s i id) s t →
      Leads S (grown mine w s) t (resume t) (resume' t)

namespace Leads

variable {S : Stage U level} {mine : Marks} {v w : World}

theorem done (h : S.Ready mine w) (a : α) : Leads S mine w (.done w a) (.done w a) := by
  have hsteady := Steady.refl U w
  refine ⟨rfl, hsteady.turn mine, ?_, h.agree⟩
  rw [hsteady.grown_eq]
  exact h.clean

theorem after {c d : Course World α} (hturn : Turn U mine v w)
    (h : Leads S (grown mine v w) w c d) : Leads S mine v c d := by
  cases c with
  | exhausted => trivial
  | done s a =>
    obtain ⟨rfl, hlast, hclean, hagree⟩ := h
    rw [hturn.toOnward.grown_grown hlast.toOnward] at hclean
    exact ⟨rfl, hturn.trans hlast, hclean, hagree⟩
  | pause s resume =>
    obtain ⟨resume', rfl, hlast, hrest⟩ := h
    rw [hturn.toOnward.grown_grown hlast.toOnward] at hrest
    exact ⟨resume', rfl, hturn.trans hlast, hrest⟩

theorem steady {c d : Course World α} (hsteady : Steady U v w)
    (h : Leads S mine w c d) : Leads S mine v c d :=
  after (hsteady.turn mine) (by rwa [hsteady.grown_eq])

theorem bind {c d : Course World α} {f g : World → α → Course World β} (hfits : S.Fits mine w)
    (h : Leads S mine w c d)
    (hnext : ∀ mine s a, Onward U w s → S.Ready mine s → Leads S mine s (f s a) (g s a)) :
    Leads S mine w (c.bind f) (d.bind g) := by
  induction c generalizing mine w d with
  | exhausted => trivial
  | done s a =>
    obtain ⟨rfl, hturn, hclean, hagree⟩ := h
    exact after hturn (hnext _ s a hturn.toOnward
      { hfits.turn hturn with clean := hclean, agree := hagree })
  | pause s resume ih =>
    obtain ⟨resume', rfl, hturn, hrest⟩ := h
    refine ⟨_, rfl, hturn, fun t ht => ?_⟩
    have honward := hturn.toOnward.trans ht.toOnward
    exact ih t ((hfits.turn hturn).rest ht) (hrest t ht) fun mine s a h =>
      hnext mine s a (honward.trans h)

theorem map {c d : Course World α} (f : α → β) (h : Leads S mine w c d) :
    Leads S mine w (c.map f) (d.map f) := by
  induction c generalizing mine w d with
  | exhausted => trivial
  | done s a =>
    obtain ⟨rfl, hrest⟩ := h
    exact ⟨rfl, hrest⟩
  | pause s resume ih =>
    obtain ⟨resume', rfl, hturn, hrest⟩ := h
    exact ⟨_, rfl, hturn, fun t ht => ih t (hrest t ht)⟩

theorem finish {c d : Course World α} {s : World} {a : α} (h : Leads S mine w c d)
    (hc : c.finish = some (s, a)) :
    d.finish = some (s, a) ∧ Turn U mine w s ∧ Clean (grown mine w s) s ∧
      Agree S.base S.start s := by
  induction c generalizing mine w d with
  | exhausted => cases hc
  | done t b =>
    obtain ⟨rfl, hturn, hclean, hagree⟩ := h
    cases hc
    exact ⟨rfl, hturn, hclean, hagree⟩
  | pause t resume ih =>
    obtain ⟨resume', rfl, hturn, hrest⟩ := h
    obtain ⟨hfinish, hlast, hclean, hagree⟩ :=
      ih t (hrest t { Onward.refl U t with kept := Agree.refl _ t }) hc
    rw [hturn.toOnward.grown_grown hlast.toOnward] at hclean
    exact ⟨hfinish, hturn.trans hlast, hclean, hagree⟩

theorem widen {c d : Course World α} {more : Marks} (h : Leads S mine w c d)
    (hissued : Issued more w) (hclean : Clean more w) (hapart : ∀ s id, more s id → ¬ mine s id) :
    Leads S (fun s id => mine s id ∨ more s id) w c d := by
  have hclean' {s : World} (hturn : Turn U mine w s) : Clean more s :=
    hturn.clean hclean hissued hapart
  induction c generalizing mine w d with
  | exhausted => trivial
  | done s a =>
    obtain ⟨rfl, hturn, hown, hagree⟩ := h
    refine ⟨rfl, hturn.mono fun _ _ => .inl, ?_, hagree⟩
    rw [World.grown_or]
    exact fun i frame hmem hmark => hmark.elim (hown i frame hmem) (hclean' hturn i frame hmem)
  | pause s resume ih =>
    obtain ⟨resume', rfl, hturn, hrest⟩ := h
    refine ⟨resume', rfl, hturn.mono fun _ _ => .inl, fun t ht => ?_⟩
    rw [World.grown_or] at ht ⊢
    have hmore : Clean more t :=
      (ht.kept.mono fun _ _ hmark => .inr (.inr hmark)).clean (hclean' hturn)
    have hissued' := ht.issued (hturn.issued hissued)
    have hapart' := hissued.apart (w := s) hapart
    refine ih t (hrest t (ht.mono fun i id => Or.imp_right .inl)) hissued' hmore hapart' ?_
    exact fun hlater => hlater.clean hmore hissued' hapart'

/-- Two courses in turns. Between the turns of one the other leaves the frames of both alone, and
each gives up its own in the end. -/
theorem both {passes : World → Bool} {c d : Course World α} {right right' : World → Course World β}
    {mine theirs : Marks} {t : World}
    (hlevel : level.Strict → ∀ s, passes s = true → Agree S.base S.start s)
    (hfits : S.Fits (fun i id => mine i id ∨ theirs i id) t) (hagree : Agree S.base S.start t)
    (hapart : ∀ i id, theirs i id → ¬ mine i id) (hleft : Leads S mine t c d)
    (hright : ∀ s, Rest U (fun i id => S.base i id ∨ theirs i id) t s →
      Leads S theirs s (right s) (right' s)) :
    Leads S (fun i id => mine i id ∨ theirs i id) t (c.bothWhile passes right) (d.both right') := by
  induction c generalizing mine theirs t d right right' with
  | exhausted => trivial
  | done s a =>
    obtain ⟨rfl, hturn, hclean, hs⟩ := hleft
    have hissued : Issued theirs t := fun i id h => hfits.issued i id (.inr h)
    have hrest := hturn.rest (hagree.symm.trans hs) hissued hapart
    have hown : Issued (grown mine t s) s :=
      hturn.issued_grown fun i id h => hfits.issued i id (.inl h)
    have hwide := (hright s hrest).widen hown hclean fun i id hmine htheirs =>
      hissued.apart hapart i id htheirs hmine
    refine after (hturn.mono fun _ _ => .inl) ?_
    rw [World.grown_or]
    simp only [or_comm] at hwide ⊢
    exact hwide.map (a, ·)
  | pause s resume ih =>
    obtain ⟨resume', rfl, hturn, hresume⟩ := hleft
    rw [Course.bothWhile]
    split
    case isFalse => trivial
    case isTrue hl =>
    have hissued : Issued theirs t := fun i id h => hfits.issued i id (.inr h)
    have hown : Issued (grown mine t s) s :=
      hturn.issued_grown fun i id h => hfits.issued i id (.inl h)
    have hnew : ∀ i id, grown mine t s i id → ¬ theirs i id :=
      fun i id hmine htheirs => hissued.apart hapart i id htheirs hmine
    have hs : Agree S.base S.start s :=
      hfits.agree hagree (hturn.mono fun _ _ => .inl) (hlevel · s hl)
    have hR := hright s (hturn.rest (hagree.symm.trans hs) hissued hapart)
    -- What a turn of the other course does to this one, and the two turns as one.
    have hback {u : World} (hother : Turn U theirs s u) (hu : Agree S.base S.start u) :=
      hother.rest (hs.symm.trans hu) hown hnew
    have hboth {u : World} (hother : Turn U theirs s u) :
        Turn U (fun i id => mine i id ∨ theirs i id) t u :=
      (hturn.mono fun _ _ => .inl).trans (hother.mono fun _ _ h => .inl (.inr h))
    have hset {u : World} (hother : Turn U theirs s u) :=
      World.grown_both mine theirs hturn.numbers hother.numbers
    cases hr : right s with
    | exhausted => trivial
    | done u b =>
      rw [hr] at hR
      obtain ⟨hr', hother, hclean, hu⟩ := hR
      refine ⟨_, by rw [Course.both, hr'], hboth hother, fun t' ht' => ?_⟩
      rw [hset hother] at ht' ⊢
      have hback' := (hback hother hu).trans (ht'.mono fun i id => Or.imp_right .inl)
      have hclean' : Clean (grown theirs s u) t' :=
        (ht'.kept.mono fun _ _ h => .inr (.inr h)).clean hclean
      have hgiven := hother.issued_grown (hturn.issued hissued)
      exact ((hresume t' hback').widen (ht'.issued hgiven) hclean' fun i id htheirs hmine =>
        hown.apart hnew i id hmine htheirs).map (·, b)
    | pause u resumeRight =>
      rw [hr] at hR
      obtain ⟨resumeRight', hr', hother, hresumeRight⟩ := hR
      simp only
      split
      case isFalse => trivial
      case isTrue hlu =>
      have hu : Agree S.base S.start u := hfits.agree hagree (hboth hother) (hlevel · u hlu)
      refine ⟨_, by rw [Course.both, hr'], hboth hother, fun t' ht' => ?_⟩
      have hfits' := (hfits.turn (hboth hother)).rest ht'
      rw [hset hother] at ht' hfits' ⊢
      have hbase' : Agree S.base u t' := ht'.kept.mono fun _ _ => .inl
      refine ih t' hfits' (hu.trans hbase') (fun i id htheirs hmine =>
        hown.apart hnew i id hmine htheirs) (hresume t' ?_) fun s' hs' => hresumeRight s' ?_
      · exact (hback hother hu).trans (ht'.mono fun i id => Or.imp_right .inl)
      · exact (ht'.mono fun i id => Or.imp_right .inr).trans hs'

end Leads

end Course

namespace Job

variable {α β : Type} {U : Upkeep} {level : Level}

/-- Beginning at `w` the first job keeps to its turns on the stage and the second goes the same
way. -/
structure Leads (S : Stage U level) (w : World) (x y : Job α) : Prop where
  course : ∀ mine, S.Ready mine w → Course.Leads S mine w (x w) (y w)

namespace Leads

variable {S : Stage U level} {w : World} {x y : Job α} {f g : α → Job β}

theorem ofExcept (result : Except Fault α) :
    Leads S w (Job.ofExcept result) (Job.ofExcept result) where
  course _ hready := by
    cases result with
    | ok a => exact Course.Leads.done hready _
    | error fault => exact Course.Leads.done hready _

theorem pure (a : α) : Leads S w (Pure.pure a) (Pure.pure a : Job α) := ofExcept (.ok a)

theorem throw (fault : Fault) : Leads S w (Job.throw fault) (Job.throw fault : Job α) :=
  ofExcept (.error fault)

theorem exhausted (y : Job α) : Leads S w Job.exhausted y := ⟨fun _ _ => trivial⟩

theorem bind (h : Leads S w x y) (hnext : ∀ a s, Onward U w s → Leads S s (f a) (g a)) :
    Leads S w (x >>= f) (y >>= g) := by
  constructor
  intro mine hready
  refine Course.Leads.bind hready.toFits (h.course mine hready) fun mine s result hws hready => ?_
  cases result with
  | ok a => exact (hnext a s hws).course mine hready
  | error fault => exact Course.Leads.done hready _

theorem fmap (h : Leads S w x y) (f : α → β) : Leads S w (f <$> x) (f <$> y) :=
  h.bind fun a _ _ => pure (f a)

theorem attempt (h : Leads S w x y) : Leads S w (Job.attempt x) (Job.attempt y) where
  course mine hready :=
    (h.course mine hready).map (Except.ok : Except Fault α → Except Fault (Except Fault α))

theorem step_bind {u : World → Except Fault α × World} (h : Steady U w (u w).2)
    (hnext : ∀ a, (u w).1 = .ok a → Leads S (u w).2 (f a) (g a)) :
    Leads S w (Job.step u >>= f) (Job.step u >>= g) := by
  constructor
  intro mine hready
  refine Course.Leads.steady h ?_
  have hready' := hready.steady h
  have hrun (f : α → Job β) :
      (Job.step u >>= f) w = Job.bind (fun _ => .done (u w).2 (u w).1) f w := rfl
  rw [hrun, hrun]
  cases hu : (u w).1 with
  | ok a => exact (hnext a hu).course mine hready'
  | error fault => exact Course.Leads.done hready' _

theorem step {u : World → Except Fault α × World} (h : Steady U w (u w).2) :
    Leads S w (Job.step u) (Job.step u) where
  course _ hready := Course.Leads.steady h (Course.Leads.done (hready.steady h) _)

theorem update_bind {u : World → α × World} (h : Steady U w (u w).2)
    (hnext : Leads S (u w).2 (f (u w).1) (g (u w).1)) :
    Leads S w (Job.update u >>= f) (Job.update u >>= g) where
  course mine hready := Course.Leads.steady h (hnext.course mine (hready.steady h))

theorem modify_bind {u : World → World} {f g : Unit → Job β} (h : Steady U w (u w))
    (hnext : Leads S (u w) (f ()) (g ())) :
    Leads S w (Job.modify u >>= f) (Job.modify u >>= g) where
  course mine hready := Course.Leads.steady h (hnext.course mine (hready.steady h))

theorem modify {u : World → World} (h : Steady U w (u w)) :
    Leads S w (Job.modify u) (Job.modify u) where
  course _ hready := Course.Leads.steady h (Course.Leads.done (hready.steady h) _)

theorem get_bind {f g : World → Job β} (h : Leads S w (f w) (g w)) :
    Leads S w (Job.get >>= f) (Job.get >>= g) := ⟨h.course⟩

theorem watch_bind {passes passes' : World → Bool} {f g : Unit → Job β}
    (h : ∀ mine, S.Ready mine w → passes' w = true) (hnext : Leads S w (f ()) (g ())) :
    Leads S w (Job.watch passes >>= f) (Job.watch passes' >>= g) where
  course mine hready := by
    rw [Job.watch_bind (h mine hready)]
    change Course.Leads S mine w (Course.bind _ (Job.watch passes w)) _
    unfold Job.watch
    split
    · exact hnext.course mine hready
    · trivial

theorem bothWhile {x' y' : Job β} (hx : Leads S w x y)
    (hy : ∀ s, Onward U w s → Leads S s x' y') :
    Leads S w (Job.bothWhile level x x') (Job.bothWhile .free y y') := by
  constructor
  intro mine hready
  refine Course.Leads.map _ ?_
  have hnone : (fun s id => mine s id ∨ False) = mine := by simp
  have hboth : Course.Leads S (fun s id => mine s id ∨ False) w
      (Course.bothWhile (level w) (x w) x') (Course.both (y w) y') := Course.Leads.both
    (fun hstrict s hl => hready.agree.trans
      (World.agree_of_frames fun i => hstrict w s i hl))
    (hnone.symm ▸ hready.toFits) hready.agree (fun _ _ h => h.elim) (hx.course mine hready)
    fun s hs => (hy s hs.toOnward).course _
      { onward := hready.onward.trans hs.toOnward
        issued := fun _ _ h => h.elim
        apart := hready.apart.imp_right fun ⟨hissued, _⟩ => ⟨hs.issued hissued, fun _ _ _ h => h⟩
        clean := fun _ _ _ h => h
        agree := hready.agree.trans (hs.kept.mono fun _ _ => .inl) }
  rw [hnone] at hboth
  exact (Course.bothWhile_true (y w) y').symm ▸ hboth

/-- From an orderly world to the end, with nobody else about. All frames are as they were. -/
theorem finish {least : Marks} (hleast : level.Strict ∨ Issued least w) (hw : w.Framed)
    (h : Leads (Stage.alone U level least hw) w x y) {s : World} {result : Except Fault α}
    (hrun : (x w).finish = some (s, result)) :
    (y w).finish = some (s, result) ∧ Onward U w s ∧
      ∀ i, (s.scope i).frames = (w.scope i).frames := by
  have hready : (Stage.alone U level least hw).Ready (fun _ _ => False) w :=
    { onward := Onward.refl ..
      issued := fun _ _ h => h.elim
      apart := hleast.imp_right fun hissued =>
        ⟨fun i n hn => hn.elim (fun h => h) (hissued i n), fun _ _ _ h => h⟩
      clean := fun _ _ _ h => h
      agree := Agree.refl _ _ }
  obtain ⟨hfinish, hturn, hclean, hagree⟩ := (h.course _ hready).finish hrun
  refine ⟨hfinish, hturn.toOnward, fun i => hw.frames_eq (hturn.framed hw) fun frame => ?_⟩
  by_cases hold : frame.id < (w.scope i).nextFrame
  · exact hagree i frame (.inl hold)
  · refine iff_of_false (fun hmem => hclean i frame hmem (.inr ⟨Nat.not_lt.1 hold, ?_⟩))
      fun hmem => hold (hw.fresh i frame hmem)
    exact (hturn.framed hw).fresh i frame hmem

end Leads

end Job

end ToyUnix
