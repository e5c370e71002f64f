import ToyUnix.Proofs.Shell.Acting

/-!
Manners. What a course keeps in every turn, given what it may rely on whenever it is its turn. The
utilities keep whatever allows for writing, reading lines and changing files, wherever they begin
and whatever is done between their turns: see `Program.run_keeps`.
-/

set_option autoImplicit false

namespace ToyUnix

/-- What turns keep, which may be anything that writing, reading lines, changing files and new
window titles keep, and what a course may rely on when it is its turn. -/
structure Manners extends Upkeep where
  ready : World → Prop
  later : ∀ {v w : World}, keeps v w → ready v → ready w
  write : ∀ (w : World) (text : String) (console : Console), keeps w (console.write w text)
  clear : ∀ (w : World) (console : Console), keeps w (console.clear w)
  setTitle : ∀ (w : World) (text : String) (console : Console), keeps w (console.setTitle w text)
  readLine : ∀ (w : World) (console : Console), keeps w (console.readLine w).2
  addInput : ∀ (w : World) (lines : List String), keeps w { w with inputs := w.inputs ++ [lines] }
  files : ∀ (w : World) (files : Files), keeps w { w with files }
  retitle : ∀ (w : World) (id : Nat) (title : String),
    keeps w (w.updateShell id fun shell => { shell with title })

namespace Course

variable {α β : Type} {M : Manners} {v w : World}

def Keeps (M : Manners) (w : World) : Course World α → Prop
  | .done s _ => M.keeps w s
  | .pause s resume => M.keeps w s ∧ ∀ t, M.ready t → Keeps M t (resume t)
  | .exhausted => True

namespace Keeps

theorem after {c : Course World α} (hvw : M.keeps v w) (h : c.Keeps M w) : c.Keeps M v := by
  cases c with
  | done s a => exact M.trans hvw h
  | pause s resume => exact ⟨M.trans hvw h.1, h.2⟩
  | exhausted => trivial

theorem bind {c : Course World α} {f : World → α → Course World β} (hw : M.ready w)
    (h : c.Keeps M w) (hnext : ∀ s a, M.ready s → (f s a).Keeps M s) : (c.bind f).Keeps M w := by
  induction c generalizing w with
  | done s a => exact after h (hnext s a (M.later h hw))
  | pause s resume ih => exact ⟨h.1, fun t ht => ih t ht (h.2 t ht)⟩
  | exhausted => trivial

theorem map {c : Course World α} (h : c.Keeps M w) (f : α → β) : (c.map f).Keeps M w := by
  induction c generalizing w with
  | done s a => exact h
  | pause s resume ih => exact ⟨h.1, fun t ht => ih t (h.2 t ht)⟩
  | exhausted => trivial

theorem both {c : Course World α} {right : World → Course World β} (hw : M.ready w)
    (h : c.Keeps M w) (hright : ∀ s, M.ready s → (right s).Keeps M s) :
    (c.both right).Keeps M w := by
  induction c generalizing w right with
  | done s a => exact after h ((hright s (M.later h hw)).map _)
  | pause s resume ih =>
    have hs := M.later h.1 hw
    have hfirst := hright s hs
    simp only [Course.both]
    cases hr : right s with
    | done u b =>
      rw [hr] at hfirst
      exact ⟨M.trans h.1 hfirst, fun t ht => (h.2 t ht).map _⟩
    | pause u resumeRight =>
      rw [hr] at hfirst
      exact ⟨M.trans h.1 hfirst.1, fun t ht => ih t ht (h.2 t ht) hfirst.2⟩
    | exhausted => trivial
  | exhausted => trivial

theorem finish {c : Course World α} (hw : M.ready w) (h : c.Keeps M w) {s : World} {a : α}
    (hc : c.finish = some (s, a)) : M.keeps w s := by
  induction c generalizing w with
  | done t b =>
    cases hc
    exact h
  | pause t resume ih =>
    have ht := M.later h.1 hw
    exact M.trans h.1 (ih t ht (h.2 t ht) hc)
  | exhausted => cases hc

end Keeps

end Course

namespace Job

variable {α β : Type}

/-- Wherever it begins, the job keeps what it should in every turn. -/
structure Keeps (M : Manners) (x : Job α) : Prop where
  course : ∀ w, M.ready w → (x w).Keeps M w

namespace Keeps

variable {M : Manners} {x : Job α} {f : α → Job β}

theorem ofExcept (result : Except Fault α) : (Job.ofExcept result).Keeps M := by
  cases result <;> exact ⟨fun w _ => M.refl w⟩

theorem pure (a : α) : (Pure.pure a : Job α).Keeps M := ofExcept (.ok a)

theorem throw (fault : Fault) : (Job.throw fault : Job α).Keeps M := ofExcept (.error fault)

theorem exhausted : (Job.exhausted : Job α).Keeps M := ⟨fun _ _ => trivial⟩

theorem get : Job.get.Keeps M := ⟨fun w _ => M.refl w⟩

theorem bind (h : x.Keeps M) (hnext : ∀ a, (f a).Keeps M) : (x >>= f).Keeps M := by
  refine ⟨fun w hw => Course.Keeps.bind hw (h.course w hw) fun s result hs => ?_⟩
  cases result with
  | ok a => exact (hnext a).course s hs
  | error fault => exact M.refl s

theorem fmap (h : x.Keeps M) (g : α → β) : (g <$> x).Keeps M := h.bind fun a => pure (g a)

theorem attempt (h : x.Keeps M) : (Job.attempt x).Keeps M :=
  ⟨fun w hw => (h.course w hw).map _⟩

theorem step {u : World → Except Fault α × World} (h : ∀ w, M.keeps w (u w).2) :
    (Job.step u).Keeps M := ⟨fun w _ => h w⟩

theorem update {u : World → α × World} (h : ∀ w, M.keeps w (u w).2) : (Job.update u).Keeps M :=
  ⟨fun w _ => h w⟩

theorem modify {u : World → World} (h : ∀ w, M.keeps w (u w)) : (Job.modify u).Keeps M :=
  ⟨fun w _ => h w⟩

theorem update_bind {u : World → α × World} (h : ∀ w, M.ready w → M.keeps w (u w).2)
    (hnext : ∀ w, M.ready w → (f (u w).1).Keeps M) : (Job.update u >>= f).Keeps M where
  course w hw := Course.Keeps.after (h w hw) ((hnext w hw).course _ (M.later (h w hw) hw))

theorem both {y : Job β} (hx : x.Keeps M) (hy : y.Keeps M) : (Job.both x y).Keeps M :=
  ⟨fun w hw => (Course.Keeps.both hw (hx.course w hw) hy.course).map _⟩

theorem finish (h : x.Keeps M) {w s : World} {result : Except Fault α} (hw : M.ready w)
    (hrun : (x w).finish = some (s, result)) : M.keeps w s :=
  (h.course w hw).finish hw hrun

end Keeps

end Job

/-- All that opening a console can come to. -/
inductive Context.Opens (w : World) (ctx : Context) (console : Console) (path : String) :
    RedirectMode → Except Fault Console × World → Prop
  | refuse {mode : RedirectMode} (fault : Fault) : Opens w ctx console path mode (.error fault, w)
  | input (text : String) : Opens w ctx console path .input
      (.ok (Console.addInput w text console).1, (Console.addInput w text console).2)
  | denied {mode : RedirectMode} {fs : FileSystem} {fault : Fault} {files : Files}
      (hmode : mode ≠ .input) (hfs : ctx.fileSystem? w = some fs)
      (hopen : w.files.openWrite fs (ctx.absolute w path) (mode = .append) = (.error fault, files)) :
    Opens w ctx console path mode (.error fault, { w with files })
  | writer {mode : RedirectMode} {fs : FileSystem} {id : Nat} {files : Files}
      (hmode : mode ≠ .input) (hfs : ctx.fileSystem? w = some fs)
      (hopen : w.files.openWrite fs (ctx.absolute w path) (mode = .append) = (.ok id, files)) :
    Opens w ctx console path mode (.ok (.file id console), { w with files })

theorem Context.opens_openConsole (w : World) (ctx : Context) (console : Console) (path : String)
    (mode : RedirectMode) :
    ctx.Opens w console path mode (ctx.openConsole w console path mode) := by
  unfold Context.openConsole
  split
  · exact .refuse _
  rename_i fs hfs
  cases mode with
  | input =>
    simp only
    split
    · exact .refuse _
    · exact .input _
  | overwrite =>
    simp only [World.onFiles]
    cases hopen : w.files.openWrite fs (ctx.absolute w path) false with
    | mk opened files =>
      cases opened with
      | error fault => exact .denied (by decide) hfs hopen
      | ok id => exact .writer (by decide) hfs hopen
  | append =>
    simp only [World.onFiles]
    cases hopen : w.files.openWrite fs (ctx.absolute w path) true with
    | mk opened files =>
      cases opened with
      | error fault => exact .denied (by decide) hfs hopen
      | ok id => exact .writer (by decide) hfs hopen

namespace Manners

variable (M : Manners)

theorem writeLine (w : World) (text : String) (console : Console) :
    M.keeps w (console.writeLine w text) :=
  M.trans (M.write w text console) (M.write ..)

theorem onFiles {α : Type} (w : World) (f : Files → α × Files) : M.keeps w (w.onFiles f).2 :=
  M.files w _

theorem flush (w : World) (console : Console) : M.keeps w (console.flush w).2 := by
  induction console with
  | input id parent ih => exact ih
  | file writer parent _ =>
    simp only [Console.flush]
    split <;> exact M.files w _
  | _ => exact M.refl w

theorem closeConsole (w : World) (console : Console) : M.keeps w (closeConsole w console) := by
  cases console with
  | file writer parent => exact M.files w _
  | _ => exact M.refl w

theorem openConsole (w : World) (ctx : Context) (console : Console) (path : String)
    (mode : RedirectMode) : M.keeps w (ctx.openConsole w console path mode).2 := by
  have hopens := ctx.opens_openConsole w console path mode
  generalize ctx.openConsole w console path mode = opened at hopens ⊢
  cases hopens with
  | refuse fault => exact M.refl w
  | input text => exact M.addInput w _
  | denied hmode hfs hopen => exact M.files w _
  | writer hmode hfs hopen => exact M.files w _

theorem complain (w : World) (console : Console) (message : Option String) :
    M.keeps w (Builtin.complain w console message) := by
  cases message with
  | none => exact M.refl w
  | some text => exact M.writeLine ..

theorem runBuiltin_or (id scope : Nat) (settings : ShellSettings) (host : Context)
    (console : Console) (name : String) (args : List String) (w : World) :
    M.keeps w (runBuiltin id scope settings host console name args w).2 ∨
      ∃ path, (runBuiltin id scope settings host console name args w).2 = host.setCwd w path := by
  unfold runBuiltin
  split
  · exact .inl (M.trans (M.retitle ..) (M.setTitle ..))
  · exact .inl (M.complain ..)
  · exact .inl (M.complain ..)
  · exact .inl (M.clear ..)
  · exact .inl (M.write ..)
  · unfold Builtin.changeDirectory
    dsimp only
    split_ifs
    · exact .inr ⟨_, rfl⟩
    · exact .inl (M.writeLine ..)
  · exact .inl (M.complain ..)

end Manners

theorem Console.Acts.keeps {console : Console} {v w : World} {said : String} (M : Manners)
    (h : console.Acts (fun _ _ => False) v said w) : M.keeps v w := by
  induction h with
  | idle => exact M.refl v
  | write _ text ih => exact M.trans ih (M.write ..)
  | clear _ ih => exact M.trans ih (M.clear ..)
  | setTitle _ text ih => exact M.trans ih (M.setTitle ..)
  | readLine _ ih => exact M.trans ih (M.readLine ..)
  | change _ fs path c ih => exact M.trans ih (M.onFiles ..)
  | aside _ h => exact h.elim

theorem Course.Minds.keeps {console : Console} {α : Type} {c : Course World α} {w : World}
    (M : Manners) (h : c.Minds (Console.acting console fun _ _ => False) w) : c.Keeps M w := by
  induction c generalizing w with
  | done s a => exact h.choose_spec.keeps M
  | pause s resume ih => exact ⟨h.1.choose_spec.keeps M, fun t _ => ih t (h.2 t)⟩
  | exhausted => trivial

theorem Program.run_keeps (M : Manners) (program : Program) (limit : Nat) (run : Invocation) :
    (program.run limit run).Keeps M :=
  ⟨fun w _ => ((program.run_acts (fun _ _ => False) limit run).course w).keeps M⟩

end ToyUnix
