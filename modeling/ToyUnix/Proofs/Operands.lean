import ToyUnix.Proofs.Files.Backed
import ToyUnix.Proofs.Removal
import ToyUnix.Proofs.Shell.Parameters
import ToyUnix.Proofs.Shell.Straight

/-!
What `rm` deletes. It goes through its operands one by one, and what an operand means does not change
on the way. Whatever goes wrong, nothing is touched but what an operand names and what is below it;
and a run without complaints leaves none of them behind. An empty operand is no exception: it names
the working directory. See `rm_touches_operands`.
-/

set_option autoImplicit false

namespace ToyUnix

theorem Invocation.target_congr (run : Invocation) {v w : World} (h : w.processes = v.processes)
    (operand : String) :
    run.fs w = run.fs v ∧ run.target w operand = run.target v operand := by
  simp only [Invocation.fs, Invocation.target, Invocation.cwd, Invocation.home, World.viewOf,
    World.process?, h, and_self]

/-- Something of what is in `gone` may have been deleted, and nothing else has happened. -/
structure World.Sheds (fs : FileSystem) (gone : Path → Prop) (v w : World) : Prop where
  processes : w.processes = v.processes
  standing : v.files.Standing w.files
  backed : w.files.Backed fs
  node : ∀ path, w.files.nodeOn fs path = v.files.nodeOn fs path ∨
    w.files.nodeOn fs path = none ∧ gone path

namespace World.Sheds

variable {fs : FileSystem} {gone more : Path → Prop} {u v w : World}

theorem refl (h : w.files.Backed fs) : Sheds fs gone w w := ⟨rfl, .refl _, h, fun _ => .inl rfl⟩

theorem trans (huv : Sheds fs gone u v) (hvw : Sheds fs gone v w) : Sheds fs gone u w where
  processes := hvw.processes.trans huv.processes
  standing := huv.standing.trans hvw.standing
  backed := hvw.backed
  node path := by
    rcases hvw.node path with hsame | hgone
    · rw [hsame]
      exact huv.node path
    · exact .inr hgone

theorem mono (h : Sheds fs gone v w) (hmore : ∀ path, gone path → more path) : Sheds fs more v w :=
  { h with node := fun path => (h.node path).imp_right (And.imp_right (hmore path)) }

theorem of_rests (h : v.Rests w) (hbacked : v.files.Backed fs) : Sheds fs gone v w where
  processes := h.processes
  standing := h.standing
  backed := hbacked.congr h.standing h.trees
  node path := .inl (Files.nodeOn_congr h.standing h.trees fs path)

theorem absent (h : Sheds fs gone v w) {path : Path} (hpath : v.files.nodeOn fs path = none) :
    w.files.nodeOn fs path = none :=
  (h.node path).elim (·.trans hpath) And.left

theorem present (h : Sheds fs gone v w) {path : Path} {node : Node}
    (hpath : w.files.nodeOn fs path = some node) : v.files.nodeOn fs path = some node := by
  rcases h.node path with hsame | ⟨hnone, -⟩
  · rw [← hsame, hpath]
  · rw [hnone] at hpath
    cases hpath

theorem isFile (h : Sheds fs gone v w) (hv : v.files.Backed fs) {text : String}
    (hfile : w.files.isFile fs text = true) : v.files.isFile fs text = true := by
  obtain ⟨node, hnode, hkind⟩ := (h.backed.isFile_iff text).1 hfile
  exact (hv.isFile_iff text).2 ⟨node, h.present hnode, hkind⟩

theorem isDirectory (h : Sheds fs gone v w) (hv : v.files.Backed fs) {text : String}
    (hdirectory : w.files.isDirectory fs text = true) : v.files.isDirectory fs text = true :=
  (hv.isDirectory_iff text).2 (h.present ((h.backed.isDirectory_iff text).1 hdirectory))

theorem target (h : Sheds fs gone v w) (run : Invocation) (operand : String) :
    run.fs w = run.fs v ∧ run.target w operand = run.target v operand :=
  run.target_congr h.processes operand

end World.Sheds

theorem Job.finish_bind_cases {α β : Type} {x : Job α} {f : α → Job β} {w s : World}
    {result : Except Fault β} (h : ((x >>= f) w).finish = some (s, result)) :
    (∃ fault, (x w).finish = some (s, .error fault) ∧ result = .error fault) ∨
      ∃ v a, (x w).finish = some (v, .ok a) ∧ (f a v).finish = some (s, result) := by
  rw [Job.finish_bind] at h
  obtain ⟨⟨v, first⟩, hx, hnext⟩ := Option.bind_eq_some_iff.1 h
  cases first with
  | error fault =>
    cases hnext
    exact .inl ⟨fault, hx, rfl⟩
  | ok a => exact .inr ⟨v, a, hx, hnext⟩

open World (Sheds)

namespace Utility

variable {fs : FileSystem} {w s : World} {limit : Nat} {c : Change}

theorem sheds_change {gone : Path → Prop} (hc : c = .deleteFile ∨ c = .deleteDirectory)
    (hbacked : w.files.Backed fs) {text : String} (hgone : gone (Path.ofText text))
    {result : Except Fault Unit} (hrun : (change fs text c w).finish = some (s, result)) :
    Sheds fs gone w s ∧
      (result = .ok () → s.files.nodeOn fs (Path.ofText text) = none) := by
  have happly : some ({ w with files := (w.files.apply fs text c).2 }, (w.files.apply fs text c).1) =
      some (s, result) := hrun
  rcases hbacked.delete hc text with ⟨fault, hfault⟩ | ⟨files, hok, hstanding, hafter, hnone, hsame⟩
  · rw [hfault] at happly
    cases happly
    exact ⟨.refl hbacked, fun h => by cases h⟩
  · rw [hok] at happly
    cases happly
    refine ⟨⟨rfl, hstanding, hafter, fun path => ?_⟩, fun _ => hnone⟩
    by_cases hpath : path = Path.ofText text
    · exact .inr ⟨hpath ▸ hnone, hpath ▸ hgone⟩
    · exact .inl (hsame path hpath)

theorem sheds_deleteEach {gone : Path → Prop} (hc : c = .deleteFile ∨ c = .deleteDirectory)
    (hbacked : w.files.Backed fs) {texts : List String}
    (hgone : ∀ text ∈ texts, gone (Path.ofText text)) {result : Except Fault Unit}
    (hrun : (deleteEach fs c texts w).finish = some (s, result)) :
    Sheds fs gone w s ∧
      (result = .ok () → ∀ text ∈ texts, s.files.nodeOn fs (Path.ofText text) = none) := by
  induction texts generalizing w with
  | nil =>
    cases hrun
    exact ⟨.refl hbacked, by simp⟩
  | cons text texts ih =>
    obtain ⟨hfirst, hrest⟩ := List.forall_mem_cons.1 hgone
    rcases Job.finish_bind_cases hrun with ⟨fault, hchange, rfl⟩ | ⟨v, _, hchange, hrun⟩
    · exact ⟨(sheds_change hc hbacked hfirst hchange).1, fun h => by cases h⟩
    obtain ⟨hnow, hnone⟩ := sheds_change hc hbacked hfirst hchange
    obtain ⟨hlater, hall⟩ := ih hnow.backed hrest hrun
    exact ⟨hnow.trans hlater, fun hresult =>
      List.forall_mem_cons.2 ⟨hlater.absent (hnone rfl), hall hresult⟩⟩

theorem removeFiles_cases {dir : String} {pending visited : List String}
    {result : Except Fault (List String)}
    (hrun : (removeFiles fs (limit + 1) (dir :: pending) visited w).finish = some (s, result)) :
    (∃ fault, result = .error fault ∧ (s = w ∨ ∃ files outcome, w.files.files fs dir = .ok files ∧
      (deleteEach fs .deleteFile files w).finish = some (s, outcome))) ∨
    ∃ files v dirs, w.files.files fs dir = .ok files ∧
      (deleteEach fs .deleteFile files w).finish = some (v, .ok ()) ∧
      v.files.directories fs dir = .ok dirs ∧
      (removeFiles fs limit (dirs.reverse ++ pending) (dir :: visited) v).finish =
        some (s, result) := by
  rw [removeFiles] at hrun
  rcases Job.finish_bind_cases hrun with ⟨fault, hstep, rfl⟩ | ⟨_, files, hstep, hrun⟩ <;>
    obtain ⟨rfl, hfiles⟩ := Prod.mk.inj (Option.some.inj hstep)
  · exact .inl ⟨fault, rfl, .inl rfl⟩
  rcases Job.finish_bind_cases hrun with ⟨fault, hdelete, rfl⟩ | ⟨v, _, hdelete, hrun⟩
  · exact .inl ⟨fault, rfl, .inr ⟨files, _, hfiles, hdelete⟩⟩
  rcases Job.finish_bind_cases hrun with ⟨fault, hstep, rfl⟩ | ⟨_, dirs, hstep, hrun⟩ <;>
    obtain ⟨rfl, hdirs⟩ := Prod.mk.inj (Option.some.inj hstep)
  · exact .inl ⟨fault, rfl, .inr ⟨files, _, hfiles, hdelete⟩⟩
  · exact .inr ⟨files, _, dirs, hfiles, hdelete, hdirs, hrun⟩

theorem sheds_removeFiles {top : Path} (hbacked : w.files.Backed fs)
    {pending visited : List String} (hpending : ∀ dir ∈ pending, top <+: Path.ofText dir)
    (hvisited : ∀ dir ∈ visited, top <+: Path.ofText dir) {result : Except Fault (List String)}
    (hrun : (removeFiles fs limit pending visited w).finish = some (s, result)) :
    Sheds fs (top <+: ·) w s ∧ ∀ all, result = .ok all →
      (∀ dir ∈ all, top <+: Path.ofText dir) ∧ pending ⊆ all ∧ visited ⊆ all := by
  induction limit generalizing w pending visited with
  | zero =>
    cases pending with
    | nil =>
      cases hrun
      refine ⟨.refl hbacked, fun all hall => ?_⟩
      cases hall
      exact ⟨hvisited, List.nil_subset _, List.Subset.refl _⟩
    | cons dir pending => cases hrun
  | succ limit ih =>
    cases pending with
    | nil =>
      cases hrun
      refine ⟨.refl hbacked, fun all hall => ?_⟩
      cases hall
      exact ⟨hvisited, List.nil_subset _, List.Subset.refl _⟩
    | cons dir pending =>
      obtain ⟨hdir, hrest⟩ := List.forall_mem_cons.1 hpending
      have hdeleted {v : World} {files : List String} {outcome : Except Fault Unit}
          (hfiles : w.files.files fs dir = .ok files)
          (hdelete : (deleteEach fs .deleteFile files w).finish = some (v, outcome)) :
          Sheds fs (top <+: ·) w v :=
        (sheds_deleteEach (.inl rfl) hbacked
          (fun file hfile => hdir.trans (hbacked.listed_below hfiles hfile)) hdelete).1
      rcases removeFiles_cases hrun with ⟨fault, rfl, rfl | ⟨files, outcome, hfiles, hdelete⟩⟩ |
        ⟨files, v, dirs, hfiles, hdelete, hdirs, hrun⟩
      · exact ⟨.refl hbacked, fun _ h => by cases h⟩
      · exact ⟨hdeleted hfiles hdelete, fun _ h => by cases h⟩
      have hnow := hdeleted hfiles hdelete
      have hnext : ∀ next ∈ dirs.reverse ++ pending, top <+: Path.ofText next := by
        intro next hnext
        rcases List.mem_append.1 hnext with hnew | hold
        · exact hdir.trans (hnow.backed.listed_below hdirs (List.mem_reverse.1 hnew))
        · exact hrest next hold
      obtain ⟨hlater, hall⟩ :=
        ih hnow.backed hnext (List.forall_mem_cons.2 ⟨hdir, hvisited⟩) hrun
      refine ⟨hnow.trans hlater, fun all hresult => ?_⟩
      obtain ⟨hwithin, hpending', hvisited'⟩ := hall all hresult
      obtain ⟨hmem, hseen⟩ := List.cons_subset.1 hvisited'
      exact ⟨hwithin, List.cons_subset.2 ⟨hmem, (List.append_subset.1 hpending').2⟩, hseen⟩

theorem sheds_removeTree (hbacked : w.files.Backed fs) {dir : String} {result : Except Fault Unit}
    (hrun : (removeTree limit fs dir w).finish = some (s, result)) :
    Sheds fs (Path.ofText dir <+: ·) w s ∧
      (result = .ok () → s.files.nodeOn fs (Path.ofText dir) = none) := by
  have hself : ∀ first ∈ [dir], Path.ofText dir <+: Path.ofText first := by
    simp
  rcases Job.finish_bind_cases hrun with ⟨fault, hwalk, rfl⟩ | ⟨v, visited, hwalk, hrun⟩
  · exact ⟨(sheds_removeFiles hbacked hself (by simp) hwalk).1, fun h => by cases h⟩
  obtain ⟨hdown, hall⟩ := sheds_removeFiles hbacked hself (by simp) hwalk
  obtain ⟨hwithin, hpending, -⟩ := hall visited rfl
  obtain ⟨hup, habsent⟩ := sheds_deleteEach (.inr rfl) hdown.backed hwithin hrun
  exact ⟨hdown.trans hup, fun hresult => habsent hresult dir (hpending List.mem_cons_self)⟩

variable {run : Invocation} {recursive force : Bool} {operand : String}

def Costs (run : Invocation) (recursive : Bool) (operand : String) (w : World) (path : Path) :
    Prop :=
  Deletes run recursive operand w ∧ Path.ofText (run.target w operand) <+: path

theorem costs_before {gone : Path → Prop} {v : World} (h : Sheds (run.fs v) gone v w)
    (hv : v.files.Backed (run.fs v)) {path : Path} (hcosts : Costs run recursive operand w path) :
    Costs run recursive operand v path := by
  obtain ⟨hfs, htarget⟩ := h.target run operand
  obtain ⟨hdeletes, hbelow⟩ := hcosts
  rw [Deletes, hfs, htarget] at hdeletes
  rw [htarget] at hbelow
  exact ⟨hdeletes.imp (h.isFile hv) (And.imp_right (h.isDirectory hv)), hbelow⟩

theorem sheds_rmTarget (hbacked : w.files.Backed (run.fs w)) {result : Except Fault Unit}
    (hrun : (rmTarget limit (run.fs w) recursive force operand (run.target w operand) w).finish =
      some (s, result)) :
    Sheds (run.fs w) (Costs run recursive operand w) w s ∧ (result = .ok () →
      s.files.nodeOn (run.fs w) (Path.ofText (run.target w operand)) = none) := by
  rw [rmTarget, Job.get_bind] at hrun
  split at hrun
  case isTrue hfile => exact sheds_change (.inl rfl) hbacked ⟨.inl hfile, List.prefix_refl _⟩ hrun
  case isFalse hfile =>
    split at hrun
    case isTrue hdirectory =>
      have habsent : w.files.nodeOn (run.fs w) (Path.ofText (run.target w operand)) = none :=
        (hbacked.nodeOn_eq_none_iff _).2
          ⟨Bool.eq_false_iff.2 hfile, by simpa using hdirectory⟩
      split at hrun <;> cases hrun
      · exact ⟨.refl hbacked, fun _ => habsent⟩
      · exact ⟨.refl hbacked, fun h => by cases h⟩
    case isFalse hdirectory =>
      split at hrun
      case isTrue hrecursive =>
        obtain ⟨hsheds, habsent⟩ := sheds_removeTree hbacked hrun
        refine ⟨hsheds.mono fun path hpath => ⟨.inr ⟨hrecursive, ?_⟩, hpath⟩, habsent⟩
        simpa using hdirectory
      case isFalse =>
        cases hrun
        exact ⟨.refl hbacked, fun h => by cases h⟩

def CostsAny (run : Invocation) (recursive : Bool) (operands : List String) (w : World)
    (path : Path) : Prop :=
  ∃ operand ∈ operands, Costs run recursive operand w path

/-- What later operands cost, from wherever they are gone through, the whole call may cost. -/
theorem sheds_later {all later : List String} {v : World} (hbacked : w.files.Backed (run.fs w))
    (hsub : later ⊆ all) (h : Sheds (run.fs w) (CostsAny run recursive all w) w v)
    (hlater : Sheds (run.fs v) (CostsAny run recursive later v) v s) :
    Sheds (run.fs w) (CostsAny run recursive all w) w s := by
  rw [(h.target run "").1] at hlater
  refine h.trans (hlater.mono ?_)
  rintro path ⟨other, hother, hcosts⟩
  exact ⟨other, hsub hother, costs_before h hbacked hcosts⟩

theorem sheds_rmTargets {code : Int} {operands : List String}
    (hbacked : w.files.Backed (run.fs w)) {result : Except Fault Int}
    (hrun : (rmTargets run limit recursive force code operands w).finish = some (s, result)) :
    Sheds (run.fs w) (CostsAny run recursive operands w) w s ∧
      (result = .ok 0 → code = 0 ∧ ∀ operand ∈ operands,
        s.files.nodeOn (run.fs w) (Path.ofText (run.target w operand)) = none) := by
  induction operands generalizing w code with
  | nil =>
    cases hrun
    exact ⟨.refl hbacked, fun hcode => ⟨Except.ok.inj hcode, by simp⟩⟩
  | cons operand operands ih =>
    rw [rmTargets, Job.get_bind, Job.attempt_bind, Course.finish_bind] at hrun
    obtain ⟨⟨v, first⟩, hfirst, hrun⟩ := Option.bind_eq_some_iff.1 hrun
    obtain ⟨hnow, habsent⟩ := sheds_rmTarget hbacked hfirst
    have hsub : operands ⊆ operand :: operands := List.subset_cons_self ..
    have hhere : Sheds (run.fs w) (CostsAny run recursive (operand :: operands) w) w v :=
      hnow.mono fun path hpath => ⟨operand, List.mem_cons_self, hpath⟩
    cases first with
    | ok _ =>
      have hfs := (hhere.target run "").1
      obtain ⟨hlater, hcode⟩ := ih (hfs ▸ hhere.backed) hrun
      refine ⟨sheds_later hbacked hsub hhere hlater, fun hresult => ⟨(hcode hresult).1, ?_⟩⟩
      rw [hfs] at hlater hcode
      refine List.forall_mem_cons.2 ⟨hlater.absent (habsent rfl), fun other hother => ?_⟩
      rw [← (hhere.target run other).2]
      exact (hcode hresult).2 other hother
    | error fault =>
      let text := "rm: cannot remove '" ++ operand ++ "': " ++ fault.message
      have hsaid := hhere.trans (.of_rests (.writeLine v text run.console) hhere.backed)
      have hfs := (hsaid.target run "").1
      obtain ⟨hlater, hcode⟩ := ih (hfs ▸ hsaid.backed) hrun
      exact ⟨sheds_later hbacked hsub hsaid hlater,
        fun hresult => absurd (hcode hresult).1 (by decide)⟩

/-- However `rm` is called and however its run ends, what becomes different is at or below a path
that an operand names, is gone, and was a file or a directory that `rm` may delete by its flags; and
if it returns 0 then no operand names anything any more. An empty operand names the working
directory. -/
theorem rm_touches_operands (hbacked : w.files.Backed (run.fs w)) {result : Except Fault Int}
    (hrun : (rm run limit w).finish = some (s, result)) :
    (∀ path, s.files.nodeOn (run.fs w) path = w.files.nodeOn (run.fs w) path ∨
      s.files.nodeOn (run.fs w) path = none ∧ ∃ operand ∈ (splitFlags run.args).2,
        Costs run ((splitFlags run.args).1.contains 'r' || (splitFlags run.args).1.contains 'R')
          operand w path) ∧
    w.files.Standing s.files ∧
    (result = .ok 0 → ∀ operand ∈ (splitFlags run.args).2,
      s.files.isFile (run.fs w) (run.target w operand) = false ∧
      s.files.isDirectory (run.fs w) (run.target w operand) = false) := by
  unfold rm at hrun
  rcases hsplit : splitFlags run.args with ⟨flags, _ | ⟨operand, operands⟩⟩
  · rw [hsplit] at hrun
    cases hrun
    exact ⟨fun _ => .inl rfl, .refl _, fun h => by cases h⟩
  · rw [hsplit] at hrun
    obtain ⟨hsheds, habsent⟩ := sheds_rmTargets hbacked hrun
    exact ⟨hsheds.node, hsheds.standing, fun hresult other hother =>
      (hsheds.backed.nodeOn_eq_none_iff _).1 ((habsent hresult).2 other hother)⟩

theorem rm_tree {handle m : Nat} {user : User} {flags : List Char}
    (hargs : splitFlags run.args = (flags, [operand]))
    (hrecursive : (flags.contains 'r' || flags.contains 'R') = true)
    (hfs : run.fs w = .view handle (.memory m) user) (hm : m < w.files.trees.length)
    (hgrown : (w.files.tree m).Grown) (hroot : Path.ofText (run.target w operand) ≠ [])
    (hdir : (w.files.tree m).node? (Path.ofText (run.target w operand)) = some .directory)
    (hwrite : user.canWrite (Path.ofText (run.target w operand)) = true)
    (hlimit : (w.files.tree m).directoriesWithin (Path.ofText (run.target w operand)) ≤ limit) :
    (rm run limit w).finish =
      some (w.withTree m ((w.files.tree m).prune (Path.ofText (run.target w operand))), .ok 0) := by
  have hfile : w.files.isFile (run.fs w) (run.target w operand) = false := by
    rw [hfs]
    simp [Files.isFile, Files.route, Files.follow, Files.answers, Tree.answers, Node.answers, hdir,
      Node.isDirectory]
  have hdirectory : w.files.isDirectory (run.fs w) (run.target w operand) = true := by
    rw [hfs]
    simp [Files.isDirectory, Files.route, Files.follow, Files.answers, Tree.answers, Node.answers,
      hdir, Node.isDirectory]
  have htarget : rmTarget limit (run.fs w) true (flags.contains 'f') operand (run.target w operand) w
      = removeTree limit (run.fs w) (run.target w operand) w := by
    rw [rmTarget, Job.get_bind, hfile, hdirectory]
    rfl
  simp only [rm, hargs, hrecursive]
  rw [rmTargets, Job.get_bind, Job.attempt_bind, Course.finish_bind, htarget, hfs,
    finish_removeTree hm hgrown hroot hdir hwrite hlimit]
  rfl

end Utility

namespace Sample

open Utility

def homely : World :=
  { files := { trees := [(Tree.fresh.put ["d"] .directory).put ["d", "f"] (.file [] false)] }
    processes :=
      { all := [⟨1, "sh", root, none, 0, "/d", [], true, 0, []⟩]
        tables := [⟨0, [(1, 0)], [], 2, 0, true⟩] }
    buffers := [{}] }

def removing (args : List String) : Invocation :=
  ⟨0, ⟨0, "box", none, "", [root], .memory 0, 0, 0, 0, none, none⟩, .buffer 0, args⟩

theorem homely_grown : (homely.files.tree 0).Grown := by
  have hd : Path.Canonical ["d"] := by
    simp [Path.Canonical, Path.IsName, PathText.isSegment]
  have hf : Path.Canonical ["d", "f"] := by
    simp [Path.Canonical, Path.IsName, PathText.isSegment]
  exact (Tree.grown_fresh.put hd (by decide) (by decide)).put hf (by decide) (by decide)

theorem homely_backed (args : List String) : homely.files.Backed ((removing args).fs homely) :=
  .view (.memory fun _ htree => List.mem_singleton.1 htree ▸ homely_grown)

theorem homely_removed {args : List String} {operand : String} {flags : List Char}
    (hargs : splitFlags args = (flags, [operand]))
    (hrecursive : (flags.contains 'r' || flags.contains 'R') = true)
    (htarget : Path.ofText ((removing args).target homely operand) = ["d"]) :
    (rm (removing args) 1 homely).finish = some (homely.withTree 0 Tree.fresh, .ok 0) := by
  have hfs : (removing args).fs homely = .view 0 (.memory 0) root := rfl
  rw [rm_tree hargs hrecursive hfs Nat.zero_lt_one homely_grown (by rw [htarget]; decide)
    (by rw [htarget]; decide) (by rw [htarget]; decide) (by rw [htarget]; decide), htarget]
  rfl

/-- `rm -r /d` takes the directory away. -/
theorem rm_directory :
    ∃ s, (rm (removing ["-r", "/d"]) 1 homely).finish = some (s, .ok 0) ∧
      s.files.isDirectory ((removing ["-r", "/d"]).fs homely)
        ((removing ["-r", "/d"]).target homely "/d") = false := by
  have hargs : splitFlags ["-r", "/d"] = (['r'], ["/d"]) := by decide
  have hrun := homely_removed hargs rfl (by decide)
  obtain ⟨-, -, hzero⟩ := rm_touches_operands (homely_backed _) hrun
  exact ⟨_, hrun, (hzero rfl "/d" (by decide)).2⟩

/-- The only operand is empty, and everything in the working directory is gone. -/
theorem rm_empty_operand :
    (splitFlags (removing ["-rf", ""]).args).2 = [""] ∧
    homely.files.nodeOn ((removing ["-rf", ""]).fs homely) ["d", "f"] = some (.file [] false) ∧
    ∃ s, (rm (removing ["-rf", ""]) 1 homely).finish = some (s, .ok 0) ∧
      s.files.nodeOn ((removing ["-rf", ""]).fs homely) ["d", "f"] = none := by
  have hargs : splitFlags ["-rf", ""] = (['r', 'f'], [""]) := by decide
  have hfs : (removing ["-rf", ""]).fs homely = .view 0 (.memory 0) root := rfl
  refine ⟨by decide, ?_, _, homely_removed hargs rfl (by decide), ?_⟩
  · rw [hfs, Files.nodeOn_view, Files.nodeOn_memory]
    decide
  · rw [hfs, Files.nodeOn_view, Files.nodeOn_memory]
    decide

end Sample

end ToyUnix
