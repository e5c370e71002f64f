import ToyUnix.Proofs.Operands

/-!
What `mkdir` makes. It goes through its operands one by one; what is there stays as it is, and what is
new are directories at a path that an operand means, or above one. When it returns 0 every operand
means a directory, but for one case: with the flag for parents a file is passed over in silence. See
`mkdir_makes`.
-/

set_option autoImplicit false

namespace ToyUnix

namespace Files

variable {s : Files} {fs : FileSystem} {t r id : Nat} {path inner : Path}

theorem Laid.pointed (h : s.Laid t r) : Pointed (s.mounts t) :=
  ⟨h.points, fun mount hmount => (h.point mount hmount).2, fun mount hmount => (h.point mount hmount).1⟩

namespace Backed

theorem above (h : s.Backed fs) (hplace : s.place? fs path = some (id, inner)) {upper : Path}
    (hupper : upper <+: inner) : ∃ other, other <+: path ∧ s.place? fs other = some (id, upper) := by
  induction h with
  | memory h =>
    rw [place?_memory] at hplace
    cases hplace
    exact ⟨upper, hupper, place?_memory ..⟩
  | @overlay t r h =>
    obtain ⟨id', hfs, hat⟩ := h.place? path
    rw [hat] at hplace
    cases hplace
    generalize hlayer : s.layer t r path = mount at hfs hupper
    have hpoint : mount.point <+: path := hlayer ▸ layer_point_above s t r path
    have hpath := List.prefix_iff_eq_append.1 hpoint
    have hother : mount.point ++ upper <+: path := by
      rw [← hpath]
      exact (List.prefix_append_right_inj _).2 hupper
    have hsame : s.layer t r (mount.point ++ upper) = mount :=
      (owner_between h.pointed (hlayer ▸ List.prefix_append _ _) hother).trans hlayer
    obtain ⟨other, hfs', hat'⟩ := h.place? (mount.point ++ upper)
    rw [hsame] at hfs' hat'
    rw [List.drop_left] at hat'
    obtain rfl : id = other := FileSystem.memory.inj (hfs.symm.trans hfs')
    exact ⟨mount.point ++ upper, hother, hat'⟩
  | view h ih =>
    rw [place?_view] at hplace
    obtain ⟨other, hother, hat⟩ := ih hplace
    exact ⟨other, hother, (place?_view ..).trans hat⟩

theorem place_lt (h : s.Backed fs) (hroot : s.nodeOn fs [] = some .directory)
    (hplace : s.place? fs path = some (id, inner)) : id < s.trees.length := by
  induction h with
  | memory h =>
    rw [nodeOn_memory] at hroot
    rw [place?_memory] at hplace
    cases hplace
    refine Nat.lt_of_not_le fun hle => ?_
    rw [tree_of_le hle] at hroot
    cases hroot
  | overlay h =>
    obtain ⟨other, hfs, hat⟩ := h.place? path
    obtain ⟨id', hfs', hid⟩ := h.layer_memory (layer_mem s _ _ path)
    rw [hat] at hplace
    cases hplace
    cases hfs.symm.trans hfs'
    exact hid
  | view h ih =>
    rw [nodeOn_view] at hroot
    rw [place?_view] at hplace
    exact ih hroot hplace

theorem makeDirectory (h : s.Backed fs) (hroot : s.nodeOn fs [] = some .directory) (text : String) :
    (∃ fault, s.apply fs text .makeDirectory = (.error fault, s)) ∨
      ∃ s', s.apply fs text .makeDirectory = (.ok (), s') ∧ s.Standing s' ∧ s'.Backed fs ∧
        s'.nodeOn fs (Path.ofText text) = some .directory ∧
        ∀ other, s'.nodeOn fs other = s.nodeOn fs other ∨
          s.nodeOn fs other = none ∧ s'.nodeOn fs other = some .directory ∧
            other <+: Path.ofText text := by
  have hsettles := settles_apply (c := .makeDirectory) rfl s fs text
  generalize s.apply fs text .makeDirectory = outcome at hsettles ⊢
  cases hsettles with
  | fail fault => exact .inl ⟨fault, rfl⟩
  | @tree id shown inner tree hplace hchange =>
    have hid := h.place_lt hroot hplace
    have hgrown := h.wooded.tree hid
    have hinner := canonical_place (Path.canonical_ofText text) hplace
    obtain ⟨hafter, hmade, helse⟩ := hgrown.makeDirectory hinner hchange
    have hstanding : s.Standing (s.setTree id tree) := ⟨rfl, rfl⟩
    refine .inr ⟨_, rfl, hstanding, h.setTree hafter id, ?_, fun other => ?_⟩
    · rw [nodeOn, hstanding.place?, hplace, Option.bind_some, tree_setTree hid, if_pos rfl, hmade]
    · rw [nodeOn, nodeOn, hstanding.place?]
      cases hat : s.place? fs other with
      | none => exact .inl rfl
      | some place =>
        obtain ⟨id', inner'⟩ := place
        rw [Option.bind_some, Option.bind_some, tree_setTree hid]
        split
        case isFalse => exact .inl rfl
        case isTrue hsame =>
          subst hsame
          rcases helse inner' with hold | ⟨hupper, hnone, hnew⟩
          · exact .inl hold
          · obtain ⟨above, habove, hleads⟩ := h.above hplace hupper
            exact .inr ⟨hnone, hnew, h.apart hat hleads ▸ habove⟩

end Backed

end Files

/-- Directories may have been made at paths of `made` where nothing was, and nothing else has
happened. -/
structure World.Founds (fs : FileSystem) (made : Path → Prop) (v w : World) : Prop where
  processes : w.processes = v.processes
  standing : v.files.Standing w.files
  backed : w.files.Backed fs
  node : ∀ path, w.files.nodeOn fs path = v.files.nodeOn fs path ∨
    v.files.nodeOn fs path = none ∧ w.files.nodeOn fs path = some .directory ∧ made path

namespace World.Founds

variable {fs : FileSystem} {made more : Path → Prop} {u v w : World}

theorem refl (h : w.files.Backed fs) : Founds fs made w w := ⟨rfl, .refl _, h, fun _ => .inl rfl⟩

theorem present (h : Founds fs made v w) {path : Path} {node : Node}
    (hpath : v.files.nodeOn fs path = some node) : w.files.nodeOn fs path = some node := by
  rcases h.node path with hsame | ⟨hnone, -⟩
  · rw [hsame, hpath]
  · rw [hnone] at hpath
    cases hpath

theorem before (h : Founds fs made v w) {path : Path} {node : Node} (hfile : node ≠ .directory)
    (hpath : w.files.nodeOn fs path = some node) : v.files.nodeOn fs path = some node := by
  rcases h.node path with hsame | ⟨-, hnew, -⟩
  · rw [← hsame, hpath]
  · exact absurd (Option.some.inj (hpath.symm.trans hnew)) hfile

theorem trans (huv : Founds fs made u v) (hvw : Founds fs made v w) : Founds fs made u w where
  processes := hvw.processes.trans huv.processes
  standing := huv.standing.trans hvw.standing
  backed := hvw.backed
  node path := by
    rcases huv.node path with hsame | ⟨hnone, hnew, hmade⟩
    · rw [← hsame]
      exact hvw.node path
    · exact .inr ⟨hnone, hvw.present hnew, hmade⟩

theorem mono (h : Founds fs made v w) (hmore : ∀ path, made path → more path) :
    Founds fs more v w :=
  { h with node := fun path => (h.node path).imp_right (And.imp_right (And.imp_right (hmore path))) }

theorem of_rests (h : v.Rests w) (hbacked : v.files.Backed fs) : Founds fs made v w where
  processes := h.processes
  standing := h.standing
  backed := hbacked.congr h.standing h.trees
  node path := .inl (Files.nodeOn_congr h.standing h.trees fs path)

theorem target (h : Founds fs made v w) (run : Invocation) (operand : String) :
    run.fs w = run.fs v ∧ run.target w operand = run.target v operand :=
  run.target_congr h.processes operand

theorem alike (h : Founds fs made v w) {text : String}
    (hpath : v.files.nodeOn fs (Path.ofText text) ≠ none) : Files.Alike v.files w.files fs text := by
  refine Files.alike_of_place h.standing fun id path hplace => ?_
  obtain ⟨node, hnode⟩ := Option.ne_none_iff_exists'.1 hpath
  have hafter := h.present hnode
  rw [Files.nodeOn, hplace, Option.bind_some] at hnode
  rw [Files.nodeOn, h.standing.place?, hplace, Option.bind_some] at hafter
  exact hafter.trans hnode.symm

end World.Founds

open World (Founds)

namespace Utility

variable {run : Invocation} {w s : World} {parents : Bool} {code : Int}

theorem mkdirTargets_append (done rest : List String) :
    mkdirTargets run parents code (done ++ rest) w =
      mkdirTargets run parents (mkdirTargets run parents code done w).1 rest
        (mkdirTargets run parents code done w).2 := by
  induction done generalizing code w with
  | nil => rfl
  | cons operand done ih =>
    simp only [List.cons_append, mkdirTargets]
    split
    · split <;> exact ih
    · split <;> exact ih

theorem founds_operand (hbacked : w.files.Backed (run.fs w))
    (hroot : w.files.nodeOn (run.fs w) [] = some .directory) {operand : String} {after : Int}
    (hrun : mkdirTargets run parents code [operand] w = (after, s)) :
    Founds (run.fs w) (· <+: Path.ofText (run.target w operand)) w s ∧
      (after = 0 → code = 0 ∧
        (parents = false →
          w.files.nodeOn (run.fs w) (Path.ofText (run.target w operand)) = none) ∧
        (w.files.nodeOn (run.fs w) (Path.ofText (run.target w operand)) = none →
          s.files.nodeOn (run.fs w) (Path.ofText (run.target w operand)) = some .directory)) := by
  have hsaid (text : String) : Founds (run.fs w) (· <+: Path.ofText (run.target w operand)) w
      (run.writeLine w text) := .of_rests (.writeLine w text run.console) hbacked
  rw [mkdirTargets] at hrun
  split at hrun
  case isTrue hthere =>
    cases parents with
    | true =>
      cases hrun
      refine ⟨.refl hbacked, fun hcode => ⟨hcode, fun hflag => (by cases hflag), fun hnone => ?_⟩⟩
      obtain ⟨hfile, hdirectory⟩ := (hbacked.nodeOn_eq_none_iff _).1 hnone
      simp [hfile, hdirectory] at hthere
    | false =>
      cases hrun
      exact ⟨hsaid _, fun hcode => by cases hcode⟩
  case isFalse hthere =>
    have hnone : w.files.nodeOn (run.fs w) (Path.ofText (run.target w operand)) = none := by
      simp only [Bool.or_eq_true, not_or, Bool.not_eq_true] at hthere
      exact (hbacked.nodeOn_eq_none_iff _).2 hthere.symm
    rcases hbacked.makeDirectory hroot (run.target w operand) with
      ⟨fault, hfails⟩ | ⟨files, hok, hstanding, hafter, hmade, helse⟩
    · simp only [World.onFiles, hfails] at hrun
      cases hrun
      exact ⟨hsaid _, fun hcode => by cases hcode⟩
    · simp only [World.onFiles, hok] at hrun
      cases hrun
      exact ⟨⟨rfl, hstanding, hafter, helse⟩, fun hcode => ⟨hcode, fun _ => hnone, fun _ => hmade⟩⟩

/-- What several operands mean, or what is above it. -/
def Leads (run : Invocation) (operands : List String) (w : World) (path : Path) : Prop :=
  ∃ operand ∈ operands, path <+: Path.ofText (run.target w operand)

/-- By induction on the operands: with no complaint each of them means a directory, or a file that was
there from the start. -/
theorem founds_mkdirTargets (hbacked : w.files.Backed (run.fs w))
    (hroot : w.files.nodeOn (run.fs w) [] = some .directory) {operands : List String} {after : Int}
    (hrun : mkdirTargets run parents code operands w = (after, s)) :
    Founds (run.fs w) (Leads run operands w) w s ∧
      (after = 0 → code = 0 ∧ ∀ operand ∈ operands,
        s.files.nodeOn (run.fs w) (Path.ofText (run.target w operand)) = some .directory ∨
        ∃ node, node ≠ .directory ∧
          w.files.nodeOn (run.fs w) (Path.ofText (run.target w operand)) = some node) := by
  induction operands generalizing w code with
  | nil =>
    cases hrun
    exact ⟨.refl hbacked, fun hcode => ⟨hcode, by simp⟩⟩
  | cons operand operands ih =>
    rw [← List.singleton_append, mkdirTargets_append] at hrun
    rcases hfirst : mkdirTargets run parents code [operand] w with ⟨between, v⟩
    rw [hfirst] at hrun
    obtain ⟨hnow, hzero⟩ := founds_operand hbacked hroot hfirst
    have hfs := (hnow.target run "").1
    obtain ⟨hlater, hall⟩ := ih (hfs ▸ hnow.backed) (hfs ▸ hnow.present hroot) hrun
    rw [hfs] at hlater hall
    refine ⟨?_, fun hafter => ?_⟩
    · refine (hnow.mono fun path hpath => ⟨operand, List.mem_cons_self, hpath⟩).trans
        (hlater.mono ?_)
      rintro path ⟨other, hother, hpath⟩
      rw [(hnow.target run other).2] at hpath
      exact ⟨other, List.mem_cons_of_mem _ hother, hpath⟩
    · obtain ⟨hbetween, hrest⟩ := hall hafter
      obtain ⟨hcode, -, hmade⟩ := hzero hbetween
      refine ⟨hcode, List.forall_mem_cons.2 ⟨?_, fun other hother => ?_⟩⟩
      · cases hbefore : w.files.nodeOn (run.fs w) (Path.ofText (run.target w operand)) with
        | none => exact .inl (hlater.present (hmade hbefore))
        | some node =>
          by_cases hnode : node = .directory
          · exact .inl (hlater.present (hnow.present (hnode ▸ hbefore)))
          · exact .inr ⟨node, hnode, rfl⟩
      · have hother := hrest other hother
        rw [(hnow.target run other).2] at hother
        exact hother.imp_right fun ⟨node, hnode, hat⟩ => ⟨node, hnode, hnow.before hnode hat⟩

theorem mkdirTargets_absent (hbacked : w.files.Backed (run.fs w))
    (hroot : w.files.nodeOn (run.fs w) [] = some .directory) {done rest : List String}
    {operand : String} (hrun : mkdirTargets run false code (done ++ operand :: rest) w = (0, s)) :
    (mkdirTargets run false code done w).2.files.nodeOn (run.fs w)
      (Path.ofText (run.target w operand)) = none := by
  rw [mkdirTargets_append] at hrun
  rcases hdone : mkdirTargets run false code done w with ⟨between, v⟩
  rw [hdone, ← List.singleton_append, mkdirTargets_append] at hrun
  obtain ⟨hnow, -⟩ := founds_mkdirTargets hbacked hroot hdone
  obtain ⟨hfs, htarget⟩ := hnow.target run operand
  have hbacked' : v.files.Backed (run.fs v) := hfs ▸ hnow.backed
  have hroot' : v.files.nodeOn (run.fs v) [] = some .directory := hfs ▸ hnow.present hroot
  rcases hfirst : mkdirTargets run false between [operand] v with ⟨middle, u⟩
  rw [hfirst] at hrun
  obtain ⟨hthen, hzero⟩ := founds_operand hbacked' hroot' hfirst
  have hfs' := (hthen.target run "").1
  obtain ⟨-, hall⟩ := founds_mkdirTargets (hfs' ▸ hthen.backed) (hfs' ▸ hthen.present hroot') hrun
  have habsent := (hzero (hall rfl).1).2.1 rfl
  rwa [hfs, htarget] at habsent

/-- However `mkdir` is called with operands, it returns a status, and everything that was there answers
as before; what is new are directories that operands mean, or above these. If the status is 0 then
without the flag for parents nothing was where an operand leads when its turn came, and there is a
directory now; and in any case there is a directory wherever an operand leads, unless there was a file
before. -/
theorem mkdir_makes (hbacked : w.files.Backed (run.fs w))
    (hroot : w.files.isDirectory (run.fs w) "/" = true) (hoperands : (splitFlags run.args).2 ≠ []) :
    ∃ code s, mkdir run w = (.ok code, s) ∧ s.processes = w.processes ∧
      (∀ text, w.files.isDirectory (run.fs w) text = true ∨ w.files.isFile (run.fs w) text = true →
        Files.Alike w.files s.files (run.fs w) text) ∧
      (∀ path, s.files.nodeOn (run.fs w) path = w.files.nodeOn (run.fs w) path ∨
        s.files.nodeOn (run.fs w) path = some .directory ∧
          Leads run (splitFlags run.args).2 w path) ∧
      (code = 0 → (splitFlags run.args).1.contains 'p' = false →
        ∀ done operand rest, (splitFlags run.args).2 = done ++ operand :: rest →
          (mkdirTargets run false 0 done w).2.files.isFile (run.fs w) (run.target w operand) = false ∧
          (mkdirTargets run false 0 done w).2.files.isDirectory (run.fs w) (run.target w operand) =
            false ∧
          s.files.isDirectory (run.fs w) (run.target w operand) = true) ∧
      (code = 0 → ∀ operand ∈ (splitFlags run.args).2,
        (s.files.isDirectory (run.fs w) (run.target w operand) = true ↔
          w.files.isFile (run.fs w) (run.target w operand) = false)) := by
  have hroot' : w.files.nodeOn (run.fs w) [] = some .directory := (hbacked.isDirectory_iff "/").1 hroot
  rcases hsplit : splitFlags run.args with ⟨flags, operands⟩
  rw [hsplit] at hoperands
  rcases hrun : mkdirTargets run (flags.contains 'p') 0 operands w with ⟨code, s⟩
  have hmkdir : mkdir run w = (.ok code, s) := by
    rw [mkdir, hsplit]
    cases operands with
    | nil => exact absurd rfl hoperands
    | cons operand operands => simp only [hrun]
  obtain ⟨hfounds, hzero⟩ := founds_mkdirTargets hbacked hroot' hrun
  refine ⟨code, s, hmkdir, hfounds.processes, fun text hthere => hfounds.alike fun hnone => ?_,
    fun path => (hfounds.node path).imp_right And.right, ?_, ?_⟩
  · obtain ⟨hfile, hdirectory⟩ := (hbacked.nodeOn_eq_none_iff text).1 hnone
    simp [hfile, hdirectory] at hthere
  · rintro rfl hflag done operand rest rfl
    rw [hflag] at hrun
    have hdone := (founds_mkdirTargets hbacked hroot'
      (rfl : mkdirTargets run false 0 done w = (_, _))).1
    have habsent := mkdirTargets_absent hbacked hroot' hrun
    obtain ⟨hfile, hdirectory⟩ := (hdone.backed.nodeOn_eq_none_iff _).1 habsent
    refine ⟨hfile, hdirectory, (hfounds.backed.isDirectory_iff _).2 ?_⟩
    refine ((hzero rfl).2 operand (by simp)).resolve_right fun ⟨node, _, hnode⟩ => ?_
    rw [hdone.present hnode] at habsent
    cases habsent
  · rintro rfl operand hoperand
    rw [hfounds.backed.isDirectory_iff, ← Bool.not_eq_true, hbacked.isFile_iff]
    constructor
    · rintro hmade ⟨node, hnode, hfile⟩
      exact hfile (Option.some.inj ((hfounds.present hnode).symm.trans hmade))
    · intro hfile
      exact ((hzero rfl).2 operand hoperand).resolve_right fun ⟨node, hnode, hat⟩ =>
        hfile ⟨node, hat, hnode⟩

end Utility

namespace Sample

open Utility

/-- `mkdir a a/b` makes both directories and leaves the file alone. -/
theorem mkdir_two :
    ∃ s, mkdir (removing ["a", "a/b"]) homely = (.ok 0, s) ∧
      s.files.isDirectory ((removing ["a", "a/b"]).fs homely)
        ((removing ["a", "a/b"]).target homely "a/b") = true ∧
      Files.Alike homely.files s.files ((removing ["a", "a/b"]).fs homely) "/d/f" := by
  have hroot : homely.files.isDirectory ((removing ["a", "a/b"]).fs homely) "/" = true := by cbv
  have hsplit : splitFlags (removing ["a", "a/b"]).args = ([], ["a", "a/b"]) := by decide
  have hzero : (mkdir (removing ["a", "a/b"]) homely).1 = .ok 0 := by cbv
  obtain ⟨code, s, hrun, -, halike, -, hplain, -⟩ :=
    mkdir_makes (homely_backed _) hroot (by rw [hsplit]; simp)
  rw [hrun] at hzero
  cases hzero
  obtain ⟨-, -, hmade⟩ := hplain rfl (by rw [hsplit]; rfl) ["a"] "a/b" [] (by rw [hsplit]; rfl)
  exact ⟨s, hrun, hmade, halike "/d/f" (.inr (by cbv))⟩

/-- `mkdir -p f`, where `f` is a file: the status is 0, and there is no directory. -/
theorem mkdir_over_file :
    (splitFlags (removing ["-p", "f"]).args).2 = ["f"] ∧
    ∃ s, mkdir (removing ["-p", "f"]) homely = (.ok 0, s) ∧
      s.files.isDirectory ((removing ["-p", "f"]).fs homely)
        ((removing ["-p", "f"]).target homely "f") = false := by
  have hzero : (mkdir (removing ["-p", "f"]) homely).1 = .ok 0 := by cbv
  refine ⟨by decide, (mkdir (removing ["-p", "f"]) homely).2, Prod.ext hzero rfl, ?_⟩
  cbv

end Sample

end ToyUnix
