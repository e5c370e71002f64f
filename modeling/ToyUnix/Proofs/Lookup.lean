import ToyUnix.Proofs.Addressing
import ToyUnix.Proofs.Canonical
import ToyUnix.Proofs.Homes
import ToyUnix.Proofs.Files.Promises

/-!
The programs that a name can stand for. The names offered for completion come from listing the
directories on the path of a process, and a name is run by trying it in each of these directories.
On a computer without mounts the two agree for every name that an entry can have. Main statement:
`World.commandNames_resolve`.
-/

set_option autoImplicit false

namespace ToyUnix

section

variable {α : Type} [BEq α] [LawfulBEq α] {a : α}

theorem mem_eraseReps_loop (b : α) (as kept : List α) :
    a ∈ List.eraseRepsBy.loop (· == ·) b as kept ↔ a ∈ b :: as ∨ a ∈ kept := by
  induction as generalizing b kept with
  | nil => simp [List.eraseRepsBy.loop, or_comm]
  | cons c as ih =>
    rw [List.eraseRepsBy.loop]
    cases hbc : b == c with
    | true =>
      obtain rfl := eq_of_beq hbc
      simp [ih]
    | false =>
      simp only [ih, List.mem_cons]
      tauto

theorem mem_eraseReps {as : List α} : a ∈ as.eraseReps ↔ a ∈ as := by
  cases as with
  | nil => simp [List.eraseReps, List.eraseRepsBy]
  | cons b as => simpa [List.eraseReps, List.eraseRepsBy] using mem_eraseReps_loop (a := a) b as []

end

namespace PathText

theorem fileName_text (path : Path) {segment : String} (h : '/' ∉ segment.toList) :
    fileName (Path.text (path ++ [segment])) = segment := by
  have hchars : (Path.chars (path ++ [segment])).reverse =
      segment.toList.reverse ++ '/' :: (Path.chars path).reverse := by
    simp [Path.chars]
  have hname : ∀ c ∈ segment.toList.reverse, decide (c ≠ '/') = true := by
    intro c hc
    rw [decide_eq_true_eq]
    rintro rfl
    exact h (List.mem_reverse.1 hc)
  rw [fileName, Path.toList_text (by simp), hchars, List.takeWhile_append_of_pos hname]
  simp

theorem ofText_combine (dir : String) {name : String} (h : Path.IsName name) :
    Path.ofText (combine dir name) = Path.ofText dir ++ [name] := by
  have hslash : name.toList.head? ≠ some '/' := fun hhead => h.2 (List.mem_of_mem_head? hhead)
  rw [combine_relative hslash, normalize_eq, Path.ofText_text (Path.canonical_ofText _),
    ofText_append, cut_of_not_mem h.2, List.foldl_cons, List.foldl_nil, Path.descend_name h]

end PathText

namespace Files

variable {s : Files} {fs : FileSystem} {t r : Nat} {text : String}

theorem isExecutable_iff (s : Files) (fs : FileSystem) (text : String) :
    s.isExecutable fs text = true ↔ ∃ executable, s.executableAt fs text = .ok executable := by
  have hrebase {point : String} {found : Except Fault Executable} :
      (∃ executable, rebaseFault point found = .ok executable) ↔
        ∃ executable, found = .ok executable := by
    cases found <;> simp [rebaseFault, Except.mapError]
  unfold isExecutable executableAt
  induction s.route fs text with
  | tree id shown path =>
    simp only [answers, executable, Tree.answers, Tree.executable]
    rcases (s.tree id).node? path with _ | (⟨data, _ | _⟩ | _ | program) <;> simp [Node.answers]
  | deviceList registry | noDevice path => simp [answers, executable]
  | device name rest ih =>
    rw [executable, hrebase, answers]
    exact ih
  | view user path rest ih => simpa [answers, executable] using ih
  | mounted id path point rest ih =>
    rw [executable, hrebase]
    simpa [answers] using ih

/-- A file system that finds files and lists them as one tree does. -/
structure Mirrors (s : Files) (fs : FileSystem) (r : Nat) : Prop where
  executable : ∀ text,
    s.isExecutable fs text = (s.tree r).answers .isExecutable (Path.ofText text)
  listed : ∀ text listed,
    s.files fs text = .ok listed ↔ (s.tree r).list .file (Path.ofText text) = .ok listed

theorem mirrors_overlay (h : s.mounts t = []) : s.Mirrors (overlay t r) r := by
  have hroute (text : String) : s.route (overlay t r) text = .mounted t (Path.ofText text) []
      (.tree r (Path.ofText text).text (Path.ofText text)) := by
    have howner : s.owner t (.memory r) (Path.ofText text) = ⟨[], .memory r⟩ := by
      rw [owner, h]
      rfl
    rw [route, follow_mounts, howner, Files.follow]
    rfl
  refine ⟨fun text => ?_, fun text listed => ?_⟩
  · rw [isExecutable, hroute]
    simp [answers]
  · have hroot (listed : List String) : rebaseAll (Path.text []) listed = listed :=
      List.map_id listed
    rw [files, hroute, list, list]
    cases (s.tree r).list .file (Path.ofText text) <;>
      simp [rebaseFault, Except.mapError, Except.map, hroot]

theorem Mirrors.view (h : s.Mirrors fs r) (id : Nat) (user : User) :
    s.Mirrors (.view id fs user) r := by
  have hroute (text : String) :
      s.route (.view id fs user) text = .view user (Path.ofText text) (s.route fs text) := by
    rw [route, Files.follow]
    rfl
  refine ⟨fun text => ?_, fun text listed => ?_⟩
  · rw [← h.executable, isExecutable, isExecutable, hroute]
    simp [answers]
  · rw [← h.listed, files, files, hroute, list]

/-- Listing a directory shows a name of something executable if trying the name there finds it. -/
theorem Mirrors.offers_iff (h : s.Mirrors fs r) (hwooded : s.Wooded) (dir : String) {name : String}
    (hname : Path.IsName name) :
    (∃ listed, s.files fs dir = .ok listed ∧
      ∃ path ∈ listed, s.isExecutable fs path = true ∧ PathText.fileName path = name) ↔
      s.isExecutable fs (PathText.combine dir name) = true := by
  have hcombine := PathText.ofText_combine dir hname
  constructor
  · rintro ⟨listed, hlisted, path, hpath, hexecutable, rfl⟩
    rw [h.listed] at hlisted
    have hgrown := hwooded.of_node (Tree.list_directory hlisted)
    obtain ⟨other, node, hne, hparent, hnode, -, rfl⟩ := (hgrown.mem_list hlisted).1 hpath
    have hother := hgrown.canonical other node hnode
    obtain ⟨init, segment, rfl⟩ := (List.eq_nil_or_concat' other).resolve_left hne
    have hslash : '/' ∉ segment.toList := (hother segment (by simp)).2
    rw [Path.parent, List.dropLast_concat] at hparent
    rw [h.executable, Path.ofText_text hother] at hexecutable
    rw [h.executable, hcombine, PathText.fileName_text init hslash, ← hparent]
    exact hexecutable
  · intro hexecutable
    rw [h.executable, hcombine, Tree.answers, Option.any_eq_true] at hexecutable
    obtain ⟨node, hnode, hanswer⟩ := hexecutable
    have hgrown := hwooded.of_node hnode
    have hdir : (s.tree r).node? (Path.ofText dir) = some .directory := by
      have habove := hgrown.above _ node (by simp) hnode
      rwa [Path.parent, List.dropLast_concat] at habove
    obtain ⟨listed, hlisted⟩ := Tree.exists_list hdir .file
    have hkind : node.kind = .file := by
      rw [Node.kind_eq_file]
      rintro rfl
      cases hanswer
    have hpath := hgrown.canonical _ node hnode
    refine ⟨listed, (h.listed dir listed).2 hlisted, _, (hgrown.mem_list hlisted).2
      ⟨Path.ofText dir ++ [name], node, by simp, ?_, hnode, hkind, rfl⟩, ?_, ?_⟩
    · rw [Path.parent, List.dropLast_concat]
    · rw [h.executable, Path.ofText_text hpath, Tree.answers, hnode]
      exact hanswer
    · exact PathText.fileName_text _ hname.2

end Files

namespace World

variable {named : Assoc String FileSystem} {w : World} {computer : Computer}

/-! What is looked up. -/

theorem searchProgram_some {fs : FileSystem} {name path : String} {dirs : List String}
    (h : w.searchProgram fs name dirs = some path) :
    ∃ dir ∈ dirs, PathText.combine dir name = path ∧ w.files.isExecutable fs path = true := by
  induction dirs with
  | nil => cases h
  | cons dir dirs ih =>
    simp only [searchProgram] at h
    split at h
    · rename_i hfound
      cases h
      exact ⟨dir, List.mem_cons_self, rfl, hfound⟩
    · obtain ⟨further, hfurther, hpath⟩ := ih h
      exact ⟨further, List.mem_cons_of_mem dir hfurther, hpath⟩

theorem searchProgram_none {fs : FileSystem} {name : String} {dirs : List String}
    (h : w.searchProgram fs name dirs = none) :
    ∀ dir ∈ dirs, w.files.isExecutable fs (PathText.combine dir name) ≠ true := by
  induction dirs with
  | nil => nofun
  | cons dir dirs ih =>
    simp only [searchProgram] at h
    split at h
    · cases h
    · rename_i hmissing
      exact List.forall_mem_cons.2 ⟨hmissing, ih h⟩

theorem isSome_resolveProgram (p : Nat) {name : String} (h : '/' ∉ name.toList) :
    (w.resolveProgram computer p name).isSome ↔
      (∃ dir ∈ w.searchDirectories computer p,
        w.files.isExecutable (w.viewOf computer p) (PathText.combine dir name) = true) ∨
      ∃ catalog ∈ computer.programs, name ∈ catalog.names := by
  have hslash : ¬ name.toList.contains '/' = true := by rwa [List.contains_iff_mem]
  rw [resolveProgram, if_neg hslash]
  cases hsearch : w.searchProgram (w.viewOf computer p) name (w.searchDirectories computer p) with
  | some path =>
    obtain ⟨dir, hdir, rfl, hfound⟩ := searchProgram_some hsearch
    obtain ⟨executable, hrun⟩ := (w.files.isExecutable_iff _ _).1 hfound
    refine iff_of_true ?_ (.inl ⟨dir, hdir, hfound⟩)
    simp [hrun, Except.toOption]
  | none =>
    have hnone : ¬ ∃ dir ∈ w.searchDirectories computer p,
        w.files.isExecutable (w.viewOf computer p) (PathText.combine dir name) = true :=
      fun ⟨dir, hdir, hfound⟩ => searchProgram_none hsearch dir hdir hfound
    cases computer.programs <;> simp [hnone, Catalog.isSome_resolve?]

theorem mem_commandNames (p : Nat) (name : String) :
    name ∈ w.commandNames computer p ↔
      (∃ dir ∈ w.searchDirectories computer p, ∃ listed,
        w.files.files (w.viewOf computer p) dir = .ok listed ∧ ∃ path ∈ listed,
          w.files.isExecutable (w.viewOf computer p) path = true ∧
            PathText.fileName path = name) ∨
      ∃ catalog ∈ computer.programs, name ∈ catalog.names := by
  rw [commandNames, mem_eraseReps, mem_sortTexts, List.mem_append, List.mem_flatMap]
  refine or_congr (exists_congr fun dir => and_congr_right fun _ => ?_) ?_
  · cases w.files.files (w.viewOf computer p) dir <;> simp [and_assoc]
  · cases computer.programs <;> simp

/-! What is true of every world that can come about. -/

theorem building_wooded : Building Files.Wooded where
  apply _ fs text c h := h.apply fs text c
  memory _ h := h.addMemory
  devices _ _ h := h
  table _ _ h := h

theorem trees_addComputer (w : World) (config : ComputerConfig) :
    (w.addComputer config).2.files.trees = (buildFiles w.files w.registry config).2.trees := by
  simp only [addComputer, onFiles, onProcesses]
  rcases buildFiles w.files w.registry config with ⟨fault | fs, files⟩
  · rfl
  · simp only
    rcases bootProcesses w.processes w.nextComputer
      (config.users.map (User.ofConfig · w.nextComputer)) with ⟨fault | ⟨table, init, systemd⟩, s⟩
    · rfl
    · simp only
      cases config.narrativeId <;> rfl

theorem wooded_addComputer (h : w.files.Wooded) (config : ComputerConfig) :
    (w.addComputer config).2.files.Wooded :=
  (building_wooded.buildFiles h w.registry config).congr (w.trees_addComputer config)

theorem Reached.based (h : w.Reached named) :
    w.files.Wooded ∧ ∀ fs ∈ w.computers.map (·.fs), ∃ t r, fs = Files.overlay t r := by
  induction h with
  | fresh => exact ⟨nofun, by simp [World.fresh]⟩
  | @added named w w' config number computer hw hadd hcomputer ih =>
    have hwooded := wooded_addComputer ih.1 config
    rw [hadd] at hwooded
    obtain ⟨added, files, hcomputers, rfl, -⟩ := addComputer_ok hadd
    obtain ⟨-, -, -, built, hbuilt, -⟩ := addComputer_parts hadd hcomputer
    obtain ⟨t, r, hfs, -⟩ := Files.buildFiles_ok hbuilt
    rw [hcomputers, List.getElem?_concat_length, Option.some.injEq] at hcomputer
    subst hcomputer
    refine ⟨hwooded, fun fs hmem => ?_⟩
    rw [hcomputers, List.map_append] at hmem
    rcases List.mem_append.1 hmem with hmem | hmem
    · exact ih.2 fs hmem
    · exact ⟨t, r, (List.mem_singleton.1 hmem).trans hfs⟩
  | @failed named w w' config fault hw hadd ih =>
    obtain ⟨hcomputers, -, -⟩ := addComputer_error hadd
    have hwooded := wooded_addComputer ih.1 config
    rw [hadd] at hwooded
    rw [hcomputers]
    exact ⟨hwooded, ih.2⟩
  | registered name hw hmade ih => exact ⟨ih.1.congr rfl, ih.2⟩
  | unregistered name hw ih => exact ⟨ih.1.congr rfl, ih.2⟩
  | expired held hw ih => exact ⟨ih.1.congr rfl, ih.2⟩
  | worked deeds hw hdeeds hfiles hregistry hcomputers ih =>
    rw [hfiles, hcomputers]
    exact ⟨ih.1.run deeds, ih.2⟩

theorem Reached.mirrors (h : w.Reached named) (hcomputer : computer ∈ w.computers)
    (hbare : w.mountsOf computer = []) (p : Nat) :
    ∃ r, w.files.Mirrors (w.viewOf computer p) r := by
  obtain ⟨t, r, hfs⟩ := h.based.2 computer.fs (List.mem_map_of_mem hcomputer)
  rw [mountsOf, hfs] at hbare
  have hmirrors := Files.mirrors_overlay (r := r) hbare
  refine ⟨r, ?_⟩
  unfold viewOf Computer.view
  rw [hfs]
  cases w.process? p with
  | none => exact hmirrors
  | some process => exact hmirrors.view 0 process.user

/-- In every world that can come about, the names that are offered to a process on a computer
without mounts are just those that stand for a program there, whatever the process has in `PATH` and
whatever catalog of programs the computer has, if any. -/
theorem commandNames_resolve (h : w.Reached named) (hcomputer : computer ∈ w.computers)
    (hbare : w.mountsOf computer = []) (p : Nat) {name : String} (hname : Path.IsName name) :
    name ∈ w.commandNames computer p ↔ (w.resolveProgram computer p name).isSome = true := by
  obtain ⟨r, hmirrors⟩ := h.mirrors hcomputer hbare p
  rw [mem_commandNames, isSome_resolveProgram p hname.2]
  exact or_congr_left (exists_congr fun dir => and_congr_right fun _ =>
    hmirrors.offers_iff h.based.1 dir hname)

def fewPrograms : Catalog := (Catalog.empty.register "ls" .ls).register "cat" .cat

def searched : World :=
  { linked with
    files := linked.files.run
      [.request (Files.overlay 1 1) "/tmp/x" (.change (.write [104])),
        .request (Files.overlay 1 1) "/tmp/x" (.change (.setExecutable true))]
    processes := linked.processes.setEnv 2 "PATH" "/bin::tmp/./"
    computers := linked.computers.map fun computer =>
      { computer with programs := some fewPrograms } }

def searcher : Computer := { booted 1 "beta" "beta-02" with programs := some fewPrograms }

theorem reached_searched :
    searched.Reached [("alpha-01", Files.overlay 0 0), ("beta-02", Files.overlay 1 1)] := by
  refine .worked _ reached_linked ?_ rfl rfl ?_
  · simp [Deed.Spares]
  · simp [searched]

/-- `x` is found in the second directory of the path, `cat` in the catalog, and `rm` nowhere. -/
theorem names_searched :
    searcher ∈ searched.computers ∧ searched.mountsOf searcher = [] ∧
    ("x" ∈ searched.commandNames searcher 2 ∧ (searched.resolveProgram searcher 2 "x").isSome) ∧
    ("cat" ∈ searched.commandNames searcher 2 ∧
      (searched.resolveProgram searcher 2 "cat").isSome) ∧
    "rm" ∉ searched.commandNames searcher 2 ∧
    ¬(searched.resolveProgram searcher 2 "rm").isSome := by
  have hcomputer : searcher ∈ searched.computers := by
    simp [searched, computers_linked, searcher]
  have hbare : searched.mountsOf searcher = [] := by cbv
  have hdirs : searched.searchDirectories searcher 2 = ["/bin", "tmp/./"] := by cbv
  have hfile : searched.files.isExecutable (searched.viewOf searcher 2) "/tmp/x" = true := by cbv
  have hbin : searched.files.isExecutable (searched.viewOf searcher 2) "/bin/rm" = false := by cbv
  have htmp : searched.files.isExecutable (searched.viewOf searcher 2) "/tmp/rm" = false := by cbv
  have hx : (searched.resolveProgram searcher 2 "x").isSome := by
    rw [isSome_resolveProgram 2 (by decide), hdirs]
    refine .inl ⟨"tmp/./", by simp, ?_⟩
    rwa [show PathText.combine "tmp/./" "x" = "/tmp/x" by decide]
  have hcat : (searched.resolveProgram searcher 2 "cat").isSome := by
    rw [isSome_resolveProgram 2 (by decide)]
    refine .inr ⟨fewPrograms, rfl, (Catalog.isSome_resolve? ..).1 ?_⟩
    rw [fewPrograms, Catalog.resolve?_register]
    rfl
  have hrm : ¬(searched.resolveProgram searcher 2 "rm").isSome := by
    rw [isSome_resolveProgram 2 (by decide), hdirs]
    rintro (⟨dir, hdir, hfound⟩ | ⟨catalog, hoffered, hname⟩)
    · simp only [List.mem_cons, List.not_mem_nil, or_false] at hdir
      obtain rfl | rfl := hdir
      · rw [show PathText.combine "/bin" "rm" = "/bin/rm" by decide, hbin] at hfound
        cases hfound
      · rw [show PathText.combine "tmp/./" "rm" = "/tmp/rm" by decide, htmp] at hfound
        cases hfound
    · obtain rfl : fewPrograms = catalog := Option.some.inj hoffered
      have hnone : fewPrograms.resolve? "rm" = none := by
        rw [fewPrograms, Catalog.resolve?_register, Catalog.resolve?_register]
        rfl
      rw [← Catalog.isSome_resolve?, hnone] at hname
      cases hname
  have hnames (name : String) (hname : Path.IsName name) :=
    commandNames_resolve reached_searched hcomputer hbare 2 hname
  exact ⟨hcomputer, hbare, ⟨(hnames "x" ⟨by decide, by decide⟩).2 hx, hx⟩,
    ⟨(hnames "cat" ⟨by decide, by decide⟩).2 hcat, hcat⟩,
    mt (hnames "rm" ⟨by decide, by decide⟩).1 hrm, hrm⟩

end World

end ToyUnix
