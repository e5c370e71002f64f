import ToyUnix.Files.Stream
import ToyUnix.Proofs.Files.Memory

/-!
What a user without root's rights can do to a memory file system through a view. The view checks the
path that was asked for, but a directory is made together with what is missing above it. So outside
of the home directory and of `/tmp` nothing changes but that directories above the home directory
appear. Main statement: `confined_iff`.
-/

set_option autoImplicit false

namespace ToyUnix

namespace Files

/-- What a user does with a view: changes, and writers, counted from the first that was opened
through the view. -/
inductive Act
  | change (path : String) (c : Change)
  | openWriter (path : String) (appending : Bool)
  | write (n : Nat) (data : Bytes)
  | flush (n : Nat)
  | close (n : Nat)

def act (s : Files) (view : FileSystem) (first : Nat) : Act → Files
  | .change path c => (s.apply view path c).2
  | .openWriter path appending => (s.openWrite view path appending).2
  | .write n data => s.writeBytes (first + n) data
  | .flush n => (s.flush (first + n)).2
  | .close n => s.closeWriter (first + n)

def session (s : Files) (view : FileSystem) (acts : List Act) : Files :=
  acts.foldl (fun now a => now.act view s.writers.length a) s

/-- All that can be read of a path is the same. -/
structure Alike (s s' : Files) (fs : FileSystem) (path : String) : Prop where
  isDirectory : s'.isDirectory fs path = s.isDirectory fs path
  isFile : s'.isFile fs path = s.isFile fs path
  isExecutable : s'.isExecutable fs path = s.isExecutable fs path
  contents : s'.contents fs path = s.contents fs path

/-- A path in normal form that is neither in the user's home directory nor in `/tmp`. -/
structure Outside (user : User) (path : String) : Prop where
  canonical : PathText.isCanonical path = true
  home : PathText.isWithin path user.home = false
  tmp : PathText.isWithin path "/tmp" = false

variable {s s' start : Files} {id m first : Nat} {user : User} {home path : Path}

theorem alike_of_node {text : String}
    (h : (s'.tree m).node? (Path.ofText text) = (s.tree m).node? (Path.ofText text)) :
    Alike s s' (.memory m) text := by
  constructor <;>
    simp [isDirectory, isFile, isExecutable, contents, route_memory, answers, Files.read,
      Tree.answers, Tree.read, h]

/-- The account of a user without root's rights. -/
structure Homed (user : User) (home : Path) : Prop where
  standard : user.privilege = .standard
  canonical : home.Canonical
  text : user.home = home.text

theorem above_tmp {other : Path} (h : other <+: ["tmp"]) (hne : ¬ ["tmp"] <+: other) :
    other = [] := by
  rcases List.prefix_cons_iff.1 h with rfl | ⟨rest, rfl, hrest⟩
  · rfl
  · rw [List.prefix_nil.1 hrest] at hne
    exact absurd (List.prefix_refl _) hne

theorem Homed.canWrite_iff (h : Homed user home) (hpath : path.Canonical) :
    user.canWrite path = true ↔ home <+: path ∨ ["tmp"] <+: path := by
  have htmp : Path.Canonical ["tmp"] := by
    intro segment hsegment
    rw [List.mem_singleton.1 hsegment]
    exact ⟨by decide, by decide⟩
  rw [← Path.isWithin_text hpath h.canonical, ← Path.isWithin_text hpath htmp, ← h.text]
  simp [User.canWrite, User.isRoot, h.standard, Path.text, Path.chars]

theorem Homed.denied_iff (h : Homed user home) (hpath : path.Canonical) :
    user.canWrite path = false ↔ ¬ home <+: path ∧ ¬ ["tmp"] <+: path := by
  rw [← not_or, ← h.canWrite_iff hpath, Bool.not_eq_true]

theorem Homed.outside_iff (h : Homed user home) (hpath : path.Canonical) :
    Outside user path.text ↔ user.canWrite path = false := by
  constructor
  · intro houtside
    simp [User.canWrite, User.isRoot, h.standard, houtside.home, houtside.tmp]
  · intro hdenied
    simp only [User.canWrite, Bool.or_eq_false_iff] at hdenied
    exact ⟨Path.isCanonical_text hpath, hdenied.1.2, hdenied.2⟩

/-- What is above a path that the user may change, and is no such path itself, is above the home
directory, or the root. -/
theorem Homed.above (h : Homed user home) {other : Path} (hpath : path.Canonical)
    (hwrite : user.canWrite path = true) (hother : other <+: path)
    (hdenied : user.canWrite other = false) : other <+: home ∨ other = [] := by
  obtain ⟨hhome, htmp⟩ := (h.denied_iff (hpath.above hother)).1 hdenied
  rcases (h.canWrite_iff hpath).1 hwrite with hin | hin
  · exact Or.inl ((List.prefix_or_prefix_of_prefix hother hin).resolve_right hhome)
  · exact Or.inr (above_tmp ((List.prefix_or_prefix_of_prefix hother hin).resolve_right htmp) htmp)

/-! What a session keeps. -/

/-- The files `s` of a session that began with `start`. Outside of what the user may change, only
directories above the home directory are new; and the user's writers all write where he may. -/
structure Kept (user : User) (home : Path) (m : Nat) (start s : Files) : Prop where
  tree : m < s.trees.length
  grown : (s.tree m).Grown
  outside : ∀ path : Path, path.Canonical → user.canWrite path = false →
    (s.tree m).node? path = (start.tree m).node? path ∨
      path <+: home ∧ (start.tree m).node? path = none ∧ (s.tree m).node? path = some .directory
  count : start.writers.length ≤ s.writers.length
  writers : ∀ n writer, s.writers[start.writers.length + n]? = some writer →
    writer.fs = .memory m ∧ user.canWrite (Path.ofText writer.path) = true

theorem writers_apply (s : Files) (m : Nat) (text : String) (c : Change) :
    (s.apply (.memory m) text c).2.writers = s.writers := by
  rcases apply_memory s m text c with hsame | ⟨tree, -, hset⟩
  · rw [hsame]
  · rw [hset]
    rfl

theorem Kept.apply (h : Kept user home m start s) (huser : Homed user home) {text : String}
    (hwrite : user.canWrite (Path.ofText text) = true) (c : Change) :
    Kept user home m start (s.apply (.memory m) text c).2 := by
  have hwriters := writers_apply s m text c
  have htext := Path.canonical_ofText text
  obtain ⟨htree, hgrown⟩ := grown_apply h.tree h.grown text c
  refine ⟨htree, hgrown, fun path hpath hdenied => ?_, hwriters ▸ h.count, hwriters ▸ h.writers⟩
  have hbefore := h.outside path hpath hdenied
  rcases apply_memory s m text c with hsame | ⟨tree, hchange, hset⟩
  · rwa [hsame]
  · rw [hset, tree_setTree h.tree, if_pos rfl]
    have hne : path ≠ Path.ofText text := by
      rintro rfl
      rw [hwrite] at hdenied
      cases hdenied
    rcases h.grown.change_node htext hchange hne with hnode | ⟨habove, hnone, hnew⟩
    · rwa [hnode]
    · rcases huser.above htext hwrite habove hdenied with hhome | rfl
      · rcases hbefore with hnode | ⟨-, -, hthere⟩
        · exact Or.inr ⟨hhome, hnode ▸ hnone, hnew⟩
        · rw [hnone] at hthere
          cases hthere
      · rw [h.grown.root] at hnone
        cases hnone

theorem apply_view (s : Files) (id : Nat) (target : FileSystem) (user : User) (text : String)
    (c : Change) :
    s.apply (.view id target user) text c =
      if user.canWrite (Path.ofText text) then s.apply target text c
      else (.error (.permissionDenied (Path.ofText text).text), s) := by
  have hroute : s.route (.view id target user) text =
      .view user (Path.ofText text) (s.route target text) := by
    simp only [route, Files.follow]
  simp only [Files.apply, hroute, Files.change]

theorem Kept.setPending (h : Kept user home m start s) (n : Nat) (pending : Bytes) :
    Kept user home m start (s.setPending n pending) := by
  unfold Files.setPending
  split
  · exact h
  · rename_i writer hwriter
    refine ⟨h.tree, h.grown, h.outside, by simpa using h.count, fun k other hother => ?_⟩
    simp only [List.getElem?_set] at hother
    split at hother
    · rename_i heq
      split at hother
      · cases hother
        exact h.writers k writer (heq ▸ hwriter)
      · cases hother
    · exact h.writers k other hother

theorem Kept.flush (h : Kept user home m start s) (huser : Homed user home) (n : Nat) :
    Kept user home m start (s.flush (start.writers.length + n)).2 := by
  unfold Files.flush
  split
  · exact h
  · rename_i writer hwriter
    obtain ⟨hfs, hwrite⟩ := h.writers n writer hwriter
    split
    · exact h
    · have happly := h.apply huser hwrite (.append writer.pending)
      rw [hfs]
      split
      · rename_i after hok
        rw [hok] at happly
        exact happly.setPending _ _
      · rename_i fault after herror
        rw [herror] at happly
        exact happly

theorem Kept.view (h : Kept user home m start s) (huser : Homed user home) (text : String)
    (c : Change) : Kept user home m start (s.apply (.view id (.memory m) user) text c).2 := by
  rw [apply_view]
  split
  · rename_i hwrite
    exact h.apply huser hwrite c
  · exact h

theorem view_ok {text : String} {c : Change}
    (h : (s.apply (.view id (.memory m) user) text c).1 = .ok ()) :
    user.canWrite (Path.ofText text) = true := by
  rw [apply_view] at h
  split at h
  · assumption
  · cases h

theorem ofText_normalize (text : String) :
    Path.ofText (PathText.normalize text) = Path.ofText text := by
  unfold PathText.normalize
  split
  · rfl
  · exact Path.ofText_text (Path.canonical_ofText text)

theorem Kept.openWrite (h : Kept user home m start s) (huser : Homed user home) (path : String)
    (appending : Bool) :
    Kept user home m start (s.openWrite (.view id (.memory m) user) path appending).2 := by
  have hview : Kept user home m start (s.apply (.view id (.memory m) user) path
      (if appending then .append [] else .write [])).2 := h.view huser path _
  unfold Files.openWrite
  split
  · rename_i fault after heq
    rwa [heq] at hview
  · rename_i after heq
    have hwrite := view_ok (congrArg Prod.fst heq)
    rw [heq] at hview
    refine ⟨hview.tree, hview.grown, hview.outside, ?_, fun n writer hwriter => ?_⟩
    · exact Nat.le_trans hview.count (by simp [addWriter])
    · simp only [addWriter, List.getElem?_append] at hwriter
      split at hwriter
      · exact hview.writers n writer hwriter
      · rw [List.getElem?_singleton] at hwriter
        split at hwriter
        · cases hwriter
          exact ⟨rfl, by rwa [ofText_normalize]⟩
        · cases hwriter

theorem Kept.act (h : Kept user home m start s) (huser : Homed user home) (a : Act) :
    Kept user home m start (s.act (.view id (.memory m) user) start.writers.length a) := by
  cases a with
  | change path c => exact h.view huser path c
  | openWriter path appending => exact h.openWrite huser path appending
  | write n data =>
    simp only [Files.act, writeBytes]
    split
    · exact h
    · exact h.setPending _ _
  | flush n => exact h.flush huser n
  | close n => exact (h.flush huser n).setPending _ _

theorem kept_start (hm : m < start.trees.length) (hgrown : (start.tree m).Grown) :
    Kept user home m start start where
  tree := hm
  grown := hgrown
  outside _ _ _ := Or.inl rfl
  count := Nat.le_refl _
  writers n writer hwriter := by
    rw [List.getElem?_eq_none (Nat.le_add_right _ _)] at hwriter
    cases hwriter

theorem Kept.acts (h : Kept user home m start s) (huser : Homed user home) (id : Nat)
    (acts : List Act) : Kept user home m start
      (acts.foldl (·.act (.view id (.memory m) user) start.writers.length ·) s) := by
  induction acts generalizing s with
  | nil => exact h
  | cons a acts ih => exact ih (h.act huser a)

theorem Kept.session (h : Kept user home m start start) (huser : Homed user home) (id : Nat)
    (acts : List Act) :
    Kept user home m start (start.session (.view id (.memory m) user) acts) :=
  h.acts huser id acts

/-! When directories can appear above the home directory. -/

/-- Above the home directory nothing is missing that the user could have made. -/
inductive Settled (t : Tree) (home : Path) : Prop
  | tmp : ["tmp"] <+: home → Settled t home
  | parent : t.node? home.parent = some .directory → Settled t home
  | file {above : Path} {node : Node} : above <+: home → t.node? above = some node →
      node ≠ .directory → Settled t home

theorem Kept.same_of_settled (h : Kept user home m start s) (huser : Homed user home)
    (hgrown : (start.tree m).Grown) (hsettled : Settled (start.tree m) home)
    (hpath : path.Canonical) (hdenied : user.canWrite path = false) :
    (s.tree m).node? path = (start.tree m).node? path := by
  refine (h.outside path hpath hdenied).resolve_right fun ⟨hhome, hnone, hthere⟩ => ?_
  obtain ⟨hnothome, hnottmp⟩ := (huser.denied_iff hpath).1 hdenied
  have hnode : ∀ node, (start.tree m).node? path ≠ some node := by simp [hnone]
  cases hsettled with
  | tmp htmp =>
    have hroot := above_tmp
      ((List.prefix_or_prefix_of_prefix hhome htmp).resolve_right hnottmp) hnottmp
    exact hnode _ (hroot ▸ hgrown.root)
  | parent hparent =>
    have hupper := Path.prefix_parent hhome fun heq => hnothome (heq ▸ List.prefix_refl _)
    by_cases heq : path = home.parent
    · exact hnode _ (heq ▸ hparent)
    · exact hnode _ (hgrown.directory_above hparent hupper heq)
  | @file above node habove hfound hfile =>
    by_cases heq : path = above
    · exact hnode _ (heq ▸ hfound)
    rcases List.prefix_or_prefix_of_prefix hhome habove with hupper | hlower
    · exact hnode _ (hgrown.directory_above hfound hupper heq)
    · -- The file is outside, so it is still there, and nothing can be below it.
      have hstill : user.canWrite above = false :=
        (huser.denied_iff (hpath.above hlower)).2
          ⟨fun hin => hnothome (hin.trans hlower), fun hin => hnottmp (hin.trans hlower)⟩
      have hdirectory := h.grown.directory_above hthere hlower (Ne.symm heq)
      rcases h.outside above (hpath.above hlower) hstill with hsame | ⟨-, hmissing, -⟩
      · rw [hsame, hfound, Option.some.injEq] at hdirectory
        exact hfile hdirectory
      · rw [hfound] at hmissing
        cases hmissing

theorem exists_made (hm : m < start.trees.length) (hgrown : (start.tree m).Grown)
    (huser : Homed user home) (hsettled : ¬ Settled (start.tree m) home) (id : Nat) :
    ∃ acts path, path.Canonical ∧ user.canWrite path = false ∧
      (start.tree m).node? path = none ∧
      ((start.session (.view id (.memory m) user) acts).tree m).node? path = some .directory := by
  have hhome := huser.canonical
  have hparent := hhome.above (Path.parent_above home)
  have hne : home ≠ [] := by
    rintro rfl
    exact hsettled (.parent hgrown.root)
  have hnone : (start.tree m).node? home.parent = none := by
    cases hfound : (start.tree m).node? home.parent with
    | none => rfl
    | some node =>
      by_cases hdirectory : node = .directory
      · exact absurd (.parent (hdirectory ▸ hfound)) hsettled
      · exact absurd (.file (Path.parent_above home) hfound hdirectory) hsettled
  refine ⟨[.change home.text .makeDirectory], home.parent, hparent,
    (huser.denied_iff hparent).2 ⟨Path.not_prefix_parent hne, fun hin => ?_⟩, hnone, ?_⟩
  · exact hsettled (.tmp (hin.trans (Path.parent_above home)))
  · obtain ⟨made, hmade⟩ := Tree.makeDirectory_ok hgrown.root fun other node hother hfound => by
      by_contra hfile
      exact hsettled (.file hother hfound hfile)
    obtain ⟨hmadegrown, hthere, -⟩ := hgrown.makeDirectory hhome hmade
    have hwrite : user.canWrite home = true :=
      (huser.canWrite_iff hhome).2 (Or.inl (List.prefix_refl _))
    have hread := Path.ofText_text hhome
    have hsession : start.session (.view id (.memory m) user) [.change home.text .makeDirectory] =
        start.setTree m made := by
      simp only [session, List.foldl_cons, List.foldl_nil, act, apply_view, hread, hwrite, if_true]
      simp only [apply, route_memory, hread, change, Tree.change, hmade]
    rw [hsession, tree_setTree hm, if_pos rfl]
    exact hmadegrown.above home .directory hne hthere

/-- Whatever a user without root's rights does to a memory file system through a view: a path
outside of his home directory and `/tmp` answers as before, or a directory has appeared above the
home directory. The second can happen unless the place of the home directory is settled. -/
theorem confined_iff (s : Files) (steps : List (String × Change)) (id : Nat) (user : User)
    (hstandard : user.privilege = .standard) (hhome : PathText.isCanonical user.home = true) :
    (∀ acts path, Outside user path →
      Alike (s.raised steps) ((s.raised steps).session (.view id s.addMemory.1 user) acts)
        s.addMemory.1 path ∨
      Path.ofText path <+: Path.ofText user.home ∧
        ((s.raised steps).tree s.trees.length).node? (Path.ofText path) = none ∧
        ((s.raised steps).session (.view id s.addMemory.1 user) acts).isDirectory
          s.addMemory.1 path = true) ∧
    ((∀ acts path, Outside user path →
      Alike (s.raised steps) ((s.raised steps).session (.view id s.addMemory.1 user) acts)
        s.addMemory.1 path) ↔
      Settled ((s.raised steps).tree s.trees.length) (Path.ofText user.home)) := by
  have huser : Homed user (Path.ofText user.home) :=
    ⟨hstandard, Path.canonical_ofText _, (Path.text_ofText hhome).symm⟩
  obtain ⟨hm, hgrown⟩ := grown_raised s steps
  have hkept := (kept_start hm hgrown).session huser id
  have hcanonical := Path.canonical_ofText
  have hdenied : ∀ {path}, Outside user path → user.canWrite (Path.ofText path) = false := by
    intro path hpath
    refine (huser.outside_iff (hcanonical path)).1 ?_
    rwa [Path.text_ofText hpath.canonical]
  refine ⟨fun acts path hpath => ?_, fun halike => ?_, fun hsettled acts path hpath => ?_⟩
  · rcases (hkept acts).outside _ (hcanonical path) (hdenied hpath) with hsame | ⟨hup, hnone, hnew⟩
    · exact Or.inl (alike_of_node hsame)
    · exact Or.inr ⟨hup, hnone, (isDirectory_memory _ _ path).2 hnew⟩
  · by_contra hsettled
    obtain ⟨acts, path, hpath, hwrite, hnone, hmade⟩ := exists_made hm hgrown huser hsettled id
    have hsame := (halike acts path.text ((huser.outside_iff hpath).2 hwrite)).isDirectory
    have hnow := (isDirectory_memory _ s.trees.length path.text).2
      ((Path.ofText_text hpath).symm ▸ hmade)
    have hbefore := (isDirectory_memory _ s.trees.length path.text).1 (hsame.symm.trans hnow)
    rw [Path.ofText_text hpath, hnone] at hbefore
    cases hbefore
  · exact alike_of_node
      ((hkept acts).same_of_settled huser hgrown hsettled (hcanonical path) (hdenied hpath))

/-! A computer whose home directories have no place yet. -/

def kim : User := ⟨1000, "kim", .standard, 0, "/home/kim"⟩

theorem confined_kim :
    kim.privilege = .standard ∧ PathText.isCanonical kim.home = true ∧
    (∀ acts path, Outside kim path →
      Alike (Files.raised {} [("/home", .makeDirectory)])
        ((Files.raised {} [("/home", .makeDirectory)]).session (.view 1 (.memory 0) kim) acts)
        (.memory 0) path) := by
  have hstandard : kim.privilege = .standard := rfl
  have hhome : PathText.isCanonical kim.home = true := by decide
  refine ⟨hstandard, hhome, ?_⟩
  refine (confined_iff {} [("/home", .makeDirectory)] 1 kim hstandard hhome).2.2 (.parent ?_)
  cbv

/-- The directory of all home directories is made by a user who may not change it. -/
theorem home_appears :
    Outside kim "/home" ∧
    (Files.raised {} []).isDirectory (.memory 0) "/home" = false ∧
    ((Files.raised {} []).session (.view 1 (.memory 0) kim)
      [.change "/home/kim" .makeDirectory]).isDirectory (.memory 0) "/home" = true := by
  refine ⟨⟨by decide, by decide, by decide⟩, by cbv, by cbv⟩

end Files

end ToyUnix
