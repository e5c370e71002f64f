import ToyUnix.Proofs.Files.History
import ToyUnix.Proofs.Files.Places

/-!
What a change of a memory file system promises. Whatever has happened to files before, a change that
succeeds makes its path answer as it says, whichever way the path is written, and every other path
answers as before; only directories that were missing above a new one are made with it.
Main statement: `promised_history`.
-/

set_option autoImplicit false

namespace ToyUnix

/-- What a path answers when it is asked what is there. -/
structure Account where
  isDirectory : Bool
  isFile : Bool
  isExecutable : Bool
  contents : Except Fault Bytes
  executable : Except Fault Executable

namespace Account

def missing (text : String) : Account :=
  ⟨false, false, false, .error (.notFound text), .error (.notFound text)⟩

def directory (text : String) : Account :=
  ⟨true, false, false, .error (.isADirectory text), .error (.isADirectory text)⟩

def file (text : String) (data : Bytes) (executable : Bool) : Account :=
  ⟨false, true, executable, .ok data,
    if executable then .ok (.script (Utf8.decodeLossy data)) else .error (.notExecutable text)⟩

def program (program : Program) : Account :=
  ⟨false, true, true, .ok (Utf8.encode ("<native program: " ++ program.name ++ ">\n")),
    .ok (.native program)⟩

/-- `text` is the canonical text of the path that is asked. -/
def ofNode? (text : String) : Option Node → Account
  | none => missing text
  | some .directory => directory text
  | some (.file data executable) => file text data executable
  | some (.program native) => program native

end Account

/-- What the path of a change answers after the change, when it answered `before`: what is written
replaces the data or is added to them, a file that was there stays executable or not as it was, and a
native program can be run whatever is set. -/
def Change.promised (text : String) (before : Account) : Change → Account
  | .makeDirectory => .directory text
  | .deleteFile => .missing text
  | .deleteDirectory => .missing text
  | .write data => .file text data before.isExecutable
  | .append data =>
    .file text (before.contents.toOption.getD [] ++ data) before.isExecutable
  | .setExecutable value =>
    match before.executable with
    | .ok (.native _) => before
    | _ => .file text (before.contents.toOption.getD []) value
  | .install program => .program program
  | .mount _ => before
  | .unmount => before

namespace Tree

variable {t t' : Tree} {path : Path} {text : String}

def account (t : Tree) (text : String) (path : Path) : Account := .ofNode? text (t.node? path)

theorem account_put (t : Tree) (text : String) (path : Path) (node : Node) :
    (t.put path node).account text path = .ofNode? text (some node) := by
  rw [account, node?_put, if_pos rfl]

theorem account_remove (t : Tree) (text : String) (path : Path) :
    (t.remove path).account text path = .missing text := by
  rw [account, node?_remove, if_pos rfl, Account.ofNode?]

theorem account_write {data : Bytes} (h : t.write path data = .ok t') :
    t'.account text path = .file text data (t.account text path).isExecutable := by
  unfold write at h
  split at h
  · cases h
  · split at h
    · cases h
    · cases h
    · rename_i hnode
      cases h
      rw [account_put, account, hnode]
      rfl
    · rename_i hnode
      cases h
      rw [account_put, account, hnode]
      rfl

theorem account_append {data : Bytes} (h : t.append path data = .ok t') :
    t'.account text path = .file text ((t.account text path).contents.toOption.getD [] ++ data)
      (t.account text path).isExecutable := by
  unfold append at h
  split at h
  · rename_i hnode
    cases h
    rw [account_put, account, hnode]
    rfl
  · cases h
  · cases h
  · rename_i hnode
    rw [account_write h, account, hnode]
    rfl

theorem account_setExecutable {value : Bool} (h : t.setExecutable path value = .ok t') :
    t'.account text path = (Change.setExecutable value).promised text (t.account text path) := by
  unfold setExecutable at h
  split at h
  · rename_i data executable hnode
    cases h
    rw [account_put, account, hnode]
    cases executable <;> rfl
  · rename_i hnode
    split at h
    · cases h
      rw [account, hnode]
      rfl
    · cases h
  · cases h
  · cases h

theorem account_install {program : Program} (h : t.install path program = .ok t') :
    t'.account text path = .program program := by
  unfold install at h
  split at h
  · cases h
  · split at h
    · cases h
    · cases h
      rw [account_put, Account.ofNode?]

theorem Grown.account_change (h : t.Grown) (hpath : path.Canonical) {shown : String} {c : Change}
    (hchange : t.change shown path c = .ok t') :
    t'.account text path = c.promised text (t.account text path) := by
  cases c with
  | makeDirectory =>
    rw [account, (h.makeDirectory hpath hchange).2.1]
    rfl
  | deleteFile =>
    obtain ⟨-, -, -, rfl⟩ := deleteFile_ok hchange
    exact account_remove t text path
  | deleteDirectory =>
    obtain ⟨-, -, -, rfl⟩ := deleteDirectory_ok hchange
    exact account_remove t text path
  | write data => exact account_write hchange
  | append data => exact account_append hchange
  | setExecutable value => exact account_setExecutable hchange
  | install program => exact account_install hchange
  | mount fs => cases hchange
  | unmount => cases hchange

theorem Grown.makeDirectory_above (h : t.Grown) (hpath : path.Canonical)
    (hmade : t.makeDirectory path = .ok t') {other : Path} (hother : other <+: path) :
    t'.node? other = some .directory := by
  obtain ⟨hgrown, hnode, -⟩ := h.makeDirectory hpath hmade
  by_cases heq : other = path
  · rw [heq, hnode]
  · exact hgrown.directory_above hnode hother heq

theorem Filed.elsewhere (h : t.Filed path t') {other : Path} (hother : other ≠ path) :
    t'.node? other = t.node? other := by
  obtain ⟨node, -, -, -, rfl⟩ := h
  rw [node?_put, if_neg hother.symm]

/-- Elsewhere nothing is different, unless it was missing above a new directory. -/
theorem Grown.change_elsewhere (h : t.Grown) (hpath : path.Canonical) {shown : String} {c : Change}
    (hchange : t.change shown path c = .ok t') {other : Path} (hother : other ≠ path)
    (hspared : c = .makeDirectory → other <+: path → t.node? other ≠ none) :
    t'.node? other = t.node? other := by
  cases c with
  | makeDirectory =>
    exact (h.change_node hpath hchange hother).resolve_right fun hnew =>
      hspared rfl hnew.1 hnew.2.1
  | deleteFile =>
    obtain ⟨-, -, -, rfl⟩ := deleteFile_ok hchange
    rw [node?_remove, if_neg hother.symm]
  | deleteDirectory =>
    obtain ⟨-, -, -, rfl⟩ := deleteDirectory_ok hchange
    rw [node?_remove, if_neg hother.symm]
  | write data => exact (filed_write hchange).elsewhere hother
  | append data => exact (h.filed_append hchange).elsewhere hother
  | setExecutable value =>
    rcases h.filed_setExecutable hchange with rfl | hfiled
    · rfl
    · exact hfiled.elsewhere hother
  | install program => exact (filed_install hchange).elsewhere hother
  | mount fs => cases hchange
  | unmount => cases hchange

end Tree

namespace Files

variable {s s' : Files} {m : Nat}

/-! Every tree of a history has grown. -/

theorem Wooded.congr (h : s.Wooded) (htrees : s'.trees = s.trees) : s'.Wooded := by
  rwa [Wooded, htrees]

theorem Wooded.apply (h : s.Wooded) (fs : FileSystem) (text : String) (c : Change) :
    (s.apply fs text c).2.Wooded :=
  (s.effect_apply fs text c).wooded h fun _ _ => canonical_place (Path.canonical_ofText text)

theorem trees_setPending (s : Files) (id : Nat) (pending : Bytes) :
    (s.setPending id pending).trees = s.trees := by
  unfold setPending
  split <;> rfl

theorem Wooded.flush (h : s.Wooded) (id : Nat) : (s.flush id).2.Wooded := by
  unfold Files.flush
  split
  · exact h
  · rename_i writer _
    split
    · exact h
    · have happly := h.apply writer.fs writer.path (.append writer.pending)
      split
      · rename_i heq
        rw [heq] at happly
        exact happly.congr (trees_setPending ..)
      · rename_i heq
        rwa [heq] at happly

theorem Wooded.openWrite (h : s.Wooded) (fs : FileSystem) (text : String) (appending : Bool) :
    (s.openWrite fs text appending).2.Wooded := by
  have happly := h.apply fs text (if appending then .append [] else .write [])
  unfold Files.openWrite
  split
  · rename_i heq
    rwa [heq] at happly
  · rename_i heq
    rw [heq] at happly
    exact happly.congr rfl

theorem Wooded.addMemory (h : s.Wooded) : s.addMemory.2.Wooded := by
  intro tree hmem
  rcases List.mem_append.1 hmem with hmem | hmem
  · exact h tree hmem
  · rw [List.mem_singleton.1 hmem]
    exact Tree.grown_fresh

theorem Wooded.perform (h : s.Wooded) (deed : Deed) : (s.perform deed).Wooded := by
  cases deed with
  | makeMemory => exact h.addMemory
  | request fs path request =>
    cases request with
    | change c => exact h.apply fs path c
    | _ => exact h
  | openWriter view path appending => exact h.openWrite view path appending
  | write writer data =>
    refine h.congr ?_
    simp only [Files.perform, writeBytes]
    split
    · rfl
    · exact trees_setPending ..
  | flush writer => exact h.flush writer
  | close writer => exact (h.flush writer).congr (trees_setPending ..)
  | _ => exact h

theorem Wooded.run (h : s.Wooded) (deeds : List Deed) : (s.run deeds).Wooded := by
  induction deeds generalizing s with
  | nil => exact h
  | cons deed deeds ih => exact ih (h.perform deed)

theorem wooded_history (deeds : List Deed) : (history deeds).Wooded :=
  Wooded.run (fun _ hmem => by cases hmem) deeds

/-! The accounts of a memory file system. -/

def account (s : Files) (fs : FileSystem) (text : String) : Account where
  isDirectory := s.isDirectory fs text
  isFile := s.isFile fs text
  isExecutable := s.isExecutable fs text
  contents := s.contents fs text
  executable := s.executableAt fs text

theorem account_memory (s : Files) (m : Nat) (text : String) :
    s.account (.memory m) text =
      (s.tree m).account (PathText.normalize text) (Path.ofText text) := by
  rw [Tree.account, PathText.normalize_eq]
  simp only [account, isDirectory, isFile, isExecutable, contents, executableAt, route_memory,
    answers, Files.read, Files.executable, Tree.answers, Tree.read, Tree.executable]
  rcases (s.tree m).node? (Path.ofText text) with _ | _ | _ | _
  · rfl
  · rename_i executable
    cases executable <;> rfl
  · rfl
  · rfl

theorem ofText_eq_iff {text other : String} :
    Path.ofText other = Path.ofText text ↔
      PathText.normalize other = PathText.normalize text := by
  rw [PathText.normalize_eq, PathText.normalize_eq]
  exact ⟨congrArg _, Path.text_injective (Path.canonical_ofText _) (Path.canonical_ofText _)⟩

/-- After any history a change of a memory file system that succeeds keeps its promise at each text
of its path, and every text of another path answers as before, unless it was missing above a new
directory. All that is above a new directory is a directory. -/
theorem promised_history (deeds : List Deed) {m : Nat} (hm : m < (history deeds).trees.length)
    {text : String} {c : Change}
    (hchange : (history deeds).apply (.memory m) text c = (.ok (), s')) :
    (∀ other, PathText.normalize other = PathText.normalize text →
      s'.account (.memory m) other =
        c.promised (PathText.normalize text) ((history deeds).account (.memory m) text)) ∧
    (∀ other, PathText.normalize other ≠ PathText.normalize text →
      (c = .makeDirectory → Path.ofText other <+: Path.ofText text →
        (history deeds).account (.memory m) other ≠ .missing (PathText.normalize other)) →
      s'.account (.memory m) other = (history deeds).account (.memory m) other) ∧
    (c = .makeDirectory → ∀ other, Path.ofText other <+: Path.ofText text →
      s'.account (.memory m) other = .directory (PathText.normalize other)) := by
  generalize hs : history deeds = s at hm hchange ⊢
  have hgrown : (s.tree m).Grown := hs ▸ (wooded_history deeds).tree (hs ▸ hm)
  have hpath := Path.canonical_ofText text
  obtain ⟨tree, htree, rfl⟩ := apply_memory_ok hchange
  have hafter : (s.setTree m tree).tree m = tree := by rw [tree_setTree hm, if_pos rfl]
  simp only [account_memory, hafter]
  refine ⟨fun other hother => ?_, fun other hother hspared => ?_, ?_⟩
  · rw [hother, ofText_eq_iff.2 hother]
    exact hgrown.account_change hpath htree
  · refine congrArg _ (hgrown.change_elsewhere hpath htree (mt ofText_eq_iff.1 hother) ?_)
    intro hc habove hnone
    exact hspared hc habove (by rw [Tree.account, hnone, Account.ofNode?])
  · rintro rfl other hother
    rw [Tree.account, hgrown.makeDirectory_above hpath htree hother, Account.ofNode?]

def scripted : List Deed :=
  [.makeMemory, .request (.memory 0) "/run" (.change (.write [108, 115])),
    .request (.memory 0) "run" (.change (.setExecutable true))]

/-- Making `srv//www` makes `/srv` too and leaves the script alone; adding to `/srv/../run` keeps it
executable. -/
theorem promised_scripted :
    0 < (history scripted).trees.length ∧
    (∃ s', (history scripted).apply (.memory 0) "srv//www" .makeDirectory = (.ok (), s') ∧
      s'.account (.memory 0) "/srv/www/." = .directory "/srv/www" ∧
      s'.account (.memory 0) "/srv" = .directory "/srv" ∧
      s'.account (.memory 0) "/run" = (history scripted).account (.memory 0) "/run") ∧
    ∃ s', (history scripted).apply (.memory 0) "/srv/../run" (.append [10]) = (.ok (), s') ∧
      s'.account (.memory 0) "run" = .file "/run" [108, 115, 10] true := by
  have hm : 0 < (history scripted).trees.length := by cbv
  have hmade : ((history scripted).apply (.memory 0) "srv//www" .makeDirectory).1 = .ok () := by
    cbv
  have happended : ((history scripted).apply (.memory 0) "/srv/../run" (.append [10])).1 =
      .ok () := by
    cbv
  have hnode : ((history scripted).tree 0).node? (Path.ofText "/srv/../run") =
      some (.file [108, 115] true) := by
    cbv
  have hbefore : (history scripted).account (.memory 0) "/srv/../run" =
      .file (PathText.normalize "/srv/../run") [108, 115] true := by
    rw [account_memory, Tree.account, hnode, Account.ofNode?]
  have hapart : ¬ Path.ofText "/run" <+: Path.ofText "srv//www" := by decide +kernel
  obtain ⟨hat, helse, habove⟩ := promised_history scripted hm (Prod.ext hmade rfl)
  obtain ⟨hadded, -, -⟩ := promised_history scripted hm (Prod.ext happended rfl)
  have hwww := hat "/srv/www/." (by decide +kernel)
  have hsrv := habove rfl "/srv" (by decide +kernel)
  have hrun := helse "/run" (by decide +kernel) fun _ habove => absurd habove hapart
  have hlonger := hadded "run" (by decide +kernel)
  refine ⟨hm, ⟨_, Prod.ext hmade rfl, ?_, ?_, hrun⟩, _, Prod.ext happended rfl, ?_⟩
  · rwa [show PathText.normalize "srv//www" = "/srv/www" by decide +kernel] at hwww
  · rwa [show PathText.normalize "/srv" = "/srv" by decide +kernel] at hsrv
  · rwa [hbefore, show PathText.normalize "/srv/../run" = "/run" by decide +kernel] at hlonger

end Files

end ToyUnix
