import ToyUnix.Files.Stream
import ToyUnix.Proofs.Files.Mounting
import ToyUnix.Proofs.Files.Requests

/-!
Histories: everything that programs do with files, one deed after another, from no files at all. A
deed that registers nothing comes down to a few moves, and what moves keep, histories keep. In all
of them a mount table has its mounts at canonical points below the root, and never two at one point.
-/

set_option autoImplicit false

namespace ToyUnix

inductive Deed
  | makeMemory
  | makeTable (root : FileSystem)
  | makeRegistry
  | makeDevices (registry : Nat)
  | makeView (target : FileSystem) (user : User)
  | request (fs : FileSystem) (path : String) (request : Request)
  | openWriter (view : FileSystem) (path : String) (appending : Bool)
  | write (writer : Nat) (data : Bytes)
  | flush (writer : Nat)
  | close (writer : Nat)
  | register (registry : Nat) (name : String) (fs : FileSystem)
  | unregister (registry : Nat) (name : String)
  | expire (roots : List FileSystem)

def Deed.registers : Deed → Bool
  | .register _ _ _ => true
  | .unregister _ _ => true
  | .expire _ => true
  | _ => false

/-- The mounts of a table as mounts and unmounts leave them. -/
structure Pointed (mounts : List Mount) : Prop where
  nodup : (mounts.map (·.point)).Nodup
  canonical : ∀ mount ∈ mounts, mount.point.Canonical
  below : ∀ mount ∈ mounts, mount.point ≠ []

namespace Pointed

variable {mounts : List Mount}

theorem nil : Pointed [] := ⟨by simp, by simp, by simp⟩

theorem sublist {fewer : List Mount} (h : Pointed mounts) (hsub : fewer.Sublist mounts) :
    Pointed fewer :=
  ⟨h.nodup.sublist (hsub.map _), fun mount hmount => h.canonical mount (hsub.subset hmount),
    fun mount hmount => h.below mount (hsub.subset hmount)⟩

theorem snoc {mount : Mount} (h : Pointed mounts) (hcanonical : mount.point.Canonical)
    (hbelow : mount.point ≠ []) (hfree : ∀ other ∈ mounts, other.point ≠ mount.point) :
    Pointed (mounts ++ [mount]) := by
  refine ⟨?_, fun other hother => ?_, fun other hother => ?_⟩
  · rw [List.map_append]
    refine List.nodup_append.2 ⟨h.nodup, by simp, ?_⟩
    simpa using hfree
  · rcases List.mem_append.1 hother with hother | hother
    · exact h.canonical other hother
    · rw [List.mem_singleton.1 hother]
      exact hcanonical
  · rcases List.mem_append.1 hother with hother | hother
    · exact h.below other hother
    · rw [List.mem_singleton.1 hother]
      exact hbelow

theorem eq_of_point {a b : Mount} (h : Pointed mounts) (ha : a ∈ mounts) (hb : b ∈ mounts)
    (heq : a.point = b.point) : a = b :=
  List.inj_on_of_nodup_map h.nodup ha hb heq

theorem nodup_texts (h : Pointed mounts) : (mounts.map fun mount => mount.point.text).Nodup := by
  refine List.Nodup.map_on (fun a ha b hb htext => h.eq_of_point ha hb ?_) h.nodup.of_map
  exact Path.text_injective (h.canonical a ha) (h.canonical b hb) htext

end Pointed

namespace Files

def perform (s : Files) : Deed → Files
  | .makeMemory => s.addMemory.2
  | .makeTable root => (s.addTable root).2
  | .makeRegistry => s.addRegistry.2
  | .makeDevices registry => (s.addDevices registry).2
  | .makeView target user => (s.addView target user).2
  | .request fs path request => (s.serve fs path request).2
  | .openWriter view path appending => (s.openWrite view path appending).2
  | .write writer data => s.writeBytes writer data
  | .flush writer => (s.flush writer).2
  | .close writer => s.closeWriter writer
  | .register registry name fs => s.register registry name fs
  | .unregister registry name => (s.unregister registry name).2
  | .expire roots => s.expire roots

def run (s : Files) (deeds : List Deed) : Files := deeds.foldl perform s

def history (deeds : List Deed) : Files := ({} : Files).run deeds

/-- The smallest things that happen to files, save for registrations. -/
inductive Move (s : Files) : Files → Prop
  | tree (id : Nat) (tree : Tree) : Move s (s.setTree id tree)
  | attach (id : Nat) {path : Path} (fs : FileSystem) : path.Canonical → path ≠ [] →
      s.isMountPoint id path = false → Move s (s.setMounts id (s.mounts id ++ [⟨path, fs⟩]))
  | detach (id : Nat) (path : Path) :
      Move s (s.setMounts id ((s.mounts id).eraseP fun mount => mount.point = path))
  | memory : Move s s.addMemory.2
  | table (root : FileSystem) : Move s (s.addTable root).2
  | registry : Move s s.addRegistry.2
  | handle (next : Nat) : Move s { s with nextHandle := next }
  | writers (writers : List Writer) : Move s { s with writers }

def Moves : Files → Files → Prop := Relation.ReflTransGen Move

variable {s s' : Files}

/-! What a deed comes down to. -/

/-- By induction on the route: a change sets one tree or the mounts of one table, or nothing. -/
theorem moves_change (s : Files) {shown : String} {path : Path} {route : Route}
    (htracks : Route.Tracks shown path route) (hpath : path.Canonical) (c : Change) :
    Moves s (s.change c route).2 := by
  induction htracks with
  | tree id =>
    simp only [Files.change]
    split
    · exact .single (.tree id _)
    · exact .refl
  | deviceList registry => exact .refl
  | noDevice hne => exact .refl
  | @device shown path rest name _ ih => exact ih (hpath.drop 1)
  | view user _ ih =>
    simp only [Files.change]
    split
    · exact ih hpath
    · exact .refl
  | @mounted shown point inner rest id _ ih =>
    generalize houtcome : s.change c (.mounted id (point ++ inner) point rest) = outcome
    have hhandles := s.handles_change id (point ++ inner) point rest c
    rw [houtcome] at hhandles
    cases hhandles with
    | refuse => exact .refl
    | relay =>
      exact ih fun segment hsegment => hpath segment (List.mem_append_right _ hsegment)
    | attach fs hbelow hfree => exact .single (.attach id fs hpath hbelow hfree)
    | detach => exact .single (.detach id _)

theorem moves_apply (s : Files) (fs : FileSystem) (path : String) (c : Change) :
    Moves s (s.apply fs path c).2 :=
  s.moves_change (tracks_follow s _ _ _) (Path.canonical_ofText path) c

theorem moves_setPending (s : Files) (writer : Nat) (pending : Bytes) :
    Moves s (s.setPending writer pending) := by
  unfold setPending
  split
  · exact .refl
  · exact .single (.writers _)

theorem moves_flush (s : Files) (writer : Nat) : Moves s (s.flush writer).2 := by
  unfold flush
  split
  · exact .refl
  · rename_i found hfound
    split
    · exact .refl
    · have happly := s.moves_apply found.fs found.path (.append found.pending)
      split
      · rename_i after hok
        rw [hok] at happly
        exact happly.trans (after.moves_setPending writer [])
      · rename_i after herror
        rw [herror] at happly
        exact happly

theorem moves_perform (s : Files) {deed : Deed} (h : deed.registers = false) :
    Moves s (s.perform deed) := by
  cases deed with
  | makeMemory => exact .single .memory
  | makeTable root => exact .single (.table root)
  | makeRegistry => exact .single .registry
  | makeDevices registry => exact .single (.handle _)
  | makeView target user => exact .single (.handle _)
  | request fs path request =>
    cases request with
    | change c => exact s.moves_apply fs path c
    | _ => exact .refl
  | openWriter view path appending =>
    have happly := s.moves_apply view path (if appending then .append [] else .write [])
    simp only [perform, openWrite]
    split
    · rename_i after herror
      rw [herror] at happly
      exact happly
    · rename_i after hok
      rw [hok] at happly
      exact happly.tail (.writers _)
  | write writer data =>
    simp only [perform, writeBytes]
    split
    · exact .refl
    · exact s.moves_setPending writer _
  | flush writer => exact s.moves_flush writer
  | close writer => exact (s.moves_flush writer).trans (moves_setPending _ writer [])
  | register registry name fs => cases h
  | unregister registry name => cases h
  | expire roots => cases h

/-! What moves keep. -/

theorem mounts_setMounts_cases (s : Files) (id other : Nat) (mounts : List Mount) :
    (s.setMounts id mounts).mounts other = mounts ∨
      (s.setMounts id mounts).mounts other = s.mounts other := by
  simp only [setMounts, Files.mounts, List.getElem?_set]
  split
  · split
    · exact Or.inl rfl
    · rename_i heq hlt
      subst heq
      exact Or.inr (by rw [List.getElem?_eq_none (Nat.le_of_not_lt hlt)])
  · exact Or.inr rfl

theorem Move.pointed (hmove : s.Move s') (h : ∀ id, Pointed (s.mounts id)) :
    ∀ id, Pointed (s'.mounts id) := by
  intro other
  cases hmove with
  | @attach id path fs hpath hbelow hfree =>
    rcases s.mounts_setMounts_cases id other (s.mounts id ++ [⟨path, fs⟩]) with hset | hset
    · rw [hset]
      refine (h id).snoc hpath hbelow fun mount hmount heq => ?_
      have hpoint := isMountPoint_iff.2 ⟨mount, hmount, heq⟩
      rw [hfree] at hpoint
      cases hpoint
    · rw [hset]
      exact h other
  | detach id path =>
    rcases s.mounts_setMounts_cases id other
      ((s.mounts id).eraseP fun mount => mount.point = path) with hset | hset
    · rw [hset]
      exact (h id).sublist List.eraseP_sublist
    · rw [hset]
      exact h other
  | table root =>
    simp only [addTable, Files.mounts, List.getElem?_append]
    split
    · exact h other
    · rw [List.getElem?_singleton]
      split <;> exact .nil
  | _ => exact h other

theorem Moves.pointed (hmoves : s.Moves s') (h : ∀ id, Pointed (s.mounts id)) :
    ∀ id, Pointed (s'.mounts id) := by
  induction hmoves with
  | refl => exact h
  | tail _ hmove ih => exact hmove.pointed ih

theorem pointed_perform (h : ∀ id, Pointed (s.mounts id)) (deed : Deed) :
    ∀ id, Pointed ((s.perform deed).mounts id) := by
  cases hregisters : deed.registers with
  | false => exact (s.moves_perform hregisters).pointed h
  | true =>
    cases deed with
    | register registry name fs => exact h
    | unregister registry name => exact h
    | expire roots => exact h
    | _ => cases hregisters

theorem pointed_run (h : ∀ id, Pointed (s.mounts id)) (deeds : List Deed) :
    ∀ id, Pointed ((s.run deeds).mounts id) := by
  induction deeds generalizing s with
  | nil => exact h
  | cons deed deeds ih => exact ih (pointed_perform h deed)

theorem pointed_history (deeds : List Deed) (id : Nat) : Pointed ((history deeds).mounts id) := by
  refine pointed_run (fun other => ?_) deeds id
  simpa [Files.mounts] using Pointed.nil

end Files

end ToyUnix
