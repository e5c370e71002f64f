import ToyUnix.Proofs.Files.Routing

/-!
Taking off what was just mounted. A mount only asks whether its point is free, an unmount also asks
for mounts below. So the unmount right after a mount brings the files back to what they were exactly
when nothing was mounted below the point before (`unmount_mount`).
-/

set_option autoImplicit false

namespace ToyUnix

namespace Files

variable {s s' : Files} {t : Nat} {root fs : FileSystem}

theorem mount_ok {text : String} (h : s.apply (.mounts t root) text (.mount fs) = (.ok (), s')) :
    Path.ofText text ≠ [] ∧ s.isMountPoint t (Path.ofText text) = false ∧
      s' = s.setMounts t (s.mounts t ++ [⟨Path.ofText text, fs⟩]) := by
  rw [apply, route_mounts, follow_mounts] at h
  simp only [change, Files.attach] at h
  split at h
  · cases h
  · rename_i hpoint
    simp only [Bool.or_eq_true, decide_eq_true_eq, not_or, Bool.not_eq_true] at hpoint
    split at h
    · cases h
    · split at h
      · cases h
      · cases h
        exact ⟨hpoint.1, hpoint.2, rfl⟩

theorem unmount_eq (s : Files) (t : Nat) (root : FileSystem) (text : String) :
    s.apply (.mounts t root) text .unmount = s.detach t (Path.ofText text) := by
  rw [apply, route_mounts, follow_mounts]
  rfl

theorem setMounts_setMounts (s : Files) (t : Nat) (first second : List Mount) :
    (s.setMounts t first).setMounts t second = s.setMounts t second := by
  simp [setMounts, List.set_set]

theorem eraseP_snoc {mounts : List Mount} {path : Path}
    (hfree : ∀ mount ∈ mounts, mount.point ≠ path) :
    (mounts ++ [(⟨path, fs⟩ : Mount)]).eraseP (fun mount => mount.point = path) = mounts := by
  rw [List.eraseP_append_right _ fun mount hmount => by simpa using hfree mount hmount]
  simp

/-- A mount at a free point has none strictly below it unless there were some before. -/
theorem hasNestedMount_snoc (ht : t < s.tables.length) {path : Path}
    (hfree : ∀ mount ∈ s.mounts t, mount.point ≠ path) :
    (s.setMounts t (s.mounts t ++ [⟨path, fs⟩])).hasNestedMount t path = true ↔
      ∃ mount ∈ s.mounts t, path <+: mount.point := by
  rw [hasNestedMount_iff, mounts_setMounts ht]
  constructor
  · rintro ⟨mount, hmount, hne, hbelow⟩
    rcases List.mem_append.1 hmount with hmount | hnew
    · exact ⟨mount, hmount, hbelow⟩
    · rw [List.mem_singleton.1 hnew] at hne
      exact absurd rfl hne
  · rintro ⟨mount, hmount, hbelow⟩
    exact ⟨mount, List.mem_append_left _ hmount, hfree mount hmount, hbelow⟩

/-- After a mount that succeeded, an unmount at the same path gives back the very files from before
it, unless other mounts were at or below the path already: then it fails and the mount stays. -/
theorem unmount_mount {path : String} (ht : t < s.tables.length)
    (hmount : s.apply (.mounts t root) path (.mount fs) = (.ok (), s')) :
    s'.apply (.mounts t root) path .unmount =
      if ∃ mount ∈ s.mounts t, Path.ofText path <+: mount.point then
        (.error (.busy (Path.ofText path).text), s')
      else (.ok (), s) := by
  obtain ⟨-, hpoint, rfl⟩ := mount_ok hmount
  have hfree : ∀ mount ∈ s.mounts t, mount.point ≠ Path.ofText path := by
    intro mount hmem heq
    rw [isMountPoint_iff.2 ⟨mount, hmem, heq⟩] at hpoint
    cases hpoint
  have hthere : (s.setMounts t (s.mounts t ++ [⟨Path.ofText path, fs⟩])).isMountPoint t
      (Path.ofText path) = true := by
    rw [isMountPoint_iff, mounts_setMounts ht]
    exact ⟨_, List.mem_append_right _ (List.mem_singleton_self _), rfl⟩
  have hnested := @hasNestedMount_snoc s t fs ht _ hfree
  rw [unmount_eq, detach, hthere]
  by_cases hbelow : ∃ mount ∈ s.mounts t, Path.ofText path <+: mount.point
  · rw [if_pos hbelow, hnested.2 hbelow]
    rfl
  · rw [if_neg hbelow, Bool.eq_false_iff.2 fun htrue => hbelow (hnested.1 htrue),
      mounts_setMounts ht, eraseP_snoc hfree, setMounts_setMounts, setMounts_mounts]
    simp

def nested : List Deed :=
  [.makeMemory, .makeTable (.memory 0), .makeMemory, .makeMemory,
    .request (.mounts 0 (.memory 0)) "/a/b" (.change .makeDirectory),
    .request (.mounts 0 (.memory 0)) "/c" (.change .makeDirectory),
    .request (.mounts 0 (.memory 0)) "/a/b" (.change (.mount (.memory 1)))]

theorem mounts_nested : (history nested).mounts 0 = [⟨["a", "b"], .memory 1⟩] := by cbv

theorem unmount_beside :
    (history nested).apply (.mounts 0 (.memory 0)) "/c" (.mount (.memory 2)) =
      (.ok (), (history nested).setMounts 0 [⟨["a", "b"], .memory 1⟩, ⟨["c"], .memory 2⟩]) ∧
    ((history nested).setMounts 0 [⟨["a", "b"], .memory 1⟩, ⟨["c"], .memory 2⟩]).apply
      (.mounts 0 (.memory 0)) "/c" .unmount = (.ok (), history nested) := by
  have hmount : (history nested).apply (.mounts 0 (.memory 0)) "/c" (.mount (.memory 2)) =
      (.ok (), (history nested).setMounts 0 [⟨["a", "b"], .memory 1⟩, ⟨["c"], .memory 2⟩]) := by
    cbv
  have hbeside : ¬ ∃ mount ∈ (history nested).mounts 0, Path.ofText "/c" <+: mount.point := by
    rw [mounts_nested]
    decide
  refine ⟨hmount, (unmount_mount (by cbv) hmount).trans ?_⟩
  rw [if_neg hbeside]

/-- Above the mount there is a directory that can be mounted on, but not unmounted again. -/
theorem unmount_above :
    ((history nested).apply (.mounts 0 (.memory 0)) "/a" (.mount (.memory 2))).1 = .ok () ∧
    (((history nested).apply (.mounts 0 (.memory 0)) "/a" (.mount (.memory 2))).2.apply
      (.mounts 0 (.memory 0)) "/a" .unmount).1 = .error (.busy "/a") :=
  ⟨by cbv, by cbv⟩

end Files

end ToyUnix
