import ToyUnix.Proofs.Files.History

/-!
What a registry has under a name. A later registration takes the place of an earlier one, and while
something outside holds a file system its device is present. So a name leads to the file system that
was registered last under it (`Filed.lookup?`).
-/

set_option autoImplicit false

namespace ToyUnix

/-- Whether the deed leaves the registrations in `registry` alone. -/
def Deed.Spares (registry : Nat) : Deed → Prop
  | .register other _ _ => other ≠ registry
  | .unregister other _ => other ≠ registry
  | .expire _ => False
  | _ => True

namespace Files

variable {s s' : Files} {registry : Nat} {name : String} {fs : FileSystem}

/-! Devices of a registry. -/

def registered? (s : Files) (registry : Nat) (name : String) : Option FileSystem :=
  ((s.devices registry).find? fun device => device.name = name).map (·.fs)

theorem devices_setDevices (h : registry < s.registries.length) (devices : List Device) :
    (s.setDevices registry devices).devices registry = devices := by
  simp [setDevices, Files.devices, h]

theorem devices_setDevices_ne {other : Nat} (h : other ≠ registry) (devices : List Device) :
    (s.setDevices other devices).devices registry = s.devices registry := by
  simp [setDevices, Files.devices, h]

theorem find?_insertDevice (device : Device) (devices : List Device) (name : String) :
    (insertDevice device devices).find? (fun other => other.name = name) =
      if device.name = name then some device
      else devices.find? fun other => other.name = name := by
  induction devices with
  | nil => by_cases hname : device.name = name <;> simp [insertDevice, hname]
  | cons first rest ih =>
    simp only [insertDevice]
    split
    · rename_i heq
      by_cases hname : device.name = name <;> simp [← heq, hname]
    · rename_i hne
      split
      · by_cases hname : device.name = name <;> simp [hname]
      · by_cases hfirst : first.name = name
        · have hname : device.name ≠ name := fun heq => hne (heq.trans hfirst.symm)
          simp [hfirst, hname]
        · simp [hfirst, ih]

theorem mem_insertDevice {device other : Device} {devices : List Device}
    (h : other ∈ insertDevice device devices) : other = device ∨ other ∈ devices := by
  induction devices with
  | nil => exact Or.inl (List.mem_singleton.1 h)
  | cons first rest ih =>
    simp only [insertDevice] at h
    split at h
    · exact (List.mem_cons.1 h).imp_right (List.mem_cons_of_mem _)
    · split at h
      · exact List.mem_cons.1 h
      · rcases List.mem_cons.1 h with rfl | hmem
        · exact Or.inr List.mem_cons_self
        · exact (ih hmem).imp_right (List.mem_cons_of_mem _)

theorem registered?_register (h : registry < s.registries.length) (name other : String)
    (fs : FileSystem) : (s.register registry name fs).registered? registry other =
      if name = other then some fs else s.registered? registry other := by
  rw [registered?, register, devices_setDevices h, find?_insertDevice]
  split <;> rfl

theorem registered?_unregister (h : registry < s.registries.length) (name other : String) :
    (s.unregister registry name).2.registered? registry other =
      if name = other then none else s.registered? registry other := by
  rw [registered?, unregister, devices_setDevices h, List.find?_filter]
  split
  · rename_i heq
    subst heq
    simp
  · rename_i hne
    have hsame : ∀ device : Device, decide (decide (device.name ≠ name) = true ∧
        decide (device.name = other) = true) = decide (device.name = other) := by
      intro device
      simp only [decide_eq_true_eq, decide_eq_decide]
      exact ⟨And.right, fun heq => ⟨fun hname => hne (hname.symm.trans heq), heq⟩⟩
    simp only [hsame, registered?]

theorem lookup?_of_present (h : s.registered? registry name = some fs)
    (hpresent : ∀ device ∈ s.devices registry, device.fs = fs → device.present = true) :
    s.lookup? registry name = some fs := by
  obtain ⟨device, hfind, rfl⟩ := Option.map_eq_some_iff.1 h
  obtain ⟨hname, before, after, hdevices, hbefore⟩ := List.find?_eq_some_iff_append.1 hfind
  rw [decide_eq_true_eq] at hname
  have hdevice : device.present = true := hpresent device (by simp [hdevices]) rfl
  refine Option.map_eq_some_iff.2 ⟨device, List.find?_eq_some_iff_append.2 ?_, rfl⟩
  refine ⟨by simp [hname, hdevice], before, after, hdevices, fun other hother => ?_⟩
  have hne := hbefore other hother
  simp only [Bool.not_eq_true', decide_eq_false_iff_not] at hne ⊢
  exact fun hboth => hne hboth.1

theorem lookup?_of_unregistered (h : s.registered? registry name = none) :
    s.lookup? registry name = none := by
  rw [registered?, Option.map_eq_none_iff, List.find?_eq_none] at h
  rw [lookup?, Option.map_eq_none_iff, List.find?_eq_none]
  simp only [decide_eq_true_eq] at h ⊢
  exact fun device hdevice hboth => h device hdevice hboth.1

/-! Expiry. A file system that is held from outside is held however often one looks. -/

theorem mem_stillHeld {roots : List FileSystem} (hroot : fs ∈ roots) (n : Nat)
    {known : List FileSystem} (hknown : fs ∈ known) : fs ∈ s.stillHeld roots n known := by
  induction n generalizing known with
  | zero => exact hknown
  | succ n ih =>
    refine ih (List.mem_filter.2 ⟨hknown, ?_⟩)
    rw [List.contains_iff_mem]
    exact List.mem_append_left _ hroot

theorem mem_parts (fs : FileSystem) : fs ∈ parts fs := by
  cases fs <;> exact List.mem_cons_self

theorem mem_mentioned {device : Device} (h : device ∈ s.devices registry)
    (roots : List FileSystem) : device.fs ∈ s.mentioned roots := by
  have hregistry : ∃ devices ∈ s.registries, device ∈ devices := by
    unfold Files.devices at h
    cases hdevices : s.registries[registry]? with
    | none => rw [hdevices] at h; cases h
    | some devices =>
      rw [hdevices] at h
      exact ⟨devices, List.mem_of_getElem? hdevices, h⟩
  obtain ⟨devices, hdevices, hmem⟩ := hregistry
  unfold mentioned
  rw [List.mem_eraseDups]
  refine List.mem_flatMap.2 ⟨device.fs, List.mem_append_right _ ?_, mem_parts device.fs⟩
  exact List.mem_flatMap.2 ⟨devices, hdevices, List.mem_map_of_mem hmem⟩

theorem devices_expire (s : Files) (roots : List FileSystem) (registry : Nat) :
    (s.expire roots).devices registry = (s.devices registry).map fun device =>
      let known := s.mentioned roots
      { device with present :=
          device.present && (s.stillHeld roots known.length known).contains device.fs } := by
  simp only [expire, Files.devices, List.getElem?_map]
  cases s.registries[registry]? <;> rfl

theorem registered?_expire (s : Files) (roots : List FileSystem) (registry : Nat) (name : String) :
    (s.expire roots).registered? registry name = s.registered? registry name := by
  rw [registered?, devices_expire, List.find?_map, Option.map_map]
  rfl

/-! What deeds leave as it is. -/

/-- Tables and registries stay, and so do the registrations in `registry`. -/
structure Keeps (registry : Nat) (s s' : Files) : Prop where
  tables : s.tables.length ≤ s'.tables.length
  registries : s.registries.length ≤ s'.registries.length
  devices : s'.devices registry = s.devices registry

theorem Move.keeps (h : s.Move s') (registry : Nat) : Keeps registry s s' := by
  cases h with
  | attach => exact ⟨by simp [setMounts], Nat.le_refl _, rfl⟩
  | detach => exact ⟨by simp [setMounts], Nat.le_refl _, rfl⟩
  | table => exact ⟨by simp [addTable], Nat.le_refl _, rfl⟩
  | registry =>
    refine ⟨Nat.le_refl _, by simp [addRegistry], ?_⟩
    simp only [addRegistry, Files.devices, List.getElem?_append]
    split
    · rfl
    · rename_i hge
      rw [List.getElem?_eq_none (Nat.le_of_not_lt hge), List.getElem?_singleton]
      split <;> rfl
  | _ => exact ⟨Nat.le_refl _, Nat.le_refl _, rfl⟩

theorem Moves.keeps (h : s.Moves s') (registry : Nat) : Keeps registry s s' := by
  induction h with
  | refl => exact ⟨Nat.le_refl _, Nat.le_refl _, rfl⟩
  | tail _ hmove ih =>
    have hkeeps := hmove.keeps registry
    exact ⟨Nat.le_trans ih.tables hkeeps.tables, Nat.le_trans ih.registries hkeeps.registries,
      hkeeps.devices.trans ih.devices⟩

theorem keeps_perform {deed : Deed} (h : deed.Spares registry) :
    Keeps registry s (s.perform deed) := by
  cases hregisters : deed.registers with
  | false => exact (s.moves_perform hregisters).keeps registry
  | true =>
    cases deed with
    | register other name fs =>
      exact ⟨Nat.le_refl _, by simp [perform, register, setDevices], devices_setDevices_ne h _⟩
    | unregister other name =>
      exact ⟨Nat.le_refl _, by simp [perform, unregister, setDevices], devices_setDevices_ne h _⟩
    | expire roots => cases h
    | _ => cases hregisters

/-! A registry in use. -/

/-- The registry has what was registered last under each name, and `held` are file systems that
something outside holds: no device of one of these is gone. -/
structure Filed (named : Assoc String FileSystem) (s : Files) (registry : Nat)
    (held : List FileSystem) : Prop where
  pointed : ∀ id, Pointed (s.mounts id)
  inRange : registry < s.registries.length
  latest : ∀ name, s.registered? registry name = named.get? name
  present : ∀ fs ∈ held, ∀ device ∈ s.devices registry, device.fs = fs → device.present = true
  made : ∀ device ∈ s.devices registry, ∀ id root, device.fs = .mounts id root →
    id < s.tables.length

namespace Filed

variable {named : Assoc String FileSystem} {held : List FileSystem}

theorem lookup? (h : Filed named s registry held) (hlatest : named.get? name = some fs)
    (hheld : fs ∈ held) : s.lookup? registry name = some fs :=
  lookup?_of_present ((h.latest name).trans hlatest) (h.present fs hheld)

theorem keeps (h : Filed named s registry held) (hkeeps : Keeps registry s s')
    (hpointed : ∀ id, Pointed (s'.mounts id)) : Filed named s' registry held := by
  refine ⟨hpointed, Nat.lt_of_lt_of_le h.inRange hkeeps.registries, fun name => ?_, ?_, ?_⟩
  · rw [registered?, hkeeps.devices]
    exact h.latest name
  · rw [hkeeps.devices]
    exact h.present
  · rw [hkeeps.devices]
    exact fun device hdevice id root hfs =>
      Nat.lt_of_lt_of_le (h.made device hdevice id root hfs) hkeeps.tables

theorem moves (h : Filed named s registry held) (hmoves : s.Moves s') :
    Filed named s' registry held :=
  h.keeps (hmoves.keeps registry) (hmoves.pointed h.pointed)

theorem run (h : Filed named s registry held) {deeds : List Deed}
    (hdeeds : ∀ deed ∈ deeds, deed.Spares registry) : Filed named (s.run deeds) registry held := by
  induction deeds generalizing s with
  | nil => exact h
  | cons deed deeds ih =>
    obtain ⟨hdeed, hrest⟩ := List.forall_mem_cons.1 hdeeds
    exact ih (h.keeps (keeps_perform hdeed) (pointed_perform h.pointed deed)) hrest

theorem register (h : Filed named s registry held) (name : String)
    (hmade : ∀ id root, fs = .mounts id root → id < s.tables.length) :
    Filed (named.set name fs) (s.register registry name fs) registry held := by
  have hdevices : ∀ device ∈ (s.register registry name fs).devices registry,
      device = ⟨name, fs, true⟩ ∨ device ∈ s.devices registry := by
    intro device hdevice
    rw [Files.register, devices_setDevices h.inRange] at hdevice
    exact mem_insertDevice hdevice
  refine ⟨h.pointed, ?_, fun other => ?_, fun other hother device hdevice hfs => ?_,
    fun device hdevice id root hfs => ?_⟩
  · rw [Files.register, setDevices, List.length_set]
    exact h.inRange
  · rw [registered?_register h.inRange, Assoc.get?_set, h.latest]
  · rcases hdevices device hdevice with rfl | hold
    · rfl
    · exact h.present other hother device hold hfs
  · rcases hdevices device hdevice with rfl | hold
    · exact hmade id root hfs
    · exact h.made device hold id root hfs

theorem unregister (h : Filed named s registry held) (name : String) :
    Filed (named.erase name) (s.unregister registry name).2 registry held := by
  have hdevices : ∀ device ∈ (s.unregister registry name).2.devices registry,
      device ∈ s.devices registry := by
    intro device hdevice
    rw [Files.unregister, devices_setDevices h.inRange] at hdevice
    exact (List.mem_filter.1 hdevice).1
  refine ⟨h.pointed, ?_, fun other => ?_, fun other hother device hdevice hfs => ?_,
    fun device hdevice id root hfs => ?_⟩
  · rw [Files.unregister, setDevices, List.length_set]
    exact h.inRange
  · rw [registered?_unregister h.inRange, Assoc.get?_erase, h.latest]
  · exact h.present other hother device (hdevices device hdevice) hfs
  · exact h.made device (hdevices device hdevice) id root hfs

theorem expire (h : Filed named s registry held) {roots : List FileSystem}
    (hroots : ∀ fs ∈ held, fs ∈ roots) : Filed named (s.expire roots) registry held := by
  have hdevices : ∀ device ∈ (s.expire roots).devices registry, ∃ before ∈ s.devices registry,
      before.fs = device.fs ∧
        (before.present = true → before.fs ∈ roots → device.present = true) := by
    intro device hdevice
    rw [devices_expire] at hdevice
    obtain ⟨before, hbefore, rfl⟩ := List.mem_map.1 hdevice
    refine ⟨before, hbefore, rfl, fun hpresent hroot => ?_⟩
    rw [Bool.and_eq_true, List.contains_iff_mem]
    exact ⟨hpresent, mem_stillHeld hroot _ (mem_mentioned hbefore roots)⟩
  refine ⟨h.pointed, ?_, fun other => ?_, fun other hother device hdevice hfs => ?_,
    fun device hdevice id root hfs => ?_⟩
  · rw [Files.expire, List.length_map]
    exact h.inRange
  · rw [registered?_expire, h.latest]
  · obtain ⟨before, hbefore, hsame, hpresent⟩ := hdevices device hdevice
    have hheld := hsame.trans hfs
    exact hpresent (h.present other hother before hbefore hheld) (hheld ▸ hroots other hother)
  · obtain ⟨before, hbefore, hsame, -⟩ := hdevices device hdevice
    exact h.made before hbefore id root (hsame.trans hfs)

theorem hold (h : Filed named s registry held) {id : Nat} {root : FileSystem}
    (hnew : ∀ device ∈ s.devices registry, device.fs ≠ .mounts id root) :
    Filed named s registry (held ++ [.mounts id root]) := by
  refine ⟨h.pointed, h.inRange, h.latest, fun fs hfs device hdevice hsame => ?_, h.made⟩
  rcases List.mem_append.1 hfs with hfs | hfs
  · exact h.present fs hfs device hdevice hsame
  · exact absurd (hsame.trans (List.mem_singleton.1 hfs)) (hnew device hdevice)

end Filed

end Files

end ToyUnix
