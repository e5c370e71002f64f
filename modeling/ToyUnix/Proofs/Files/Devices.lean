import Mathlib.Data.String.Basic
import ToyUnix.Proofs.Files.Faults
import ToyUnix.Proofs.Files.Registry

/-!
The list of devices. A registry keeps its devices in the order of their names, each name once, and
lists them by writing every name after a slash. Only a name that could be that of an entry is read
back from there: exactly these devices are addressable by what is listed (`listed_addressable`).
-/

set_option autoImplicit false

namespace ToyUnix

namespace Files

variable {s : Files} {handle registry : Nat} {device : Device} {devices : List Device}

/-! The order of a registry. -/

def Ordered (devices : List Device) : Prop := devices.Pairwise fun a b => a.name < b.name

theorem Ordered.insertDevice (h : Ordered devices) (device : Device) :
    Ordered (insertDevice device devices) := by
  induction devices with
  | nil => exact List.pairwise_singleton _ _
  | cons first rest ih =>
    obtain ⟨hfirst, hrest⟩ := List.pairwise_cons.1 h
    simp only [Files.insertDevice]
    split
    · rename_i heq
      exact List.pairwise_cons.2 ⟨fun other hother => heq ▸ hfirst other hother, hrest⟩
    · rename_i hne
      split
      · rename_i hlt
        refine List.pairwise_cons.2 ⟨fun other hother => ?_, h⟩
        rcases List.mem_cons.1 hother with rfl | hother
        · exact hlt
        · exact hlt.trans (hfirst other hother)
      · rename_i hge
        refine List.pairwise_cons.2 ⟨fun other hother => ?_, ih hrest⟩
        rcases mem_insertDevice hother with rfl | hother
        · exact lt_of_le_of_ne (not_lt.1 hge) (Ne.symm hne)
        · exact hfirst other hother

theorem Ordered.eq_of_name (h : Ordered devices) {a b : Device} (ha : a ∈ devices)
    (hb : b ∈ devices) (hname : a.name = b.name) : a = b :=
  List.inj_on_of_nodup_map ((List.pairwise_map.2 h).imp ne_of_lt) ha hb hname

theorem devices_setDevices_cases (s : Files) (registry other : Nat) (devices : List Device) :
    (s.setDevices registry devices).devices other = devices ∧ other = registry ∨
      (s.setDevices registry devices).devices other = s.devices other := by
  by_cases heq : other = registry
  · subst heq
    by_cases hlt : other < s.registries.length
    · exact Or.inl ⟨devices_setDevices hlt devices, rfl⟩
    · rw [setDevices, List.set_eq_of_length_le (Nat.le_of_not_lt hlt)]
      exact Or.inr rfl
  · exact Or.inr (devices_setDevices_ne (Ne.symm heq) devices)

theorem ordered_perform (h : ∀ registry, Ordered (s.devices registry)) (deed : Deed) :
    ∀ registry, Ordered ((s.perform deed).devices registry) := by
  intro registry
  cases hregisters : deed.registers with
  | false =>
    rw [((s.moves_perform hregisters).keeps registry).devices]
    exact h registry
  | true =>
    cases deed with
    | register other name fs =>
      rcases s.devices_setDevices_cases other registry
        (insertDevice ⟨name, fs, true⟩ (s.devices other)) with ⟨hset, -⟩ | hset
      · exact hset ▸ (h other).insertDevice _
      · exact hset ▸ h registry
    | unregister other name =>
      rcases s.devices_setDevices_cases other registry
        ((s.devices other).filter fun device => device.name ≠ name) with ⟨hset, -⟩ | hset
      · exact hset ▸ (h other).sublist List.filter_sublist
      · exact hset ▸ h registry
    | expire roots =>
      rw [perform, devices_expire]
      exact List.pairwise_map.2 (h registry)
    | _ => cases hregisters

theorem ordered_run (h : ∀ registry, Ordered (s.devices registry)) (deeds : List Deed) :
    ∀ registry, Ordered ((s.run deeds).devices registry) := by
  induction deeds generalizing s with
  | nil => exact h
  | cons deed deeds ih => exact ih (ordered_perform h deed)

theorem ordered_history (deeds : List Deed) (registry : Nat) :
    Ordered ((history deeds).devices registry) := by
  refine ordered_run (fun other => ?_) deeds registry
  simp [Files.devices, Ordered]

theorem Ordered.lookup? (h : Ordered (s.devices registry)) (hdevice : device ∈ s.devices registry)
    (hpresent : device.present = true) : s.lookup? registry device.name = some device.fs := by
  unfold Files.lookup?
  cases hfind : (s.devices registry).find? fun other => other.name = device.name ∧ other.present with
  | none =>
    have hnone := List.find?_eq_none.1 hfind device hdevice
    simp [hpresent] at hnone
  | some found =>
    have hfound := List.find?_some hfind
    simp only [decide_eq_true_eq] at hfound
    rw [h.eq_of_name (List.mem_of_find?_eq_some hfind) hdevice hfound.1]
    rfl

/-! Addresses. -/

/-- The text by which the device is listed is that of a path right below the root, and what is asked
of the device's own root is answered there, with the text before every path that is listed. -/
structure Addressable (s : Files) (handle registry : Nat) (device : Device) : Prop where
  normal : PathText.normalize (devicePoint device.name) = devicePoint device.name
  parent : PathText.parent (devicePoint device.name) = "/"
  below : devicePoint device.name ≠ "/"
  isDirectory : s.isDirectory (.devices handle registry) (devicePoint device.name) =
    s.isDirectory device.fs "/"
  directories : s.directories (.devices handle registry) (devicePoint device.name) =
    rebaseFault (devicePoint device.name)
      ((s.directories device.fs "/").map (rebaseAll (devicePoint device.name)))
  files : s.files (.devices handle registry) (devicePoint device.name) =
    rebaseFault (devicePoint device.name)
      ((s.files device.fs "/").map (rebaseAll (devicePoint device.name)))

theorem isName_of_normal {name : String}
    (hnormal : PathText.normalize (devicePoint name) = devicePoint name)
    (hparent : PathText.parent (devicePoint name) = "/") (hbelow : devicePoint name ≠ "/") :
    Path.IsName name := by
  have hpath : (Path.ofText (devicePoint name)).Canonical := Path.canonical_ofText _
  rw [PathText.normalize_eq] at hnormal
  generalize Path.ofText (devicePoint name) = path at hpath hnormal
  rw [← hnormal, Path.parent_text hpath] at hparent
  have hroot : path.parent = [] :=
    Path.text_injective hpath.dropLast Path.canonical_nil hparent
  have hne : path ≠ [] := by
    rintro rfl
    exact hbelow hnormal.symm
  obtain ⟨segment, rfl⟩ : ∃ segment, path = [segment] := by
    refine ⟨path.getLast hne, ?_⟩
    conv_lhs => rw [← List.dropLast_append_getLast hne]
    rw [Path.parent] at hroot
    rw [hroot, List.nil_append]
  rw [← devicePoint_eq] at hnormal
  have hname : segment = name := String.append_right_inj _ |>.1 hnormal
  exact hname ▸ hpath segment List.mem_cons_self

theorem route_devicePoint {name : String} {fs : FileSystem} (hname : Path.IsName name)
    (hlookup : s.lookup? registry name = some fs) :
    s.route (.devices handle registry) (devicePoint name) = .device name (s.route fs "/") := by
  have hpath : Path.Canonical [name] := by simpa [Path.Canonical] using hname
  have hread : Path.ofText (devicePoint name) = [name] := by
    rw [devicePoint_eq, Path.ofText_text hpath]
  rw [route, hread, follow, hlookup]
  rfl

theorem addressable_iff (h : Ordered (s.devices registry)) (hdevice : device ∈ s.devices registry)
    (hpresent : device.present = true) :
    s.Addressable handle registry device ↔ Path.IsName device.name := by
  constructor
  · intro haddressable
    exact isName_of_normal haddressable.normal haddressable.parent haddressable.below
  · intro hname
    have hpath : Path.Canonical [device.name] := by simpa [Path.Canonical] using hname
    have hroute : s.route (.devices handle registry) (devicePoint device.name) =
        .device device.name (s.route device.fs "/") :=
      route_devicePoint hname (h.lookup? hdevice hpresent)
    refine ⟨?_, ?_, ?_, ?_, ?_, ?_⟩
    · rw [PathText.normalize_eq, devicePoint_eq, Path.ofText_text hpath]
    · rw [devicePoint_eq, Path.parent_text hpath]
      rfl
    · rw [devicePoint_eq]
      exact Path.text_ne_root hpath (List.cons_ne_nil _ _)
    · rw [isDirectory, hroute]
      rfl
    · rw [directories, hroute]
      rfl
    · rw [files, hroute]
      rfl

/-- Whatever was registered and unregistered before: the root lists the devices that are present,
each under its own name, and the ones that are addressable by what is listed are those whose name
could be that of an entry. -/
theorem listed_addressable (deeds : List Deed) (handle registry : Nat) :
    (history deeds).directories (.devices handle registry) "/" =
      .ok ((((history deeds).devices registry).filter (·.present)).map fun device =>
        devicePoint device.name) ∧
    (((history deeds).devices registry).map (·.name)).Nodup ∧
    ∀ device ∈ (history deeds).devices registry, device.present = true →
      ((history deeds).Addressable handle registry device ↔ Path.IsName device.name) := by
  have hordered := ordered_history deeds registry
  refine ⟨?_, (List.pairwise_map.2 hordered).imp ne_of_lt,
    fun device hdevice hpresent => addressable_iff hordered hdevice hpresent⟩
  have hroot : Path.ofText "/" = [] := by decide
  rw [directories, route, hroot, follow]
  simp only [list, deviceNames, List.map_map]
  rfl

def slashed : List Deed :=
  [.makeMemory, .makeRegistry, .request (.memory 0) "/etc" (.change .makeDirectory),
    .register 0 "a/b" (.memory 0), .register 0 "alpha" (.memory 0)]

theorem devices_slashed : (history slashed).devices 0 =
    [⟨"a/b", .memory 0, true⟩, ⟨"alpha", .memory 0, true⟩] := by cbv

theorem slashed_addressable :
    (history slashed).directories (.devices 1 0) "/" = .ok ["/a/b", "/alpha"] ∧
    (history slashed).Addressable 1 0 ⟨"alpha", .memory 0, true⟩ := by
  obtain ⟨hlisted, -, haddressable⟩ := listed_addressable slashed 1 0
  rw [devices_slashed] at hlisted haddressable
  exact ⟨hlisted, (haddressable _ (by simp) rfl).2 ⟨by decide, by decide⟩⟩

theorem slashed_missing :
    (history slashed).directories (.devices 1 0) "/" = .ok ["/a/b", "/alpha"] ∧
    (history slashed).isDirectory (.memory 0) "/" = true ∧
    (history slashed).isDirectory (.devices 1 0) "/a/b" = false ∧
    PathText.parent "/a/b" = "/a" :=
  ⟨by cbv, by cbv, by cbv, by decide⟩

end Files

end ToyUnix
