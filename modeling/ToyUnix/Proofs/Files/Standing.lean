import ToyUnix.Proofs.Files.Layers

/-!
What routes depend on. As long as mounts and registrations stand, every path goes the same way,
whatever becomes of trees and writers; and what is answered along a route depends on the trees only.
-/

set_option autoImplicit false

namespace ToyUnix

namespace Files

/-- The same mounts and the same registrations. -/
structure Standing (s s' : Files) : Prop where
  tables : s'.tables = s.tables
  registries : s'.registries = s.registries

namespace Standing

variable {s s' s'' : Files}

theorem refl (s : Files) : Standing s s := ⟨rfl, rfl⟩

theorem trans (h : Standing s s') (h' : Standing s' s'') : Standing s s'' :=
  ⟨h'.tables.trans h.tables, h'.registries.trans h.registries⟩

theorem mounts (h : Standing s s') (id : Nat) : s'.mounts id = s.mounts id := by
  rw [Files.mounts, Files.mounts, h.tables]

theorem devices (h : Standing s s') (registry : Nat) : s'.devices registry = s.devices registry := by
  rw [Files.devices, Files.devices, h.registries]

theorem follow (h : Standing s s') (fs : FileSystem) (shown : String) (path : Path) :
    s'.follow fs shown path = s.follow fs shown path := by
  fun_induction Files.follow s fs shown path with
  | case1 => rw [Files.follow]
  | case2 shown path id target user ih => rw [Files.follow, ih]
  | case3 shown path id root mount hfound inner ih =>
    rw [follow_mounts, owner, h.mounts, hfound]
    exact congrArg _ ih
  | case4 shown path id root hfound ih =>
    rw [follow_mounts, owner, h.mounts, hfound]
    exact congrArg _ ih
  | case5 => rw [Files.follow]
  | case6 shown handle registry name rest fs hlookup ih =>
    have hsame : s'.lookup? registry name = some fs := by
      rw [lookup?, h.devices]
      exact hlookup
    rw [Files.follow, hsame]
    exact congrArg _ ih
  | case7 shown handle registry name rest hlookup =>
    have hsame : s'.lookup? registry name = none := by
      rw [lookup?, h.devices]
      exact hlookup
    rw [Files.follow, hsame]

theorem route (h : Standing s s') (fs : FileSystem) (text : String) :
    s'.route fs text = s.route fs text :=
  h.follow fs text _

end Standing

theorem answers_congr {s s' : Files} (htrees : s'.trees = s.trees) (question : Question)
    (route : Route) : s'.answers question route = s.answers question route := by
  have htree (id : Nat) : s'.tree id = s.tree id := by rw [tree, tree, htrees]
  induction route with
  | tree id shown path => rw [answers, answers, htree]
  | deviceList registry => rfl
  | noDevice path => rfl
  | device name rest ih => rw [answers, answers, ih]
  | view user path rest ih => rw [answers, answers, ih]
  | mounted id path point rest ih => rw [answers, answers, ih]

end Files

end ToyUnix
