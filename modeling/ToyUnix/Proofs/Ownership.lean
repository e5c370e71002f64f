import ToyUnix.Proofs.Confinement

/-!
Who may change files at home. Every path is compared as it is written out with the home directory as
it stands in the configuration. A home that is written in another way, with a slash too many or too
few, is made as the same directory and belongs to nobody but root.
Main statement: `World.owned_iff`.
-/

set_option autoImplicit false

namespace ToyUnix

namespace User

variable {user : User} {path : Path}

/-- The home directory is written as paths are written out, or not written at all. -/
def Plain (user : User) : Prop := user.home = "" ∨ PathText.isCanonical user.home = true

instance : Decidable user.Plain := inferInstanceAs (Decidable (_ ∨ _))

theorem isWithin_home_iff (hpath : path.Canonical) :
    PathText.isWithin path.text user.home = true ↔
      user.Plain ∧ Path.ofText user.home <+: path := by
  constructor
  · intro hwithin
    rcases Path.isWithin_cases hpath hwithin with hempty | ⟨upper, hupper, hhome⟩
    · refine ⟨.inl hempty, ?_⟩
      rw [hempty]
      exact List.nil_prefix
    · have hcanonical := hpath.above hupper
      refine ⟨.inr ?_, ?_⟩
      · rw [hhome]
        exact Path.isCanonical_text hcanonical
      · rwa [hhome, Path.ofText_text hcanonical]
  · rintro ⟨hempty | hcanonical, habove⟩
    · rw [hempty]
      exact Path.isWithin_empty path
    · rw [← Path.text_ofText hcanonical]
      exact (Path.isWithin_text hpath (Path.canonical_ofText _)).2 habove

theorem canWrite_iff (hpath : path.Canonical) :
    user.canWrite path = true ↔
      user.isRoot = true ∨ user.Plain ∧ Path.ofText user.home <+: path ∨ ["tmp"] <+: path := by
  have htmp : "/tmp" = Path.text ["tmp"] := by decide
  rw [canWrite, Bool.or_eq_true, Bool.or_eq_true, isWithin_home_iff hpath, htmp,
    Path.isWithin_text hpath Path.canonical_tmp, or_assoc]

/-- Nothing is in the way of the user at home: no right is needed, or it is had. -/
def Settled (user : User) : Prop :=
  user.isRoot = true ∨ user.Plain ∨ ["tmp"] <+: Path.ofText user.home

instance : Decidable user.Settled := inferInstanceAs (Decidable (_ ∨ _ ∨ _))

theorem Settled.canWrite (h : user.Settled) (hpath : path.Canonical)
    (hbelow : Path.ofText user.home <+: path) : user.canWrite path = true := by
  refine (canWrite_iff hpath).2 ?_
  rcases h with hroot | hplain | htmp
  · exact .inl hroot
  · exact .inr (.inl ⟨hplain, hbelow⟩)
  · exact .inr (.inr (htmp.trans hbelow))

theorem settled_of_canWrite (h : user.canWrite (Path.ofText user.home) = true) : user.Settled := by
  rcases (canWrite_iff (Path.canonical_ofText _)).1 h with hroot | ⟨hplain, -⟩ | htmp
  · exact .inl hroot
  · exact .inr (.inl hplain)
  · exact .inr (.inr htmp)

theorem canWrite_below_iff :
    (∀ text, Path.ofText user.home <+: Path.ofText text →
      user.canWrite (Path.ofText text) = true) ↔ user.Settled :=
  ⟨fun hall => settled_of_canWrite (hall user.home (List.prefix_refl _)),
    fun h _ hbelow => h.canWrite (Path.canonical_ofText _) hbelow⟩

theorem canWrite_allowed_iff :
    (∀ text, user.canWrite (Path.ofText text) = true ↔
      user.isRoot = true ∨ Files.Allowed user text) ↔ user.Settled := by
  refine ⟨fun hall => settled_of_canWrite ?_, fun h text => ⟨fun hwrite => ?_, ?_⟩⟩
  · exact (hall user.home).2 (.inr (.inl (List.prefix_refl _)))
  · rcases (canWrite_iff (Path.canonical_ofText text)).1 hwrite with hroot | ⟨-, hbelow⟩ | htmp
    · exact .inl hroot
    · exact .inr (.inl hbelow)
    · exact .inr (.inr htmp)
  · rintro (hroot | hbelow | htmp)
    · exact (canWrite_iff (Path.canonical_ofText text)).2 (.inl hroot)
    · exact h.canWrite (Path.canonical_ofText text) hbelow
    · exact (canWrite_iff (Path.canonical_ofText text)).2 (.inr (.inr htmp))

end User

namespace World

/-- The homes are made in the memory file system under the mounts, however they are written. -/
theorem home_made {w w' : World} {config : ComputerConfig} {number : Nat} {computer : Computer}
    {user : User} (hadd : w.addComputer config = (.ok number, w'))
    (hcomputer : w'.computers[number]? = some computer) (huser : user ∈ computer.users) :
    ∃ t r, computer.fs = Files.overlay t r ∧
      w'.files.isDirectory (.memory r) user.home = true := by
  obtain ⟨husers, -, -, files, hbuilt, hfiles⟩ := addComputer_parts hadd hcomputer
  obtain ⟨t, r, hfs, -, hpaved⟩ := Files.buildFiles_ok hbuilt
  have htrees : w'.files.trees = files.trees := by
    rw [hfiles]
    cases computer.narrativeId <;> rfl
  have htree : w'.files.tree r = files.tree r := by rw [Files.tree, htrees]; rfl
  refine ⟨t, r, hfs, ?_⟩
  rw [Files.isDirectory_memory, htree]
  refine hpaved.made user.home ?_
  rw [husers] at huser
  obtain ⟨account, haccount, rfl⟩ := List.mem_map.1 huser
  exact List.mem_append_left _ (List.mem_append_right _ (List.mem_map_of_mem haccount))

/-- A user may change everything as root, what is in the home directory if that is written as paths
are, and what is in `/tmp`. So the home directory counts however it is written just for root, for
those whose home is in `/tmp`, and for those whose home is written plainly; and just for them the
directory that a computer makes for their home is theirs, with everything below. -/
theorem owned_iff {account : UserConfig} {id : Nat} {user : User}
    (huser : User.ofConfig account id = user) :
    (∀ text, user.canWrite (Path.ofText text) = true ↔
      account.privilege = .root ∨
        user.Plain ∧ Path.ofText account.homeDirectory <+: Path.ofText text ∨
        ["tmp"] <+: Path.ofText text) ∧
    ((∀ text, user.canWrite (Path.ofText text) = true ↔
      account.privilege = .root ∨ Files.Allowed user text) ↔ user.Settled) ∧
    ∀ (w w' : World) (config : ComputerConfig) (number : Nat) (computer : Computer),
      w.addComputer config = (.ok number, w') → w'.computers[number]? = some computer →
        user ∈ computer.users →
          ∃ t r, computer.fs = Files.overlay t r ∧
            w'.files.isDirectory (.memory r) account.homeDirectory = true ∧
            ((∀ text, Path.ofText account.homeDirectory <+: Path.ofText text →
              user.canWrite (Path.ofText text) = true) ↔ user.Settled) := by
  have hhome : user.home = account.homeDirectory := by rw [← huser]; rfl
  have hroot : user.isRoot = true ↔ account.privilege = .root := by
    rw [← huser]
    exact decide_eq_true_iff
  rw [← hhome, ← hroot]
  refine ⟨fun text => User.canWrite_iff (Path.canonical_ofText text), User.canWrite_allowed_iff,
    fun w w' config number computer hadd hcomputer hmember => ?_⟩
  obtain ⟨t, r, hfs, hmade⟩ := home_made hadd hcomputer hmember
  exact ⟨t, r, hfs, hmade, User.canWrite_below_iff⟩

/-- The home of the default user is the user's, with everything below, and so it is on a computer
where it has been made. -/
theorem owned_iff_default :
    standardUser.canWrite (Path.ofText "//home/./user/notes") = true ∧
    ∃ t r, (computerOf []).fs = Files.overlay t r ∧
      (withMounts []).files.isDirectory (.memory r) "/home/user" = true ∧
      ∀ text, Path.ofText "/home/user" <+: Path.ofText text →
        standardUser.canWrite (Path.ofText text) = true := by
  have hadd : World.fresh.addComputer (mounting []) = (.ok 0, withMounts []) :=
    Prod.ext (by cbv) rfl
  have hcomputer : (withMounts []).computers[0]? = some (computerOf []) := by cbv
  have huser : User.ofConfig ⟨1000, "user", .standard, none⟩ 0 = standardUser := by decide
  have hsettled : standardUser.Settled := by decide
  obtain ⟨-, hallowed, hadded⟩ := owned_iff huser
  obtain ⟨t, r, hfs, hmade, hbelow⟩ := hadded _ _ _ _ _ hadd hcomputer (standardUser_mem [])
  exact ⟨(hallowed.2 hsettled _).2 (.inr (.inl (by decide))), t, r, hfs, hmade, hbelow.2 hsettled⟩

def slashed : ComputerConfig :=
  { directories := []
    users := [⟨0, "root", .root, none⟩, ⟨1000, "kim", .standard, some "/home/kim/"⟩] }

def slashedUp : World := (World.fresh.addComputer slashed).2

def kim : User := ⟨1000, "kim", .standard, 0, "/home/kim/"⟩

/-- The computer makes the home and puts nothing over it, and kim may not change anything there. -/
theorem slashed_disowned :
    ((World.fresh.addComputer slashed).1 = .ok 0 ∧
      slashedUp.files.isDirectory (Files.overlay 0 0) kim.home = true ∧
      kim.canWrite (Path.ofText kim.home) = false ∧
      kim.canWrite (Path.ofText "/home/kim/a") = false) ∧
    ¬ ∀ (account : UserConfig) (id : Nat) (text : String),
      (User.ofConfig account id).canWrite (Path.ofText text) = true ↔
        account.privilege = .root ∨
          Path.ofText account.homeDirectory <+: Path.ofText text ∨
          ["tmp"] <+: Path.ofText text := by
  refine ⟨⟨by cbv, by cbv, by decide, by decide⟩, fun hclaim => ?_⟩
  have hwrite := (hclaim ⟨1000, "kim", .standard, some "/home/kim/"⟩ 0 "/home/kim/a").2
    (.inr (.inl (by decide)))
  exact absurd hwrite (by decide)

end World

end ToyUnix
