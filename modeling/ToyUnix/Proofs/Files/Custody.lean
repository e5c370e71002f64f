import ToyUnix.Proofs.Files.Places

/-!
Custody. What a user without root's rights can do to any namespace, by changes through a view of it
and by writers that were opened there: nothing becomes different at a place that no path leads to
that the user may change. A directory is made together with what is missing above it, but above the
home directory nothing is missing. Main statement: `Custody.alike`.
-/

set_option autoImplicit false

namespace ToyUnix

/-! Which paths a user may change, however the home directory is written. -/

namespace Path

theorem chars_before {path : Path} (hpath : path.Canonical) {front rest : List Char}
    (h : path.chars = front ++ '/' :: rest) : ∃ upper : Path, upper <+: path ∧ front = upper.chars := by
  induction path generalizing front with
  | nil => simp [chars] at h
  | cons segment path ih =>
    obtain ⟨hsegment, hlower⟩ := List.forall_mem_cons.1 hpath
    obtain _ | ⟨first, front⟩ := front
    · exact ⟨[], List.nil_prefix, rfl⟩
    · have hchars : '/' :: (segment.toList ++ chars path) = first :: (front ++ '/' :: rest) := h
      obtain ⟨rfl, htail⟩ := List.cons.inj hchars
      rcases List.append_eq_append_iff.1 htail with ⟨before, rfl, hbelow⟩ | ⟨after, hname, hbelow⟩
      · obtain ⟨upper, hupper, rfl⟩ := ih hlower hbelow
        exact ⟨segment :: upper, (List.prefix_cons_inj _).2 hupper, rfl⟩
      · cases after with
        | nil =>
          refine ⟨[segment], (List.prefix_cons_inj _).2 List.nil_prefix, ?_⟩
          rw [List.append_nil] at hname
          simp [chars, hname]
        | cons slash after =>
          obtain ⟨rfl, -⟩ := List.cons.inj hbelow
          exact absurd (hname ▸ by simp) hsegment.2

theorem isWithin_cases {path : Path} (hpath : path.Canonical) {home : String}
    (h : PathText.isWithin path.text home = true) :
    home = "" ∨ ∃ upper : Path, upper <+: path ∧ home = upper.text := by
  obtain rfl | rfl | ⟨after, hrest⟩ := PathText.isWithin_iff.1 h
  · exact .inr ⟨[], List.nil_prefix, rfl⟩
  · exact .inr ⟨path, List.prefix_refl _, rfl⟩
  · have hhome : home = String.ofList home.toList := String.ofList_toList.symm
    obtain rfl | hne := eq_or_ne path []
    · obtain ⟨hempty, -⟩ | ⟨-, hnil⟩ := List.append_eq_singleton_iff.1 hrest.symm
      · exact .inl (by rw [hhome, hempty])
      · cases hnil
    · rw [toList_text hne] at hrest
      obtain ⟨upper, hupper, hchars⟩ := chars_before hpath hrest
      obtain rfl | hupperne := eq_or_ne upper []
      · exact .inl (by rw [hhome, hchars, Path.chars, List.flatMap_nil])
      · exact .inr ⟨upper, hupper, by rw [hhome, hchars, ← toList_text hupperne, String.ofList_toList]⟩

theorem isWithin_empty (path : Path) : PathText.isWithin path.text "" = true := by
  cases path with
  | nil => rfl
  | cons segment path => simp [PathText.isWithin, text, chars]

theorem canonical_tmp : Canonical ["tmp"] := by
  intro segment hsegment
  rw [List.mem_singleton.1 hsegment]
  exact ⟨by decide, by decide⟩

end Path

namespace User

variable {user : User} {path : Path}

theorem canWrite_standard (h : user.privilege = .standard) (path : Path) :
    user.canWrite path = true ↔
      PathText.isWithin path.text user.home = true ∨
        PathText.isWithin path.text (Path.text ["tmp"]) = true := by
  have htmp : Path.text ["tmp"] = "/tmp" := by decide
  simp [canWrite, isRoot, h, htmp]

theorem within_of_canWrite (h : user.privilege = .standard) (hpath : path.Canonical)
    (hwrite : user.canWrite path = true) :
    Path.ofText user.home <+: path ∨ ["tmp"] <+: path := by
  refine ((canWrite_standard h path).1 hwrite).imp (fun hhome => ?_)
    (Path.isWithin_text hpath Path.canonical_tmp).1
  rcases Path.isWithin_cases hpath hhome with hempty | ⟨upper, hupper, hhome⟩
  · rw [hempty]
    exact List.nil_prefix
  · rw [hhome, Path.ofText_text (hpath.above hupper)]
    exact hupper

/-- What is above a path that the user may change, and is no such path itself, is above the home
directory, and that is above the path; or it is the root. -/
theorem denied_above (h : user.privilege = .standard) (hpath : path.Canonical)
    (hwrite : user.canWrite path = true) {other : Path} (hother : other <+: path)
    (hdenied : user.canWrite other = false) :
    other <+: Path.ofText user.home ∧ Path.ofText user.home <+: path ∨ other = [] := by
  have hdeny := mt (canWrite_standard h other).2 (Bool.not_eq_true _ ▸ hdenied)
  rw [not_or] at hdeny
  have hcanonical := hpath.above hother
  rcases (canWrite_standard h path).1 hwrite with hhome | htmp
  · rcases Path.isWithin_cases hpath hhome with hempty | ⟨upper, hupper, hhome⟩
    · exact absurd (hempty ▸ Path.isWithin_empty other) hdeny.1
    · have hcanonicalupper := hpath.above hupper
      rw [hhome, Path.isWithin_text hcanonical hcanonicalupper] at hdeny
      rw [hhome, Path.ofText_text hcanonicalupper]
      exact .inl ⟨(List.prefix_or_prefix_of_prefix hother hupper).resolve_right hdeny.1, hupper⟩
  · rw [Path.isWithin_text hcanonical Path.canonical_tmp] at hdeny
    have hin := (Path.isWithin_text hpath Path.canonical_tmp).1 htmp
    exact .inr (Files.above_tmp
      ((List.prefix_or_prefix_of_prefix hother hin).resolve_right hdeny.2) hdeny.2)

end User

namespace Files

/-- Some path that the user may change leads to the place. -/
def Granted (s : Files) (fs : FileSystem) (user : User) (id : Nat) (path : Path) : Prop :=
  ∃ text, user.canWrite (Path.ofText text) = true ∧
    s.place? fs (Path.ofText text) = some (id, path)

/-- The files of a namespace that has been put together by mounts, with the home directory of a user
without root's rights. -/
structure Homely (s : Files) (fs : FileSystem) (user : User) : Prop where
  standard : user.privilege = .standard
  pointed : ∀ t, Pointed (s.mounts t)
  wooded : s.Wooded
  home : ∃ id path, s.place? fs (Path.ofText user.home) = some (id, path) ∧
    (s.tree id).node? path = some .directory

/-- The files `s` while nobody has been at work since `start` but the user. -/
structure Custody (fs : FileSystem) (user : User) (start s : Files) : Prop where
  standing : start.Standing s
  wooded : s.Wooded
  spared : ∀ id path, ¬ start.Granted fs user id path →
    (s.tree id).node? path = (start.tree id).node? path
  writers : ∀ writer ∈ s.writers,
    writer.fs = fs ∧ user.canWrite (Path.ofText writer.path) = true

variable {start s s' : Files} {fs : FileSystem} {user : User} {id : Nat} {path inner : Path}

/-- What is above a place to which the user's path leads is the user's too, or it is there from the
start. -/
theorem Homely.above_place (h : start.Homely fs user) (hpath : path.Canonical)
    (hwrite : user.canWrite path = true) (hplace : start.place? fs path = some (id, inner))
    {upper : Path} (hupper : upper <+: inner) :
    start.Granted fs user id upper ∨ upper = [] ∨
      (start.tree id).node? upper = some .directory := by
  obtain ⟨above, rfl, habove⟩ := place_above h.pointed hplace
  have hother : above ++ upper <+: above ++ inner := (List.prefix_append_right_inj _).2 hupper
  have hread := Path.ofText_text (hpath.above hother)
  cases hgrant : user.canWrite (above ++ upper) with
  | true => exact .inl ⟨(above ++ upper).text, by rwa [hread], by rw [hread]; exact habove _ hupper⟩
  | false =>
    rcases User.denied_above h.standard hpath hwrite hother hgrant with ⟨hhome, hin⟩ | hroot
    · -- The home directory is in the same tree, since it is between the two paths.
      obtain ⟨rest, hrest⟩ := hhome
      rw [List.append_assoc] at hrest
      rw [← hrest, List.prefix_append_right_inj] at hin
      obtain ⟨home, path, hat, hdirectory⟩ := h.home
      rw [← hrest, habove _ hin] at hat
      cases hat
      by_cases hsame : upper = upper ++ rest
      · exact .inr (.inr (by rw [hsame, hdirectory]))
      · exact .inr (.inr ((h.wooded.of_node hdirectory).directory_above hdirectory
          (List.prefix_append _ _) hsame))
    · exact .inr (.inl (List.append_eq_nil_iff.1 hroot).2)

namespace Custody

theorem refl (h : start.Homely fs user) (hwriters : start.writers = []) :
    Custody fs user start start where
  standing := .refl start
  wooded := h.wooded
  spared _ _ _ := rfl
  writers writer hmem := by
    rw [hwriters] at hmem
    cases hmem

theorem apply (hstart : start.Homely fs user) (h : Custody fs user start s) {text : String}
    (hwrite : user.canWrite (Path.ofText text) = true) {c : Change}
    (hmounts : (Request.change c).mounts = false) :
    Custody fs user start (s.apply fs text c).2 := by
  have hpath := Path.canonical_ofText text
  have heffect := s.effect_apply fs text c
  refine ⟨h.standing.trans (heffect.standing hmounts),
    heffect.wooded h.wooded fun _ _ => canonical_place hpath, fun other at_ hdenied => ?_,
    heffect.writers ▸ h.writers⟩
  have hbefore := h.spared other at_ hdenied
  cases hplace : s.place? fs (Path.ofText text) with
  | none =>
    rw [hplace] at heffect
    generalize (s.apply fs text c).2 = after at heffect
    cases heffect with
    | nothing => exact hbefore
    | tree hat _ => cases hat
    | mounts => exact hbefore
  | some place =>
    obtain ⟨id, inner⟩ := place
    rw [hplace] at heffect
    have hat := (h.standing.place? fs _).symm.trans hplace
    have hne : (other, at_) ≠ (id, inner) := fun heq =>
      hdenied ⟨text, hwrite, heq ▸ hat⟩
    rcases heffect.node h.wooded (canonical_place hpath hplace) hne with
      hsame | ⟨rfl, hupper, hgrown, hnone⟩
    · exact hsame.trans hbefore
    · rcases hstart.above_place hpath hwrite hat hupper with hgranted | rfl | hdirectory
      · exact absurd hgranted hdenied
      · rw [hgrown.root] at hnone
        cases hnone
      · rw [← hbefore, hnone] at hdirectory
        cases hdirectory

theorem view (hstart : start.Homely fs user) (h : Custody fs user start s) (handle : Nat)
    (text : String) {c : Change} (hmounts : (Request.change c).mounts = false) :
    Custody fs user start (s.apply (.view handle fs user) text c).2 := by
  rw [apply_view]
  split
  · rename_i hwrite
    exact apply hstart h hwrite hmounts
  · exact h

theorem setPending (h : Custody fs user start s) (n : Nat) (pending : Bytes) :
    Custody fs user start (s.setPending n pending) := by
  unfold Files.setPending
  split
  · exact h
  · rename_i writer hwriter
    refine ⟨⟨h.standing.tables, h.standing.registries⟩, h.wooded, h.spared, fun other hmem => ?_⟩
    rcases List.mem_or_eq_of_mem_set hmem with hmem | rfl
    · exact h.writers other hmem
    · exact h.writers writer (List.mem_of_getElem? hwriter)

theorem writeBytes (h : Custody fs user start s) (n : Nat) (data : Bytes) :
    Custody fs user start (s.writeBytes n data) := by
  unfold Files.writeBytes
  split
  · exact h
  · exact h.setPending _ _

theorem flush (hstart : start.Homely fs user) (h : Custody fs user start s) (n : Nat) :
    Custody fs user start (s.flush n).2 := by
  unfold Files.flush
  split
  · exact h
  · rename_i writer hwriter
    obtain ⟨hfs, hwrite⟩ := h.writers writer (List.mem_of_getElem? hwriter)
    split
    · exact h
    · have happly := apply hstart h hwrite (c := .append writer.pending) rfl
      rw [hfs]
      split
      · rename_i after hok
        rw [hok] at happly
        exact happly.setPending _ _
      · rename_i fault after herror
        rw [herror] at happly
        exact happly

theorem closeWriter (hstart : start.Homely fs user) (h : Custody fs user start s) (n : Nat) :
    Custody fs user start (s.closeWriter n) :=
  (flush hstart h n).setPending n []

theorem openWrite (hstart : start.Homely fs user) (h : Custody fs user start s) (handle : Nat)
    (text : String) (appending : Bool) :
    Custody fs user start (s.openWrite (.view handle fs user) text appending).2 := by
  have hview : Custody fs user start (s.apply (.view handle fs user) text
      (if appending then .append [] else .write [])).2 :=
    view hstart h handle text (by cases appending <;> rfl)
  unfold Files.openWrite
  split
  · rename_i fault after heq
    rwa [heq] at hview
  · rename_i after heq
    rw [heq] at hview
    have hwrite : user.canWrite (Path.ofText text) = true := by
      rw [apply_view] at heq
      split at heq
      · assumption
      · cases heq
    refine ⟨⟨hview.standing.tables, hview.standing.registries⟩, hview.wooded, hview.spared,
      fun writer hmem => ?_⟩
    rcases List.mem_append.1 hmem with hmem | hmem
    · exact hview.writers writer hmem
    · rw [List.mem_singleton.1 hmem]
      exact ⟨rfl, by rwa [ofText_normalize]⟩

theorem alike (h : Custody fs user start s) {text : String}
    (hspared : ∀ id path, start.place? fs (Path.ofText text) = some (id, path) →
      ¬ start.Granted fs user id path) : Alike start s fs text :=
  alike_of_place h.standing fun id path hplace => h.spared id path (hspared id path hplace)

end Custody

end Files

end ToyUnix
