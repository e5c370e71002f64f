import ToyUnix.Proofs.Files.History

/-!
Which mount a path belongs to. A table goes through its mounts in the order they were attached and
compares texts: a path is within a mount if its text goes on from that of the point, and of those
mounts the one with the longest text is taken (`Files.resolve`). What it takes is the innermost
mount around the path, whichever came first. Main statement: `routing`.
-/

set_option autoImplicit false

namespace ToyUnix

/-- Of the mounts that a path text is within, the one whose point is the longest text. -/
def longest? (path : String) : List Mount → Option Mount
  | [] => none
  | mount :: mounts =>
    match longest? path mounts with
    | none => if PathText.isWithin path mount.point.text then some mount else none
    | some best =>
      if PathText.isWithin path mount.point.text ∧
          best.point.text.utf8ByteSize < mount.point.text.utf8ByteSize then some mount
      else some best

/-- Which file system a path text belongs to, what it is called there, and where that is attached.
-/
structure Resolved where
  fs : FileSystem
  inner : String
  point : String

namespace Files

def resolve (s : Files) (id : Nat) (root : FileSystem) (path : String) : Resolved :=
  let path := PathText.normalize path
  match longest? path (s.mounts id) with
  | some mount =>
    ⟨mount.fs, (PathText.below? path mount.point.text).getD "/", mount.point.text⟩
  | none => ⟨root, path, "/"⟩

variable {s : Files} {id : Nat} {root : FileSystem} {path : Path} {mounts : List Mount}

theorem not_above_of_owner (h : Pointed (s.mounts id))
    (hroot : s.owner id root path = ⟨[], root⟩) {mount : Mount} (hmount : mount ∈ s.mounts id) :
    ¬ mount.point <+: path := by
  intro hupper
  have hle := length_le_owner hmount hupper root
  rw [hroot] at hle
  exact h.below mount hmount (List.length_eq_zero_iff.1 (Nat.le_zero.1 hle))

theorem owner_eq (h : Pointed (s.mounts id)) {mount : Mount} (hmount : mount ∈ s.mounts id)
    (hupper : mount.point <+: path) (hlongest : ∀ other ∈ s.mounts id, other.point <+: path →
      other.point.length ≤ mount.point.length) (root : FileSystem) :
    s.owner id root path = mount := by
  rcases s.owner_mem id root path with hroot | hmem
  · exact absurd hupper (not_above_of_owner h hroot hmount)
  · have habove := s.owner_above id root path
    have hle := hlongest _ hmem habove
    have hge := length_le_owner hmount hupper root
    refine h.eq_of_point hmem hmount ?_
    exact (List.prefix_of_prefix_length_le habove hupper hle).eq_of_length (Nat.le_antisymm hle hge)

/-- By induction on the mounts: texts are compared as the paths are. -/
theorem longest?_text (h : ∀ mount ∈ mounts, mount.point.Canonical ∧ mount.point ≠ [])
    (hpath : path.Canonical) : longest? path.text mounts = innermost? path mounts := by
  induction mounts with
  | nil => rfl
  | cons mount mounts ih =>
    obtain ⟨hcanonical, hne⟩ := h mount List.mem_cons_self
    have hcovers : PathText.isWithin path.text mount.point.text = mount.covers path := by
      rw [Bool.eq_iff_iff, Path.isWithin_text hpath hcanonical, Mount.covers_iff]
      exact ⟨fun hupper => ⟨hne, hupper⟩, fun hupper => hupper.2⟩
    rw [longest?, innermost?, ih fun other hother => h other (List.mem_cons_of_mem _ hother),
      hcovers]
    cases hbest : innermost? path mounts with
    | none => rfl
    | some best =>
      obtain ⟨hmem, hbestcovers⟩ := innermost?_mem hbest
      obtain ⟨hbestne, hupper⟩ := Mount.covers_iff.1 hbestcovers
      refine if_congr (and_congr_right fun hmount => ?_) rfl rfl
      exact Path.size_lt_iff hupper (Mount.covers_iff.1 hmount).2 hbestne hne

theorem resolve_eq (h : Pointed (s.mounts id)) (root : FileSystem) (text : String) :
    s.resolve id root text =
      ⟨(s.owner id root (Path.ofText text)).fs,
        Path.text ((Path.ofText text).drop (s.owner id root (Path.ofText text)).point.length),
        (s.owner id root (Path.ofText text)).point.text⟩ := by
  have hpath : (Path.ofText text).Canonical := Path.canonical_ofText text
  have hlongest := longest?_text
    (fun mount hmount => ⟨h.canonical mount hmount, h.below mount hmount⟩) hpath
  have happend := s.owner_append id root (Path.ofText text)
  simp only [resolve, PathText.normalize_eq, hlongest]
  cases hbest : innermost? (Path.ofText text) (s.mounts id) with
  | none =>
    simp only [owner, hbest, Option.getD_none, List.length_nil, List.drop_zero]
    rfl
  | some mount =>
    simp only [owner, hbest, Option.getD_some] at happend ⊢
    rw [← happend] at hpath
    have hbelow := Path.below?_text hpath
    rw [happend] at hbelow
    rw [hbelow, Option.getD_some]

/-- A resolution is the one that a table's requests take: it leads back to the path that was asked
for, and nothing else that is mounted around this path is mounted as far inside. -/
structure Resolves (s : Files) (id : Nat) (root : FileSystem) (text : String) (r : Resolved) :
    Prop where
  served : s.route (.mounts id root) text =
    .mounted id (Path.ofText text) (Path.ofText r.point) (s.route r.fs r.inner)
  back : PathText.rebase r.point r.inner = PathText.normalize text
  innermost : (∃ mount ∈ s.mounts id, mount.fs = r.fs ∧ mount.point.text = r.point ∧
      mount.point <+: Path.ofText text ∧ ∀ other ∈ s.mounts id, other ≠ mount →
        other.point <+: Path.ofText text → other.point.length < mount.point.length) ∨
    r.fs = root ∧ r.point = "/" ∧ ∀ other ∈ s.mounts id, ¬ other.point <+: Path.ofText text

theorem resolves (h : Pointed (s.mounts id)) (root : FileSystem) (text : String) :
    s.Resolves id root text (s.resolve id root text) := by
  have hpath : (Path.ofText text).Canonical := Path.canonical_ofText text
  have hpoint := hpath.above (s.owner_above id root (Path.ofText text))
  have hinner := hpath.drop (s.owner id root (Path.ofText text)).point.length
  rw [resolve_eq h]
  refine ⟨?_, ?_, ?_⟩
  · rw [route, follow_mounts, Path.ofText_text hpoint, route, Path.ofText_text hinner]
  · rw [Path.rebase_text hpoint hinner, owner_append, PathText.normalize_eq]
  · have habove := s.owner_above id root (Path.ofText text)
    rcases s.owner_mem id root (Path.ofText text) with hroot | hmem
    · exact Or.inr ⟨congrArg Mount.fs hroot, congrArg (fun mount => mount.point.text) hroot,
        fun other hother => not_above_of_owner h hroot hother⟩
    · refine Or.inl ⟨_, hmem, rfl, rfl, habove, fun other hother hne hupper => ?_⟩
      have hle := length_le_owner hother hupper root
      refine Nat.lt_of_le_of_ne hle fun hlength => hne (h.eq_of_point hother hmem ?_)
      exact (List.prefix_of_prefix_length_le hupper habove hle).eq_of_length hlength

/-! Tables with the same mounts in different orders. -/

theorem owner_congr {other : Nat} (h : Pointed (s.mounts id)) (hother : Pointed (s.mounts other))
    (hsame : ∀ mount, mount ∈ s.mounts id ↔ mount ∈ s.mounts other) (root : FileSystem)
    (path : Path) : s.owner other root path = s.owner id root path := by
  rcases s.owner_mem id root path with hroot | hmem
  · rcases s.owner_mem other root path with hotherroot | hmem
    · rw [hroot, hotherroot]
    · exact absurd (s.owner_above other root path) (not_above_of_owner h hroot ((hsame _).2 hmem))
  · exact owner_eq hother ((hsame _).1 hmem) (s.owner_above id root path)
      (fun mount hmount hupper => length_le_owner ((hsame mount).2 hmount) hupper root) root

theorem nodup_newPoints (s : Files) (id : Nat) (path : Path) (listed : List String) :
    (s.newPoints id path listed).Nodup ∧ ∀ text ∈ s.newPoints id path listed, text ∉ listed := by
  unfold newPoints
  generalize (s.mounts id).filter (fun mount => mount.point ≠ [] ∧ mount.point.parent = path)
    = mounts
  suffices ∀ texts : List String, (texts.Nodup ∧ ∀ text ∈ texts, text ∉ listed) →
      (mounts.foldl (fun texts mount =>
        if (listed ++ texts).contains mount.point.text then texts
        else texts ++ [mount.point.text]) texts).Nodup ∧
      ∀ text ∈ mounts.foldl (fun texts mount =>
        if (listed ++ texts).contains mount.point.text then texts
        else texts ++ [mount.point.text]) texts, text ∉ listed from this [] (by simp)
  induction mounts with
  | nil => exact fun texts htexts => htexts
  | cons mount mounts ih =>
    intro texts htexts
    rw [List.foldl_cons]
    refine ih _ ?_
    split
    · exact htexts
    · rename_i hnew
      rw [List.contains_iff_mem, List.mem_append, not_or] at hnew
      refine ⟨List.nodup_append.2 ⟨htexts.1, by simp, ?_⟩, fun text htext => ?_⟩
      · rintro text htext _ hpoint rfl
        exact hnew.2 (List.mem_singleton.1 hpoint ▸ htext)
      · rcases List.mem_append.1 htext with htext | htext
        · exact htexts.2 text htext
        · exact List.mem_singleton.1 htext ▸ hnew.1

theorem newPoints_perm {other : Nat} (hsame : ∀ mount, mount ∈ s.mounts id ↔ mount ∈ s.mounts other)
    (path : Path) (listed : List String) :
    (s.newPoints id path listed).Perm (s.newPoints other path listed) := by
  obtain ⟨hnodup, hnew⟩ := s.nodup_newPoints id path listed
  obtain ⟨hothernodup, hothernew⟩ := s.nodup_newPoints other path listed
  have hiff : ∀ text, text ∈ listed ++ s.newPoints id path listed ↔
      text ∈ listed ++ s.newPoints other path listed := by
    intro text
    simp only [mem_newPoints, hsame]
  refine (List.perm_ext_iff_of_nodup hnodup hothernodup).2 fun text => ?_
  have htext := hiff text
  simp only [List.mem_append] at htext
  exact ⟨fun hmem => (htext.1 (Or.inr hmem)).resolve_left (hnew text hmem),
    fun hmem => (htext.2 (Or.inr hmem)).resolve_left (hothernew text hmem)⟩

theorem setMounts_mounts (s : Files) (id : Nat) : s.setMounts id (s.mounts id) = s := by
  have htables : s.tables.set id (s.mounts id) = s.tables := by
    by_cases hlt : id < s.tables.length
    · rw [Files.mounts, List.getElem?_eq_getElem hlt]
      exact List.set_getElem_self hlt
    · exact List.set_eq_of_length_le (Nat.le_of_not_lt hlt)
  rw [setMounts, htables]

theorem isMountPoint_congr {other : Nat}
    (hsame : ∀ mount, mount ∈ s.mounts id ↔ mount ∈ s.mounts other) (path : Path) :
    s.isMountPoint id path = s.isMountPoint other path := by
  rw [Bool.eq_iff_iff, isMountPoint_iff, isMountPoint_iff]
  simp only [hsame]

theorem hasNestedMount_congr {other : Nat}
    (hsame : ∀ mount, mount ∈ s.mounts id ↔ mount ∈ s.mounts other) (path : Path) :
    s.hasNestedMount id path = s.hasNestedMount other path := by
  rw [Bool.eq_iff_iff, hasNestedMount_iff, hasNestedMount_iff]
  simp only [hsame]

/-- Two tables over one root make the same of a request: they give the same reply and leave the same
files, or, where the request is about their own mounts, the same mounts up to order. -/
structure Interchangeable (s : Files) (id other : Nat) (root : FileSystem) (path : String)
    (request : Request) : Prop where
  reply : (s.serve (.mounts id root) path request).1 = (s.serve (.mounts other root) path request).1
  effect : request.mounts = false →
    (s.serve (.mounts id root) path request).2 = (s.serve (.mounts other root) path request).2
  mounted : request.mounts = true → ∃ mounts others : List Mount, mounts.Perm others ∧
    (s.serve (.mounts id root) path request).2 = s.setMounts id mounts ∧
    (s.serve (.mounts other root) path request).2 = s.setMounts other others

theorem follow_congr {other : Nat} (h : Pointed (s.mounts id)) (hother : Pointed (s.mounts other))
    (hsame : ∀ mount, mount ∈ s.mounts id ↔ mount ∈ s.mounts other) (root : FileSystem)
    (text : String) : ∃ path point rest,
      s.route (.mounts id root) text = .mounted id path point rest ∧
      s.route (.mounts other root) text = .mounted other path point rest := by
  refine ⟨_, _, _, follow_mounts s id root text _, ?_⟩
  rw [← owner_congr h hother hsame]
  exact follow_mounts s other root text _

theorem mounted_congr {other : Nat} (h : Pointed (s.mounts id)) (hother : Pointed (s.mounts other))
    (hsame : ∀ mount, mount ∈ s.mounts id ↔ mount ∈ s.mounts other) (path point : Path)
    (rest : Route) (c : Change) (hmounts : (Request.change c).mounts = true) :
    (s.change c (.mounted id path point rest)).1 =
        (s.change c (.mounted other path point rest)).1 ∧
      ∃ mounts others : List Mount, mounts.Perm others ∧
        (s.change c (.mounted id path point rest)).2 = s.setMounts id mounts ∧
        (s.change c (.mounted other path point rest)).2 = s.setMounts other others := by
  have hperm : (s.mounts id).Perm (s.mounts other) :=
    (List.perm_ext_iff_of_nodup h.nodup.of_map hother.nodup.of_map).2 hsame
  have hunchanged : ∃ mounts others : List Mount, mounts.Perm others ∧
      s = s.setMounts id mounts ∧ s = s.setMounts other others :=
    ⟨_, _, hperm, (s.setMounts_mounts id).symm, (s.setMounts_mounts other).symm⟩
  have hanswers : ∀ question, s.answers question (.mounted id path point rest) =
      s.answers question (.mounted other path point rest) := fun _ => rfl
  cases c with
  | mount fs =>
    simp only [Files.change, attach, isMountPoint_congr hsame, hanswers]
    split
    · exact ⟨rfl, hunchanged⟩
    · split
      · exact ⟨rfl, hunchanged⟩
      · split
        · exact ⟨rfl, hunchanged⟩
        · exact ⟨rfl, _, _, hperm.append_right _, rfl, rfl⟩
  | unmount =>
    simp only [Files.change, detach, isMountPoint_congr hsame, hasNestedMount_congr hsame]
    split
    · exact ⟨rfl, hunchanged⟩
    · split
      · exact ⟨rfl, hunchanged⟩
      · refine ⟨rfl, _, _, hperm.eraseP _ ?_, rfl, rfl⟩
        refine (List.pairwise_map.1 h.nodup).imp fun hne ha hb => hne ?_
        exact (of_decide_eq_true ha).trans (of_decide_eq_true hb).symm
  | _ => cases hmounts

/-- Everything else goes on to what is attached there; only a listing and the check before a
deletion look at the mounts again. -/
theorem relay_congr {other : Nat} (hsame : ∀ mount, mount ∈ s.mounts id ↔ mount ∈ s.mounts other)
    (path point : Path) (rest : Route) (request : Request) (hmounts : request.mounts = false) :
    s.serveAlong request (.mounted id path point rest) =
      s.serveAlong request (.mounted other path point rest) := by
  cases request with
  | ask question => rfl
  | read => rfl
  | executable => rfl
  | list kind =>
    cases kind with
    | file => rfl
    | directory =>
      have hsorted : ∀ listed, sortTexts (listed ++ s.newPoints id path listed) =
          sortTexts (listed ++ s.newPoints other path listed) := fun listed =>
        sortTexts_eq (((newPoints_perm hsame path listed).append_left listed).trans
          (List.mergeSort_perm _ _).symm) (pairwise_sortTexts _)
      simp only [serveAlong, Files.list, hsorted]
  | change c =>
    cases c with
    | mount fs => cases hmounts
    | unmount => cases hmounts
    | deleteDirectory =>
      simp only [serveAlong, Files.change, isMountPoint_congr hsame, hasNestedMount_congr hsame]
    | _ => rfl

theorem interchangeable {other : Nat} (h : Pointed (s.mounts id))
    (hother : Pointed (s.mounts other))
    (hsame : ∀ mount, mount ∈ s.mounts id ↔ mount ∈ s.mounts other) (root : FileSystem)
    (text : String) (request : Request) : s.Interchangeable id other root text request := by
  obtain ⟨path, point, rest, hroute, hotherroute⟩ := follow_congr h hother hsame root text
  cases hmounts : request.mounts with
  | false =>
    have hserve := relay_congr hsame path point rest request hmounts
    rw [← hroute, ← hotherroute] at hserve
    exact ⟨congrArg Prod.fst hserve, fun _ => congrArg Prod.snd hserve,
      fun htrue => absurd (hmounts.symm.trans htrue) Bool.false_ne_true⟩
  | true =>
    cases request with
    | change c =>
      obtain ⟨hreply, hmounted⟩ := mounted_congr h hother hsame path point rest c hmounts
      rw [← hroute, ← hotherroute] at hreply hmounted
      exact ⟨congrArg (Except.map fun _ => Reply.done) hreply,
        fun hfalse => absurd (hfalse.symm.trans hmounts) Bool.false_ne_true, fun _ => hmounted⟩
    | _ => cases hmounts

/-- In every state that programs can bring about, each table has its mounts at distinct canonical
points below the root, every path belongs to the innermost mount around it, and tables with the same
mounts over one root are interchangeable, in whatever order these were attached. -/
theorem routing (deeds : List Deed) (id : Nat) (root : FileSystem) :
    ((history deeds).mountPoints id).Nodup ∧
    (∀ point ∈ (history deeds).mountPoints id, PathText.normalize point = point ∧ point ≠ "/") ∧
    (∀ path, (history deeds).Resolves id root path ((history deeds).resolve id root path)) ∧
    ∀ other, (∀ mount, mount ∈ (history deeds).mounts id ↔ mount ∈ (history deeds).mounts other) →
      ∀ path request, (history deeds).Interchangeable id other root path request := by
  have hpointed := pointed_history deeds
  refine ⟨(hpointed id).nodup_texts, fun text htext => ?_, resolves (hpointed id) root,
    fun other hsame => interchangeable (hpointed id) (hpointed other) hsame root⟩
  obtain ⟨mount, hmount, rfl⟩ := List.mem_map.1 htext
  have hcanonical := (hpointed id).canonical mount hmount
  rw [PathText.normalize_eq, Path.ofText_text hcanonical]
  exact ⟨rfl, fun hroot => (hpointed id).below mount hmount (Path.text_injective hcanonical
    Path.canonical_nil hroot)⟩

/-- Two tables over one memory file system get the same two mounts, one inside the other: the first
table the outer one first, the second one the inner one first. -/
def crossed : List Deed :=
  [.makeMemory, .makeMemory, .makeMemory, .makeTable (.memory 0), .makeTable (.memory 0),
    .request (.memory 0) "/a/b" (.change .makeDirectory),
    .request (.memory 1) "/b" (.change .makeDirectory),
    .request (.mounts 0 (.memory 0)) "/a" (.change (.mount (.memory 1))),
    .request (.mounts 0 (.memory 0)) "a//b/." (.change (.mount (.memory 2))),
    .request (.mounts 1 (.memory 0)) "/a/b" (.change (.mount (.memory 2))),
    .request (.mounts 1 (.memory 0)) "/a/b/.." (.change (.mount (.memory 1)))]

theorem routing_crossed :
    (history crossed).mountPoints 0 = ["/a", "/a/b"] ∧
    (history crossed).mountPoints 1 = ["/a/b", "/a"] ∧
    (history crossed).resolve 1 (.memory 0) "/x/../a/b/c" = ⟨.memory 2, "/c", "/a/b"⟩ ∧
    (history crossed).Resolves 1 (.memory 0) "/x/../a/b/c"
      ((history crossed).resolve 1 (.memory 0) "/x/../a/b/c") ∧
    (history crossed).Interchangeable 0 1 (.memory 0) "/a" (.change .unmount) := by
  have houter : (history crossed).mounts 0 = [⟨["a"], .memory 1⟩, ⟨["a", "b"], .memory 2⟩] := by cbv
  have hinner : (history crossed).mounts 1 = [⟨["a", "b"], .memory 2⟩, ⟨["a"], .memory 1⟩] := by cbv
  have hsame : ∀ mount,
      mount ∈ (history crossed).mounts 0 ↔ mount ∈ (history crossed).mounts 1 := by
    simp [houter, hinner, or_comm]
  have hresolve : (history crossed).resolve 1 (.memory 0) "/x/../a/b/c" =
      ⟨.memory 2, "/c", "/a/b"⟩ := by
    rw [resolve_eq (pointed_history crossed 1)]
    cbv
  refine ⟨by cbv, by cbv, hresolve, (routing crossed 1 (.memory 0)).2.2.1 "/x/../a/b/c", ?_⟩
  exact (routing crossed 0 (.memory 0)).2.2.2 1 hsame "/a" (.change .unmount)

end Files

end ToyUnix
