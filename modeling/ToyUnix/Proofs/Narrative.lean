import ToyUnix.Proofs.Addressing

/-!
Two ways lead to a computer by its narrative id. The list of computers gives the first one that has
the id, the registry of devices has the file system of the last one. So both find something for the
same ids, and they agree just when one computer alone has the id. Main statement:
`narrative_agree_iff`.
-/

set_option autoImplicit false

namespace ToyUnix

namespace World

def built (configs : List ComputerConfig) : World :=
  configs.foldl (fun w config => (w.addComputer config).2) World.fresh

def withNarrativeId (w : World) (id : String) : List Computer :=
  w.computers.filter fun computer => computer.narrativeId = some id

theorem narrativeComputer?_eq (w : World) (id : String) :
    w.narrativeComputer? id = (w.withNarrativeId id).head? :=
  List.head?_filter.symm

def latest (computers : List Computer) : Assoc String FileSystem :=
  computers.foldl (fun named computer => computer.enter named) []

theorem latest_concat (computers : List Computer) (computer : Computer) :
    latest (computers ++ [computer]) = computer.enter (latest computers) := by
  simp [latest]

theorem get?_enter (computer : Computer) (named : Assoc String FileSystem) (id : String) :
    (computer.enter named).get? id =
      if computer.narrativeId = some id then some computer.fs else named.get? id := by
  unfold Computer.enter
  cases computer.narrativeId with
  | none => simp
  | some name => simp [Assoc.get?_set]

/-- By induction from the end of the list: the last computer of the id decides. -/
theorem get?_latest (computers : List Computer) (id : String) :
    (latest computers).get? id =
      (computers.filter fun computer => computer.narrativeId = some id).getLast?.map (·.fs) := by
  induction computers using List.reverseRecOn with
  | nil => rfl
  | append_singleton computers computer ih =>
    rw [latest_concat, get?_enter, List.filter_append, ih]
    by_cases hid : computer.narrativeId = some id <;> simp [hid]

/-- The computers hold tables of their own, and the registry has the latest of each id. -/
structure Listed (w : World) : Prop where
  filed : Files.Filed (latest w.computers) w.files w.registry (w.computers.map (·.fs))
  made : ∀ fs ∈ w.computers.map (·.fs), ∃ id root, fs = .mounts id root ∧ id < w.files.tables.length
  distinct : (w.computers.map (·.fs)).Nodup

theorem listed_fresh : Listed World.fresh :=
  ⟨filed_fresh, by simp [World.fresh], by simp [World.fresh]⟩

theorem Listed.add {w : World} (h : w.Listed) (config : ComputerConfig) :
    (w.addComputer config).2.Listed := by
  obtain ⟨result, w', hadd⟩ : ∃ result w', w.addComputer config = (result, w') := ⟨_, _, rfl⟩
  rw [hadd]
  cases result with
  | error fault =>
    obtain ⟨hcomputers, hregistry, hmoves⟩ := addComputer_error hadd
    refine ⟨?_, fun fs hfs => ?_, hcomputers ▸ h.distinct⟩
    · rw [hcomputers, hregistry]
      exact h.filed.moves hmoves
    · obtain ⟨id, root, heq, hlt⟩ := h.made fs (hcomputers ▸ hfs)
      exact ⟨id, root, heq, Nat.lt_of_lt_of_le hlt (hmoves.keeps w.registry).tables⟩
  | ok number =>
    obtain ⟨added, files, hcomputers, rfl, hregistry, hmoves, ⟨id, root, hfs, hnew, hmade⟩,
      hfiles⟩ := addComputer_ok hadd
    have hlast : w'.computers[w.computers.length]? = some added := by simp [hcomputers]
    have htables : w'.files.tables = files.tables := by
      rw [hfiles]
      cases added.narrativeId <;> rfl
    have hheld : w'.computers.map (·.fs) = w.computers.map (·.fs) ++ [.mounts id root] := by
      simp [hcomputers, hfs]
    refine ⟨?_, ?_, ?_⟩
    · rw [show latest w'.computers = added.enter (latest w.computers) by
        rw [hcomputers, latest_concat]]
      exact (filed_added h.filed hadd hlast).1
    · rw [hheld, htables]
      intro fs hmem
      rcases List.mem_append.1 hmem with hold | hself
      · obtain ⟨other, inner, heq, hlt⟩ := h.made fs hold
        exact ⟨other, inner, heq, by omega⟩
      · exact ⟨id, root, List.mem_singleton.1 hself, hmade⟩
    · rw [hheld]
      refine h.distinct.append (List.nodup_singleton _) fun fs hold hself => ?_
      obtain ⟨other, inner, heq, hlt⟩ := h.made fs hold
      rw [List.mem_singleton.1 hself, FileSystem.mounts.injEq] at heq
      omega

theorem listed_built (configs : List ComputerConfig) : (built configs).Listed := by
  induction configs using List.reverseRecOn with
  | nil => exact listed_fresh
  | append_singleton configs config ih =>
    rw [built, List.foldl_append]
    exact ih.add config

theorem Listed.lookup? {w : World} (h : w.Listed) (id : String) :
    w.files.lookup? w.registry id = (w.withNarrativeId id).getLast?.map (·.fs) := by
  have hlatest := get?_latest w.computers id
  rw [withNarrativeId]
  cases hlast : (w.computers.filter fun computer => computer.narrativeId = some id).getLast? with
  | none =>
    rw [hlast] at hlatest
    exact Files.lookup?_of_unregistered ((h.filed.latest id).trans hlatest)
  | some computer =>
    rw [hlast] at hlatest
    have hmem := (List.mem_filter.1 (List.mem_of_getLast? hlast)).1
    exact h.filed.lookup? hlatest (List.mem_map_of_mem hmem)

/-- After any additions, and for every id: a computer has the id just when the registry resolves it,
namely to the table of the last such computer. That is the table of the computer that the id finds
just when no other computer has the id. -/
theorem narrative_agree_iff (configs : List ComputerConfig) (id : String) :
    ((built configs).narrativeComputer? id).isSome =
        ((built configs).files.lookup? (built configs).registry id).isSome ∧
      (built configs).files.lookup? (built configs).registry id =
        ((built configs).withNarrativeId id).getLast?.map (·.fs) ∧
      ∀ computer, (built configs).narrativeComputer? id = some computer →
        ((built configs).files.lookup? (built configs).registry id = some computer.fs ↔
          (built configs).withNarrativeId id = [computer]) := by
  have hlisted := listed_built configs
  have hdistinct : (((built configs).withNarrativeId id).map (·.fs)).Nodup :=
    hlisted.distinct.sublist (List.filter_sublist.map _)
  rw [hlisted.lookup?, narrativeComputer?_eq]
  refine ⟨by cases (built configs).withNarrativeId id <;> simp, rfl, fun computer hfirst => ?_⟩
  obtain ⟨rest, hnamed⟩ := List.head?_eq_some_iff.1 hfirst
  rw [hnamed] at hdistinct ⊢
  rcases List.eq_nil_or_concat rest with rfl | ⟨before, last, rfl⟩
  · simp
  · -- The last computer is another one, so its table is, too.
    simp only [List.concat_eq_append, List.map_cons, List.map_append, List.nodup_cons] at hdistinct
    have hne : last.fs ≠ computer.fs := fun heq => hdistinct.1 (by simp [heq])
    simp [List.getLast?_cons, hne]

/-- The id finds the first of two computers that have it, the registry the table of the second. -/
theorem narrative_disagree :
    let w := built [node "alpha" "x" [], node "beta" "x" []]
    w.narrativeComputer? "x" = some (booted 0 "alpha" "x") ∧
      (booted 0 "alpha" "x").fs = Files.overlay 0 0 ∧
      w.files.lookup? w.registry "x" = some (Files.overlay 1 1) ∧
      ¬ ∀ (configs : List ComputerConfig) (id : String) (computer : Computer),
        (built configs).narrativeComputer? id = some computer →
          (built configs).files.lookup? (built configs).registry id = some computer.fs := by
  have hfirst : (built [node "alpha" "x" [], node "beta" "x" []]).narrativeComputer? "x" =
      some (booted 0 "alpha" "x") := by cbv
  have hregistered : (built [node "alpha" "x" [], node "beta" "x" []]).files.lookup?
      (built [node "alpha" "x" [], node "beta" "x" []]).registry "x" =
        some (Files.overlay 1 1) := by cbv
  refine ⟨hfirst, rfl, hregistered, fun hclaim => ?_⟩
  have hsame := hclaim _ "x" _ hfirst
  rw [hregistered] at hsame
  exact absurd hsame (by decide)

end World

end ToyUnix
