import Mathlib.Logic.Relation
import ToyUnix.Proofs.Process.Moment

/-!
The cascade of a kill. The children of a process are looked up when its kill begins, so what is dead
in the end is what was linked to it by live listed children at that time. A child that a listener
starts later, and whatever belongs to a table that has been given up, lives on. Without those two no
live process ever has a dead parent.
-/

set_option autoImplicit false

namespace ToyUnix

/-- The process that an errand is to kill. -/
def Errand.doomed? : Errand → Option Nat
  | .kill p _ | .finish p _ => some p
  | .react _ _ => none

namespace Processes

def parentOf? (s : Processes) (p : Nat) : Option Nat := s.all[p]?.bind (·.parent)

/-- Whether the table of a process has not been given up. -/
def Kept (s : Processes) (p : Nat) : Prop :=
  ∃ process table, s.all[p]? = some process ∧ s.tables[process.table]? = some table ∧
    table.present = true

/-- `q` is reached from `p` by way of listed children. -/
abbrev Linked (s : Processes) : Nat → Nat → Prop :=
  Relation.TransGen fun p q => q ∈ s.children p

/-- The next errand is run. -/
inductive Next : Processes × List Errand → Processes × List Errand → Prop
  | step (s : Processes) (errand : Errand) (rest : List Errand) :
      Next (s, errand :: rest) ((s.step errand).2, (s.step errand).1 ++ rest)

abbrev Later : Processes × List Errand → Processes × List Errand → Prop :=
  Relation.ReflTransGen Next

theorem later_run (s : Processes) (errands : List Errand) :
    Later (s, errands) (s.run errands, []) := by
  induction s, errands using Processes.run.induct with
  | case1 s =>
    rw [run_nil]
  | case2 s errand rest next ih =>
    rw [run_cons]
    exact Relation.ReflTransGen.head (Next.step s errand rest) ih

/-! What a single step leaves as it was. -/

theorem forkAs_all {s s' : Processes} {p child : Nat} {user : User}
    (h : s.forkAs p user = (.ok child, s')) : ∃ born, s'.all = s.all ++ [born] := by
  obtain ⟨_, _, born, _, _, _, _, _, _, _, _, hs'⟩ := forkAs_ok h
  exact ⟨born, by rw [hs']⟩

theorem isAlive_congr {s s' : Processes}
    (h : s'.all.map Process.identity = s.all.map Process.identity) (q : Nat) :
    s'.isAlive q = s.isAlive q := by
  have hat := congrArg (fun l : List _ => (l[q]?).any (·.2)) h
  simpa [isAlive, Process.identity, Option.any_map, Function.comp_def] using hat

theorem parentOf?_congr {s s' : Processes}
    (h : s'.all.map Process.lineage = s.all.map Process.lineage) (q : Nat) :
    s'.parentOf? q = s.parentOf? q := by
  have hat := congrArg (fun l : List _ => (l[q]?).bind (·.2.2.1)) h
  simpa [parentOf?, Process.lineage, Option.bind_map, Function.comp_def] using hat

theorem isAlive_update (s : Processes) (p : Nat) {f : Process → Process}
    (hf : ∀ process, (f process).identity = process.identity) (q : Nat) :
    (s.update p f).isAlive q = s.isAlive q := by
  unfold Processes.update
  split
  · rfl
  · rename_i process hp
    exact isAlive_congr (map_set_of_eq hp (hf process)) q

theorem isAlive_append {s s' : Processes} {born : Process} (hall : s'.all = s.all ++ [born])
    {q : Nat} : s'.isAlive q = true ↔ s.isAlive q = true ∨ q = s.all.length ∧ born.alive = true := by
  simp only [isAlive_iff, hall, getElem?_snoc]
  constructor
  · rintro ⟨process, hold | ⟨hq, rfl⟩, halive⟩
    · exact Or.inl ⟨process, hold, halive⟩
    · exact Or.inr ⟨hq, halive⟩
  · rintro (⟨process, hold, halive⟩ | ⟨hq, halive⟩)
    · exact ⟨process, Or.inl hold, halive⟩
    · exact ⟨born, Or.inr ⟨hq, rfl⟩, halive⟩

theorem parentOf?_append {s s' : Processes} {born : Process} (hall : s'.all = s.all ++ [born])
    {q : Nat} (hq : q < s.all.length) : s'.parentOf? q = s.parentOf? q := by
  rw [parentOf?, parentOf?, hall, List.getElem?_append_left hq]

theorem isAlive_bury {s : Processes} {process : Process} {p q : Nat} {code : Int} :
    (s.bury process p code).isAlive q = true ↔ q ≠ p ∧ s.isAlive q = true := by
  simp only [isAlive_iff, bury_all]
  by_cases hq : p = q
  · subst hq
    simp [List.getElem?_set]
  · simp [hq, Ne.symm hq]

theorem step_length (s : Processes) (errand : Errand) :
    s.all.length ≤ (s.step errand).2.all.length := by
  rcases step_cases s errand with
    ⟨-, hall⟩ | ⟨p, user, child, -, hfork⟩ | ⟨p, code, process, -, -, -, hbury⟩
  · have := congrArg List.length hall
    simp only [List.length_map] at this
    omega
  · obtain ⟨born, hall⟩ := forkAs_all hfork
    simp [hall]
  · simp [hbury, bury_all]

theorem step_isAlive {s : Processes} {errand : Errand} {q : Nat} (hq : q < s.all.length)
    (h : (s.step errand).2.isAlive q = true) : s.isAlive q = true := by
  rcases step_cases s errand with
    ⟨-, hall⟩ | ⟨p, user, child, -, hfork⟩ | ⟨p, code, process, -, -, -, hbury⟩
  · rwa [← isAlive_congr hall]
  · obtain ⟨born, hall⟩ := forkAs_all hfork
    rcases (isAlive_append hall).1 h with hold | ⟨heq, -⟩
    · exact hold
    · omega
  · rw [hbury] at h
    exact (isAlive_bury.1 h).2

theorem step_dies {s : Processes} {errand : Errand} {q : Nat} (h : s.isAlive q = true)
    (hdead : ¬ (s.step errand).2.isAlive q = true) : ∃ code, errand = .finish q code := by
  rcases step_cases s errand with
    ⟨-, hall⟩ | ⟨p, user, child, -, hfork⟩ | ⟨p, code, process, heq, -, -, hbury⟩
  · rw [isAlive_congr hall] at hdead
    exact absurd h hdead
  · obtain ⟨born, hall⟩ := forkAs_all hfork
    exact absurd ((isAlive_append hall).2 (Or.inl h)) hdead
  · by_cases hq : q = p
    · exact ⟨code, hq ▸ heq⟩
    · rw [hbury] at hdead
      exact absurd (isAlive_bury.2 ⟨hq, h⟩) hdead

theorem step_parentOf? {s : Processes} {errand : Errand} {q : Nat} (hq : q < s.all.length) :
    (s.step errand).2.parentOf? q = s.parentOf? q := by
  have hlineage : ∀ {s' : Processes}, s'.all.map Process.identity = s.all.map Process.identity →
      s'.all.map Process.lineage = s.all.map Process.lineage := by
    intro s' hall
    have := congrArg (List.map Prod.fst) hall
    simpa only [List.map_map, Function.comp_def, Process.identity] using this
  rcases step_cases s errand with
    ⟨-, hall⟩ | ⟨p, user, child, -, hfork⟩ | ⟨p, code, process, -, hp, -, hbury⟩
  · exact parentOf?_congr (hlineage hall) q
  · obtain ⟨born, hall⟩ := forkAs_all hfork
    exact parentOf?_append hall hq
  · refine parentOf?_congr ?_ q
    rw [hbury, bury_all]
    exact map_set_of_eq hp rfl

theorem Kept.congr {s s' : Processes} {q : Nat} (h : s.Kept q) (htables : s'.tables = s.tables)
    (hall : s'.all.map Process.identity = s.all.map Process.identity) : s'.Kept q := by
  obtain ⟨process, table, hq, ht, hpresent⟩ := h
  obtain ⟨after, hafter, hid⟩ := getElem?_of_map_eq hall.symm hq
  simp only [Process.identity, Process.lineage, Prod.mk.injEq] at hid
  exact ⟨after, table, hafter, by rw [htables, hid.1.2.2.2, ht], hpresent⟩

theorem Kept.forkAs {s s' : Processes} {p q child : Nat} {user : User} (h : s.Kept q)
    (hfork : s.forkAs p user = (.ok child, s')) : s'.Kept q := by
  obtain ⟨process, table, hq, ht, hpresent⟩ := h
  obtain ⟨parent, other, born, -, -, -, hother, -, -, -, -, hs'⟩ := forkAs_ok hfork
  have hget : s'.all[q]? = some process := by
    rw [hs']
    exact getElem?_snoc.2 (Or.inl hq)
  by_cases hsame : parent.table = process.table
  · refine ⟨process, other.enroll s.all.length, hget, ?_, ?_⟩
    · rw [hs', hsame, List.getElem?_set_self (List.getElem?_eq_some_iff.1 ht).1]
    · rw [ProcessTable.enroll_present, hother]
  · exact ⟨process, table, hget, by rw [hs', List.getElem?_set_ne hsame, ht], hpresent⟩

theorem Kept.bury {s : Processes} {p q : Nat} {buried : Process} (h : s.Kept q)
    (hp : s.all[p]? = some buried) (code : Int) : (s.bury buried p code).Kept q := by
  obtain ⟨process, table, hq, ht, hpresent⟩ := h
  have hmap : (s.bury buried p code).all.map Process.lineage = s.all.map Process.lineage := by
    rw [bury_all]
    exact map_set_of_eq hp rfl
  obtain ⟨after, hafter, hid⟩ := getElem?_of_map_eq hmap.symm hq
  simp only [Process.lineage, Prod.mk.injEq] at hid
  by_cases hsame : buried.table = process.table
  · refine ⟨after, table.release buried.pid, hafter, ?_, hpresent⟩
    rw [bury_tables, hid.2.2.2, if_pos hsame, ht, Option.map_some, if_pos hpresent]
  · exact ⟨after, table, hafter, by rw [bury_tables, hid.2.2.2, if_neg hsame, ht], hpresent⟩

theorem Kept.step {s : Processes} {q : Nat} (h : s.Kept q) (errand : Errand) :
    (s.step errand).2.Kept q := by
  rcases step_cases s errand with
    ⟨htables, hall⟩ | ⟨p, user, child, -, hfork⟩ | ⟨p, code, process, -, hp, -, hbury⟩
  · exact h.congr htables hall
  · exact h.forkAs hfork
  · rw [hbury]
    exact h.bury hp code

/-- A kill that has not been carried out yet stays on the stack. -/
theorem step_doomed {s : Processes} {errand : Errand} {q : Nat} (hdoomed : errand.doomed? = some q)
    (hq : q < s.all.length) (h : (s.step errand).2.isAlive q = true) :
    ∃ e ∈ (s.step errand).1, e.doomed? = some q := by
  have halive := step_isAlive hq h
  cases errand with
  | kill p code =>
    simp only [Errand.doomed?, Option.some.injEq] at hdoomed
    subst hdoomed
    simp [Processes.step, halive, Errand.doomed?]
  | finish p code =>
    simp only [Errand.doomed?, Option.some.injEq] at hdoomed
    subst hdoomed
    obtain ⟨process, hp, hlive⟩ := isAlive_iff.1 halive
    simp only [Processes.step, hp, hlive, if_true] at h
    exact absurd rfl (isAlive_bury.1 h).1
  | react p reaction => simp [Errand.doomed?] at hdoomed

/-- A process that is left to be finished stands right below the kills of its children. -/
theorem step_finish {s : Processes} {errand : Errand} {above below : List Errand} {p : Nat}
    {code : Int} (h : (s.step errand).1 = above ++ .finish p code :: below) :
    above = (s.children p).map (.kill · code) := by
  have hmem : Errand.finish p code ∈ (s.step errand).1 := by simp [h]
  cases errand with
  | kill r c =>
    simp only [Processes.step] at h hmem
    split at h
    · rename_i halive
      simp only [halive, if_true, List.mem_append, List.mem_map, reduceCtorEq, and_false,
        exists_false, List.mem_singleton, Errand.finish.injEq, false_or] at hmem
      obtain ⟨rfl, rfl⟩ := hmem
      -- `r` itself is last, so nothing but the kills of its children can be before it.
      rcases List.append_eq_append_iff.1 h with ⟨mid, rfl, hmid⟩ | ⟨mid, hkills, hmid⟩
      · cases mid with
        | nil => rw [List.append_nil]
        | cons first more => simp at hmid
      · cases mid with
        | nil => rw [hkills, List.append_nil]
        | cons first more =>
          have hfirst : first ∈ (s.children p).map (Errand.kill · code) := by simp [hkills]
          obtain ⟨c, -, rfl⟩ := List.mem_map.1 hfirst
          simp at hmid
    · simp at h
  | finish r c =>
    simp only [Processes.step] at hmem
    split at hmem
    · simp at hmem
    · split at hmem <;> simp at hmem
  | react r reaction =>
    cases reaction with
    | listen target reaction next =>
      simp only [Processes.step] at hmem
      split at hmem
      · simp at hmem
      · split at hmem <;> simp at hmem
    | _ => simp [Processes.step] at hmem

/-! Children. -/

theorem mem_children_iff {s : Processes} {p q : Nat} :
    q ∈ s.children p ↔ p < q ∧ s.parentOf? q = some p ∧ s.isListed q = true := by
  unfold children
  rw [(List.mergeSort_perm _ _).mem_iff]
  simp only [List.mem_map, List.mem_filter, List.mem_zipIdx_iff_getElem?, Bool.and_eq_true,
    decide_eq_true_eq, parentOf?, Option.bind_eq_some_iff]
  constructor
  · rintro ⟨entry, ⟨hget, ⟨hlt, hparent⟩, hlisted⟩, rfl⟩
    exact ⟨hlt, ⟨_, hget, hparent⟩, hlisted⟩
  · rintro ⟨hlt, ⟨process, hget, hparent⟩, hlisted⟩
    exact ⟨(process, q), ⟨hget, ⟨hlt, hparent⟩, hlisted⟩, rfl⟩

theorem Sound.isListed_iff {limit : Nat} {s : Processes} (h : s.Sound limit) {q : Nat} :
    s.isListed q = true ↔ s.Kept q ∧ s.isAlive q = true := by
  unfold isListed
  split
  · rename_i hnone
    simp [Kept, hnone]
  · rename_i process hq
    simp only [tableOf?, Option.any_filter, Option.any_eq_true, Bool.and_eq_true,
      decide_eq_true_eq, Kept, hq, isAlive_iff, Option.some.injEq, exists_and_left, exists_eq_left']
    constructor
    · rintro ⟨table, ht, hpresent, hfind⟩
      obtain ⟨other, hother, -, halive, -⟩ := (h.tallies _ _ ht hpresent).find?.1 hfind
      rw [hq, Option.some.injEq] at hother
      exact ⟨⟨table, ht, hpresent⟩, hother ▸ halive⟩
    · rintro ⟨⟨table, ht, hpresent⟩, halive⟩
      exact ⟨table, ht, hpresent,
        (h.tallies _ _ ht hpresent).find?.2 ⟨process, hq, rfl, halive, rfl⟩⟩

/-! What a cascade keeps up among the processes that it is to reach. -/

structure Guarded (reached : Nat → Prop) (s : Processes) (errands : List Errand) : Prop where
  upheld : ∀ q r, reached q → s.isAlive q = true → s.parentOf? q = some r → s.isAlive r = true
  kept : ∀ q, reached q → s.Kept q
  /-- The children of a process that is left to be finished have their own kills above. -/
  covered : ∀ above p code below, errands = above ++ .finish p code :: below → ∀ q, reached q →
    s.isAlive q = true → s.parentOf? q = some p → ∃ e ∈ above, e.doomed? = some q

theorem Guarded.step {reached : Nat → Prop} {limit : Nat} {s : Processes} {errand : Errand}
    {rest : List Errand} (h : s.Guarded reached (errand :: rest)) (hsound : s.Sound limit)
    (hold : ∀ q, reached q → q < s.all.length) :
    (s.step errand).2.Guarded reached ((s.step errand).1 ++ rest) := by
  refine ⟨fun q r hq halive hparent => ?_, fun q hq => (h.kept q hq).step errand,
    fun above p code below hsplit q hq halive hparent => ?_⟩
  · have hbefore := step_isAlive (hold q hq) halive
    rw [step_parentOf? (hold q hq)] at hparent
    -- A parent only dies on top of the stack, where no kill of its child can be above it.
    by_contra hdead
    obtain ⟨code, rfl⟩ := step_dies (h.upheld q r hq hbefore hparent) hdead
    obtain ⟨e, he, -⟩ := h.covered [] r code rest rfl q hq hbefore hparent
    simp at he
  · have hbefore := step_isAlive (hold q hq) halive
    rw [step_parentOf? (hold q hq)] at hparent
    have hrest : ∀ mid, above = (s.step errand).1 ++ mid → rest = mid ++ .finish p code :: below →
        ∃ e ∈ above, e.doomed? = some q := by
      rintro mid rfl rfl
      obtain ⟨e, he, hdoomed⟩ := h.covered (errand :: mid) p code below rfl q hq hbefore hparent
      rcases List.mem_cons.1 he with rfl | he
      · obtain ⟨next, hnext, hagain⟩ := step_doomed hdoomed (hold q hq) halive
        exact ⟨next, List.mem_append_left _ hnext, hagain⟩
      · exact ⟨e, List.mem_append_right _ he, hdoomed⟩
    -- What is to be finished stood in the rest already or was put above it by this very step.
    rcases List.append_eq_append_iff.1 hsplit with ⟨mid, habove, hmid⟩ | ⟨mid, hnew, hmid⟩
    · exact hrest mid habove hmid
    · cases mid with
      | nil => exact hrest [] (by simpa using hnew.symm) (by simpa using hmid.symm)
      | cons first more =>
        obtain ⟨rfl, -⟩ := List.cons.inj hmid
        obtain ⟨process, hget, hlineage⟩ := Option.bind_eq_some_iff.1 hparent
        have hchild : q ∈ s.children p := mem_children_iff.2
          ⟨hsound.parent_lt q p process hget hlineage, hparent,
            hsound.isListed_iff.2 ⟨h.kept q hq, hbefore⟩⟩
        rw [step_finish hnew]
        exact ⟨.kill q code, List.mem_map_of_mem hchild, rfl⟩

/-! From the call of a kill on. -/

theorem Sound.mono {limit limit' : Nat} {s : Processes} (h : s.Sound limit)
    (hle : limit ≤ limit') : s.Sound limit' :=
  ⟨h.toRooted, h.tallies, h.next_pos, fun t table ht =>
    Nat.le_trans (h.next_le t table ht) (Nat.succ_le_succ hle)⟩

theorem exists_within (s : Processes) : ∃ limit, s.Within limit := by
  unfold Within
  induction s.tables with
  | nil => exact ⟨0, by simp⟩
  | cons first rest ih =>
    obtain ⟨limit, hrest⟩ := ih
    refine ⟨max first.live.length limit, fun table htable hpresent => ?_⟩
    rcases List.mem_cons.1 htable with rfl | htable
    · exact Nat.le_max_left _ _
    · exact Nat.le_trans (hrest table htable hpresent) (Nat.le_max_right _ _)

theorem Sound.exists_step {limit : Nat} {s : Processes} (h : s.Sound limit) (errand : Errand) :
    ∃ limit', (s.step errand).2.Sound limit' := by
  obtain ⟨bound, hbound⟩ := exists_within (s.step errand).2
  exact ⟨max limit bound, (h.mono (Nat.le_max_left _ _)).step errand fun table htable hpresent =>
    Nat.le_trans (hbound table htable hpresent) (Nat.le_max_right _ _)⟩

/-- A time after the kill of `p` was called in `origin`. -/
structure Cascading (origin : Processes) (p : Nat) (s : Processes) (errands : List Errand) :
    Prop where
  sound : ∃ limit, s.Sound limit
  length_le : origin.all.length ≤ s.all.length
  parents : ∀ q < origin.all.length, s.parentOf? q = origin.parentOf? q
  living : ∀ q < origin.all.length, s.isAlive q = true → origin.isAlive q = true
  guarded : s.Guarded (origin.Linked p) errands
  doomed : s.isAlive p = true → ∃ e ∈ errands, e.doomed? = some p

theorem Linked.last {s : Processes} {p q : Nat} (h : s.Linked p q) :
    ∃ r, q ∈ s.children r ∧ (r = p ∨ s.Linked p r) := by
  cases h with
  | single hchild => exact ⟨p, hchild, Or.inl rfl⟩
  | tail hlinked hchild => exact ⟨_, hchild, Or.inr hlinked⟩

theorem Linked.lt {s : Processes} {p q : Nat} (h : s.Linked p q) : q < s.all.length := by
  obtain ⟨r, hchild, -⟩ := h.last
  exact (mem_children hchild).2

theorem Sound.cascading {limit : Nat} {s : Processes} (h : s.Sound limit) {p : Nat}
    (hp : s.isAlive p = true) (code : Int) : Cascading s p s [.kill p code] := by
  refine ⟨⟨limit, h⟩, Nat.le_refl _, fun _ _ => rfl, fun _ _ => id,
    ⟨fun q r hq _ hparent => ?_, fun q hq => ?_, fun above r other below hsplit => ?_⟩,
    fun _ => ⟨.kill p code, by simp, rfl⟩⟩
  · obtain ⟨parent, hchild, hlast⟩ := hq.last
    rw [(mem_children_iff.1 hchild).2.1, Option.some.injEq] at hparent
    subst hparent
    rcases hlast with rfl | hlinked
    · exact hp
    · obtain ⟨_, hup, -⟩ := hlinked.last
      exact (h.isListed_iff.1 (mem_children_iff.1 hup).2.2).2
  · obtain ⟨parent, hchild, -⟩ := hq.last
    exact (h.isListed_iff.1 (mem_children_iff.1 hchild).2.2).1
  · cases above <;> simp at hsplit

theorem Cascading.step {origin s : Processes} {p : Nat} {errand : Errand} {rest : List Errand}
    (h : Cascading origin p s (errand :: rest)) (hp : p < origin.all.length) :
    Cascading origin p (s.step errand).2 ((s.step errand).1 ++ rest) := by
  obtain ⟨limit, hsound⟩ := h.sound
  have hold : ∀ q, q < origin.all.length → q < s.all.length :=
    fun q hq => Nat.lt_of_lt_of_le hq h.length_le
  refine ⟨hsound.exists_step errand, Nat.le_trans h.length_le (step_length s errand),
    fun q hq => (step_parentOf? (hold q hq)).trans (h.parents q hq),
    fun q hq halive => h.living q hq (step_isAlive (hold q hq) halive),
    h.guarded.step hsound fun q hq => hold q hq.lt, fun halive => ?_⟩
  obtain ⟨e, he, hdoomed⟩ := h.doomed (step_isAlive (hold p hp) halive)
  rcases List.mem_cons.1 he with rfl | he
  · obtain ⟨next, hnext, hagain⟩ := step_doomed hdoomed (hold p hp) halive
    exact ⟨next, List.mem_append_left _ hnext, hagain⟩
  · exact ⟨e, List.mem_append_right _ he, hdoomed⟩

theorem Cascading.later {origin : Processes} {p : Nat} {a b : Processes × List Errand}
    (h : Cascading origin p a.1 a.2) (hp : p < origin.all.length) (hlater : Later a b) :
    Cascading origin p b.1 b.2 := by
  induction hlater with
  | refl => exact h
  | tail _ hnext ih =>
    cases hnext with
    | step s errand rest => exact ih.step hp

theorem Cascading.linked_dead {origin s : Processes} {p q : Nat} {errands : List Errand}
    (h : Cascading origin p s errands) (hdead : s.isAlive p = false)
    (hq : origin.Linked p q) : s.isAlive q = false := by
  have hdown : ∀ {r c : Nat}, origin.Linked p c → c ∈ origin.children r → s.isAlive r = false →
      s.isAlive c = false := by
    intro r c hc hchild hr
    have hparent := (h.parents c hc.lt).trans (mem_children_iff.1 hchild).2.1
    by_contra halive
    rw [h.guarded.upheld c r hc (by simpa using halive) hparent] at hr
    cases hr
  -- Down the links as they were when the kill was called.
  induction hq with
  | single hchild => exact hdown (.single hchild) hchild hdead
  | tail hlinked hchild ih => exact hdown (.tail hlinked hchild) hchild ih

theorem Cascading.dead_of_nil {origin s : Processes} {p : Nat} (h : Cascading origin p s []) :
    s.isAlive p = false := by
  by_contra halive
  obtain ⟨e, he, -⟩ := h.doomed (by simpa using halive)
  simp at he

/-! Histories without reactions that fork and without tables that are given up. -/

def Call.Quiet : Call → Prop
  | .onDeath _ reaction => reaction.forks = false
  | .dropTable _ => False
  | _ => True

/-- Every live process has a live parent, save in the middle of a kill, and that stays so. -/
structure Calm (s : Processes) (errands : List Errand) : Prop where
  guarded : s.Guarded (· < s.all.length) errands
  peaceful : ∀ process ∈ s.all, ∀ reaction ∈ process.reactions, reaction.forks = false
  errands : ∀ e ∈ errands, e.forks = false

theorem length_step {s : Processes} {errand : Errand} (h : errand.forks = false) :
    (s.step errand).2.all.length = s.all.length := by
  rcases step_cases s errand with
    ⟨-, hall⟩ | ⟨p, user, child, hforks, -⟩ | ⟨p, code, process, -, -, -, hbury⟩
  · simpa using congrArg List.length hall
  · rw [h] at hforks
    cases hforks
  · simp [hbury, bury_all]

theorem step_peaceful {s : Processes} {errand : Errand} (h : errand.forks = false)
    (hpeaceful : ∀ process ∈ s.all, ∀ reaction ∈ process.reactions, reaction.forks = false) :
    (∀ process ∈ (s.step errand).2.all, ∀ reaction ∈ process.reactions, reaction.forks = false) ∧
    ∀ e ∈ (s.step errand).1, e.forks = false := by
  cases errand with
  | kill p code =>
    simp only [Processes.step]
    split
    · refine ⟨hpeaceful, fun e he => ?_⟩
      simp only [List.mem_append, List.mem_map, List.mem_singleton] at he
      rcases he with ⟨c, -, rfl⟩ | rfl <;> rfl
    · exact ⟨hpeaceful, by simp⟩
  | finish p code =>
    simp only [Processes.step]
    split
    · exact ⟨hpeaceful, by simp⟩
    · rename_i process hp
      split
      · refine ⟨fun other hother => ?_, fun e he => ?_⟩
        · rw [bury_all] at hother
          rcases List.mem_or_eq_of_mem_set hother with hother | rfl
          · exact hpeaceful other hother
          · simp
        · obtain ⟨reaction, hreaction, rfl⟩ := List.mem_map.1 he
          exact hpeaceful process (List.mem_of_getElem? hp) reaction hreaction
      · exact ⟨hpeaceful, by simp⟩
  | react p reaction =>
    cases reaction with
    | done => exact ⟨hpeaceful, by simp [Processes.step]⟩
    | note tag next =>
      exact ⟨hpeaceful, by simpa [Processes.step, Errand.forks, Reaction.forks] using h⟩
    | fork parent next => cases h
    | forkAs parent user next => cases h
    | kill target code next =>
      exact ⟨hpeaceful, by simpa [Processes.step, Errand.forks, Reaction.forks] using h⟩
    | listen target reaction next =>
      obtain ⟨hreaction, hnext⟩ : reaction.forks = false ∧ next.forks = false := by
        simpa [Errand.forks, Reaction.forks] using h
      simp only [Processes.step]
      split
      · exact ⟨hpeaceful, by simpa [Errand.forks] using hnext⟩
      · rename_i process hp
        split
        · refine ⟨fun other hother => ?_, by simpa [Errand.forks] using hnext⟩
          rcases List.mem_or_eq_of_mem_set hother with hother | rfl
          · exact hpeaceful other hother
          · intro added hadded
            rcases List.mem_append.1 hadded with hadded | hadded
            · exact hpeaceful process (List.mem_of_getElem? hp) added hadded
            · rwa [List.mem_singleton.1 hadded]
        · exact ⟨hpeaceful, by simpa [Errand.forks] using ⟨hreaction, hnext⟩⟩

theorem Calm.step {limit : Nat} {s : Processes} {errand : Errand} {rest : List Errand}
    (h : s.Calm (errand :: rest)) (hsound : s.Sound limit) :
    (s.step errand).2.Calm ((s.step errand).1 ++ rest) := by
  have hquiet : errand.forks = false := h.errands errand List.mem_cons_self
  have hguarded := h.guarded.step hsound fun _ hq => hq
  rw [← length_step hquiet] at hguarded
  obtain ⟨hpeaceful, hnew⟩ := step_peaceful hquiet h.peaceful
  exact ⟨hguarded, hpeaceful, fun e he => (List.mem_append.1 he).elim (hnew e) fun hrest =>
    h.errands e (List.mem_cons_of_mem _ hrest)⟩

theorem Calm.update {s : Processes} (h : s.Calm []) (p : Nat) {f : Process → Process}
    (hidentity : ∀ process, (f process).identity = process.identity)
    (hreactions : ∀ process, (f process).reactions = process.reactions) :
    (s.update p f).Calm [] := by
  unfold Processes.update
  split
  · exact h
  · rename_i process hp
    have hall := map_set_of_eq hp (hidentity process)
    have hlineage := map_set_of_eq (f := Process.lineage) hp
      (congrArg Prod.fst (hidentity process))
    refine ⟨⟨fun q r hq halive hparent => ?_, fun q hq => ?_, by simp⟩, fun other hother => ?_,
      by simp⟩
    · rw [isAlive_congr hall] at halive ⊢
      rw [parentOf?_congr hlineage] at hparent
      exact h.guarded.upheld q r (by simpa using hq) halive hparent
    · exact (h.guarded.kept q (by simpa using hq)).congr rfl hall
    · rcases List.mem_or_eq_of_mem_set hother with hother | rfl
      · exact h.peaceful other hother
      · rw [hreactions]
        exact h.peaceful process (List.mem_of_getElem? hp)

theorem Calm.append {s s' : Processes} {born : Process} (h : s.Calm [])
    (hall : s'.all = s.all ++ [born]) (hborn : born.reactions = [])
    (hparent : ∀ r, born.parent = some r → s.isAlive r = true)
    (hkept : ∀ q, s.Kept q → s'.Kept q) (hnew : s'.Kept s.all.length) : s'.Calm [] := by
  have hcases : ∀ {q : Nat}, q < s'.all.length → q < s.all.length ∨ q = s.all.length := by
    intro q hq
    rw [hall, List.length_append, List.length_singleton] at hq
    omega
  refine ⟨⟨fun q r hq halive hup => (isAlive_append hall).2 (Or.inl ?_), fun q hq => ?_, by simp⟩,
    fun process hprocess => ?_, by simp⟩
  · rcases hcases hq with hlt | rfl
    · rw [parentOf?_append hall hlt] at hup
      refine h.guarded.upheld q r hlt ?_ hup
      rcases (isAlive_append hall).1 halive with hold | ⟨heq, -⟩
      · exact hold
      · omega
    · refine hparent r ?_
      simpa [parentOf?, hall] using hup
  · rcases hcases hq with hlt | rfl
    · exact hkept q (h.guarded.kept q hlt)
    · exact hnew
  · rw [hall] at hprocess
    rcases List.mem_append.1 hprocess with hprocess | hprocess
    · exact h.peaceful process hprocess
    · rw [List.mem_singleton.1 hprocess, hborn]
      simp

theorem Calm.forkAs {s : Processes} (h : s.Calm []) (p : Nat) (user : User) :
    (s.forkAs p user).2.Calm [] := by
  cases hfork : s.forkAs p user with
  | mk outcome s' =>
    cases outcome with
    | error fault => exact forkAs_error hfork ▸ h
    | ok child =>
      obtain ⟨process, table, born, hp, ht, halive, hpresent, -, hid, hreactions, -, hs'⟩ :=
        forkAs_ok hfork
      simp only [Process.identity, Process.lineage, Prod.mk.injEq] at hid
      obtain ⟨⟨-, -, hparent, htable⟩, -⟩ := hid
      have hall : s'.all = s.all ++ [born] := by rw [hs']
      refine h.append hall hreactions (fun r hr => ?_) (fun q hq => hq.forkAs hfork)
        ⟨born, table.enroll s.all.length, by rw [hall, List.getElem?_concat_length], ?_, ?_⟩
      · rw [hparent, Option.some.injEq] at hr
        exact isAlive_iff.2 ⟨process, hr ▸ hp, halive⟩
      · rw [hs', htable, List.getElem?_set_self (List.getElem?_eq_some_iff.1 ht).1]
      · rw [ProcessTable.enroll_present, hpresent]

theorem Calm.boot {s : Processes} (h : s.Calm []) (computer : Nat) (users : List User) :
    (s.boot computer users).2.Calm [] := by
  cases hboot : s.boot computer users with
  | mk outcome s' =>
    cases outcome with
    | error fault => exact boot_error hboot ▸ h
    | ok t =>
      obtain ⟨root, init, table, -, rfl, hid, hreactions, htable, hs'⟩ := boot_ok hboot
      simp only [Process.identity, Process.lineage, Prod.mk.injEq] at hid
      obtain ⟨⟨-, -, hparent, hinit⟩, -⟩ := hid
      have hall : s'.all = s.all ++ [init] := by rw [hs']
      have htables : s'.tables = s.tables ++ [table] := by rw [hs']
      refine h.append hall hreactions (by simp [hparent]) (fun q hq => ?_)
        ⟨init, table, by rw [hall, List.getElem?_concat_length], ?_, by rw [htable]⟩
      · obtain ⟨process, old, hget, hold, hpresent⟩ := hq
        exact ⟨process, old, by rw [hall]; exact getElem?_snoc.2 (Or.inl hget),
          by rw [htables]; exact getElem?_snoc.2 (Or.inl hold), hpresent⟩
      · rw [hinit, htables, List.getElem?_concat_length]

theorem Calm.stack {s : Processes} (h : s.Calm []) (e : Errand) (hforks : e.forks = false)
    (hfinish : ∀ p code, e ≠ .finish p code) : s.Calm [e] := by
  refine ⟨⟨h.guarded.upheld, h.guarded.kept, fun above p code below hsplit => ?_⟩, h.peaceful,
    by simpa using hforks⟩
  cases above with
  | nil => exact absurd (List.cons.inj hsplit).1 (hfinish p code)
  | cons first rest => simp at hsplit

theorem Calm.begin {s : Processes} (h : s.Calm []) (c : Call) (hquiet : c.Quiet) :
    (c.begin s).2.Calm (c.begin s).1 := by
  cases c with
  | boot computer users => exact h.boot computer users
  | fork parent =>
    simp only [Call.begin]
    rcases fork_eq s parent with heq | ⟨user, heq⟩
    · rw [heq]
      exact h
    · rw [heq]
      exact h.forkAs parent user
  | forkAs parent user => exact h.forkAs parent user
  | kill target code => exact h.stack _ rfl (by simp)
  | onDeath target reaction =>
    exact h.stack _ (by simpa [Errand.forks, Reaction.forks, Call.Quiet] using hquiet) (by simp)
  | setName target name => exact h.update target (fun _ => rfl) fun _ => rfl
  | setCwd target cwd => exact h.update target (fun _ => rfl) fun _ => rfl
  | setEnv target name value => exact h.update target (fun _ => rfl) fun _ => rfl
  | unsetEnv target name => exact h.update target (fun _ => rfl) fun _ => rfl
  | dropTable t => exact hquiet.elim

theorem Moment.calm {allowed : Call → Prop} {limit : Nat} {s : Processes} {errands : List Errand}
    (h : Moment allowed limit s errands) (hquiet : ∀ c, allowed c → c.Quiet) :
    s.Calm errands := by
  induction h with
  | start => exact ⟨⟨by simp, by simp, by simp⟩, by simp, by simp⟩
  | call c _ _ hallowed _ ih => exact ih.begin c (hquiet c hallowed)
  | step hmoment _ ih => exact ih.step hmoment.sound

/-! Descendants. -/

theorem descendsFrom_iff {s : Processes} {q p : Nat} :
    s.descendsFrom q p = true ↔
      ∃ r, s.parentOf? q = some r ∧ (r = p ∨ r < q ∧ s.descendsFrom r p = true) := by
  rw [descendsFrom]
  simp only [parentOf?]
  split
  · rename_i hnone
    simp [hnone]
  · rename_i r hsome
    simp only [hsome, Option.some.injEq, exists_eq_left']
    by_cases heq : r = p <;> by_cases hlt : r < q <;> simp [heq, hlt]

theorem descendsFrom_congr {s s' : Processes} {q p : Nat}
    (h : ∀ r ≤ q, s'.parentOf? r = s.parentOf? r) : s'.descendsFrom q p = s.descendsFrom q p := by
  induction q using Nat.strongRecOn with
  | ind q ih =>
    rw [Bool.eq_iff_iff, descendsFrom_iff, descendsFrom_iff, h q (Nat.le_refl _)]
    refine exists_congr fun r => and_congr_right fun _ => or_congr_right <|
      and_congr_right fun hlt => ?_
    rw [ih r hlt fun a ha => h a (by omega)]

/-- What a kill of `p` called in `s` does not reach: what was started later, what belongs to a table
that has been given up, and what is below a process that was dead already. -/
def Stray (s : Processes) (p q : Nat) : Prop :=
  s.all.length ≤ q ∨ ¬ s.Kept q ∨
    ∃ r, s.descendsFrom q r = true ∧ s.descendsFrom r p = true ∧ s.isAlive r = false

theorem Sound.linked_of_not_stray {limit : Nat} {s : Processes} (h : s.Sound limit) {p q : Nat}
    (hdescends : s.descendsFrom q p = true) (halive : s.isAlive q = true)
    (hstray : ¬ s.Stray p q) : s.Linked p q := by
  induction q using Nat.strongRecOn with
  | ind q ih =>
    simp only [Stray, not_or, not_not, not_exists, not_and, Bool.not_eq_false] at hstray
    obtain ⟨-, hkept, hbetween⟩ := hstray
    obtain ⟨r, hparent, hr⟩ := descendsFrom_iff.1 hdescends
    obtain ⟨process, hget, hof⟩ := Option.bind_eq_some_iff.1 hparent
    have hchild : q ∈ s.children r := mem_children_iff.2
      ⟨h.parent_lt q r process hget hof, hparent, h.isListed_iff.2 ⟨hkept, halive⟩⟩
    rcases hr with rfl | ⟨hlt, hup⟩
    · exact .single hchild
    · have hself : s.descendsFrom q r = true := descendsFrom_iff.2 ⟨r, hparent, Or.inl rfl⟩
      have hralive := hbetween r hself hup
      obtain ⟨parent, hrget, -⟩ := isAlive_iff.1 hralive
      refine .tail (ih r hlt hup hralive ?_) hchild
      simp only [Stray, not_or, not_not, not_exists, not_and, Bool.not_eq_false]
      refine ⟨Nat.not_le_of_lt (isAlive_lt hralive), ?_, fun a ha hap => ?_⟩
      · obtain ⟨other, table, hother, ht, hpresent⟩ := hkept
        rw [hget, Option.some.injEq] at hother
        subst hother
        exact ⟨parent, table, hrget, by rw [h.same_table q r process parent hget hof hrget, ht],
          hpresent⟩
      · exact hbetween a (descendsFrom_iff.2 ⟨r, hparent, Or.inr ⟨hlt, ha⟩⟩) hap

theorem Cascading.dead_of_not_stray {origin s : Processes} {p q : Nat} {errands : List Errand}
    {limit : Nat} (h : Cascading origin p s errands) (hsound : origin.Sound limit)
    (hdead : s.isAlive p = false) (hdescends : s.descendsFrom q p = true)
    (hstray : ¬ origin.Stray p q) : s.isAlive q = false := by
  have hlt : q < origin.all.length := by
    by_contra hge
    exact hstray (Or.inl (by omega))
  rw [descendsFrom_congr fun r hr => h.parents r (by omega)] at hdescends
  by_contra hlive
  have hlinked := hsound.linked_of_not_stray hdescends (h.living q hlt (by simpa using hlive))
    hstray
  exact hlive (h.linked_dead hdead hlinked)

theorem Calm.ancestor_alive {s : Processes} {errands : List Errand} (h : s.Calm errands)
    {q p : Nat} (hdescends : s.descendsFrom q p = true) (halive : s.isAlive q = true) :
    s.isAlive p = true := by
  induction q using Nat.strongRecOn with
  | ind q ih =>
    obtain ⟨r, hparent, hr⟩ := descendsFrom_iff.1 hdescends
    have hup := h.guarded.upheld q r (isAlive_lt halive) halive hparent
    rcases hr with rfl | ⟨hlt, hrest⟩
    · exact hup
    · exact ih r hlt hrest hup

theorem Calm.later {a b : Processes × List Errand} (h : a.1.Calm a.2)
    (hsound : ∃ limit, a.1.Sound limit) (hlater : Later a b) :
    b.1.Calm b.2 ∧ ∃ limit, b.1.Sound limit := by
  induction hlater with
  | refl => exact ⟨h, hsound⟩
  | tail _ hnext ih =>
    cases hnext with
    | step s errand rest =>
      obtain ⟨hcalm, limit, hlimit⟩ := ih
      exact ⟨hcalm.step hlimit, hlimit.exists_step errand⟩

/-- A kill leaves the process dead. From its death on, when its own reactions start to run, until the
kill is over, it has no live descendant exactly when none of the strays is alive, since everything
else below it is dead by then. In histories whose reactions do not fork and in which no table is
given up there are no live descendants at all. The kill may be one that a reaction calls in the
middle of another one. -/
theorem Moment.kill_spares_strays {allowed : Call → Prop} {limit : Nat} {s : Processes}
    {errands : List Errand} (h : Moment allowed limit s errands) {p : Nat}
    (hp : s.isAlive p = true) (code : Int) :
    Later (s, [.kill p code]) (s.kill p code, []) ∧ (s.kill p code).isAlive p = false ∧
    ∀ s' rest, Later (s, [.kill p code]) (s', rest) → s'.isAlive p = false →
      ((∀ q, s'.descendsFrom q p = true → s'.isAlive q = false) ↔
        ∀ q, s'.descendsFrom q p = true → s.Stray p q → s'.isAlive q = false) ∧
      ((∀ c, allowed c → c.Quiet) →
        ∀ q, s'.descendsFrom q p = true → s'.isAlive q = false) := by
  have hsound := h.sound
  have hlt := isAlive_lt hp
  have hfrom : Cascading s p s [.kill p code] := hsound.cascading hp code
  have hrun : Later (s, [.kill p code]) (s.kill p code, []) := later_run s _
  refine ⟨hrun, (hfrom.later hlt hrun).dead_of_nil, fun s' rest hlater hdead => ⟨⟨?_, ?_⟩, ?_⟩⟩
  · intro hall q hdescends _
    exact hall q hdescends
  · intro hstrays q hdescends
    by_cases hstray : s.Stray p q
    · exact hstrays q hdescends hstray
    · exact (hfrom.later hlt hlater).dead_of_not_stray hsound hdead hdescends hstray
  · intro hquiet q hdescends
    have hcalm := h.calm hquiet
    -- What interrupted kills have left on the stack does not matter to a kill that runs on its own.
    have hstart : s.Calm [] := ⟨⟨hcalm.guarded.upheld, hcalm.guarded.kept, by simp⟩,
      hcalm.peaceful, by simp⟩
    obtain ⟨hthen, -⟩ := (hstart.stack (.kill p code) rfl (by simp)).later ⟨limit, hsound⟩ hlater
    by_contra hlive
    rw [hthen.ancestor_alive hdescends (by simpa using hlive)] at hdead
    cases hdead

def generations (reactions : List Reaction) (present : Bool) : Processes :=
  let root : User := ⟨0, "root", .root, 0, "/root"⟩
  let init : Process := ⟨1, "init", root, none, 0, "/", [], true, 0, []⟩
  { all := [init, { init with pid := 2, parent := some 0 },
      { init with pid := 3, parent := some 1, reactions }]
    tables := [⟨0, [(1, 0), (2, 1), (3, 2)], [], 4, 0, present⟩] }

theorem generations_moment {allowed : Call → Prop} (h : ∀ c, c.Quiet → allowed c) :
    Moment allowed 3 (generations [] true) [] := by
  have hmoment : Moment allowed 3 {} [] := .start
  have hmoment := hmoment.call (.boot 0 [⟨0, "root", .root, 0, "/root"⟩]) (by simp [Call.Fair])
    (h _ trivial) (by decide)
  have hmoment := hmoment.call (.fork 0) trivial (h _ trivial) (by decide)
  exact hmoment.call (.fork 1) trivial (h _ trivial) (by decide)

theorem generations_kill :
    Moment Call.Quiet 3 (generations [] true) [] ∧
    ((generations [] true).kill 1 3).isAlive 1 = false ∧
    ∀ q, ((generations [] true).kill 1 3).descendsFrom q 1 = true →
      ((generations [] true).kill 1 3).isAlive q = false := by
  have hmoment : Moment Call.Quiet 3 (generations [] true) [] := generations_moment fun _ => id
  obtain ⟨hrun, hdead, hlater⟩ := Moment.kill_spares_strays hmoment (p := 1) rfl 3
  exact ⟨hmoment, hdead, (hlater _ _ hrun hdead).2 fun _ => id⟩

/-- The reaction of the last process gives its parent another child, which outlives that parent, and
a kill does not reach below a process whose table has been given up. -/
theorem generations_survivors :
    (Moment (fun _ => True) 3 (generations [.fork 1 .done] true) [] ∧
      (generations [.fork 1 .done] true).isAlive 1 = true ∧
      ((generations [.fork 1 .done] true).kill 1 3).isAlive 1 = false ∧
      ((generations [.fork 1 .done] true).kill 1 3).descendsFrom 3 1 = true ∧
      ((generations [.fork 1 .done] true).kill 1 3).isAlive 3 = true) ∧
    (Moment (fun _ => True) 3 (generations [] false) [] ∧
      (generations [] false).isAlive 1 = true ∧
      ((generations [] false).kill 1 3).isAlive 1 = false ∧
      ((generations [] false).kill 1 3).descendsFrom 2 1 = true ∧
      ((generations [] false).kill 1 3).isAlive 2 = true) := by
  have hmoment : Moment (fun _ => True) 3 (generations [] true) [] :=
    generations_moment fun _ _ => trivial
  refine ⟨⟨?_, by decide, by cbv, by cbv, by cbv⟩, ?_, by decide, by cbv, by cbv, by cbv⟩
  · have hlistening := hmoment.call (.onDeath 2 (.fork 1 .done)) trivial trivial (by decide)
    have hlistening := hlistening.step (by decide)
    exact hlistening.step (by decide)
  · exact hmoment.call (.dropTable 0) trivial trivial (by decide)

end Processes

end ToyUnix
