import Mathlib.Data.List.Perm.Subperm
import Mathlib.Data.List.Permutation
import ToyUnix.Process.Basic

/-!
Process tables. A table tallies with a set of processes when it lists each of them once under its
own id and when the ids below `next` are either listed or free. Registering under an allocated id
and releasing the id of a listed process keep that up, and the allocated id is the least unused one.
-/

set_option autoImplicit false

namespace ToyUnix

namespace ProcessTable

theorem mem_insertFree {pid other : Nat} {free : List Nat} :
    other ∈ insertFree pid free ↔ other = pid ∨ other ∈ free := by
  induction free with
  | nil => simp [insertFree]
  | cons first rest ih =>
    simp only [insertFree]
    split
    · simp
    · split
      · subst pid; simp
      · simp only [List.mem_cons, ih, or_left_comm]

theorem sorted_insertFree {pid : Nat} {free : List Nat} (h : free.Pairwise (· < ·)) :
    (insertFree pid free).Pairwise (· < ·) := by
  induction free with
  | nil => simp [insertFree]
  | cons first rest ih =>
    obtain ⟨hfirst, hrest⟩ := List.pairwise_cons.1 h
    simp only [insertFree]
    split
    · rename_i hlt
      refine List.pairwise_cons.2 ⟨fun other hother => ?_, h⟩
      rcases List.mem_cons.1 hother with rfl | hother
      · exact hlt
      · exact Nat.lt_trans hlt (hfirst other hother)
    · split
      · exact h
      · refine List.pairwise_cons.2 ⟨fun other hother => ?_, ih hrest⟩
        rcases mem_insertFree.1 hother with rfl | hother
        · omega
        · exact hfirst other hother

theorem mem_insertLive {pid place : Nat} {live : List (Nat × Nat)} {entry : Nat × Nat}
    (h : ∀ e ∈ live, e.1 ≠ pid) :
    entry ∈ insertLive pid place live ↔ entry = (pid, place) ∨ entry ∈ live := by
  induction live with
  | nil => simp [insertLive]
  | cons first rest ih =>
    have hfirst := h first List.mem_cons_self
    have hrest := ih fun e he => h e (List.mem_cons_of_mem _ he)
    simp only [insertLive]
    split
    · simp
    · split
      · omega
      · simp only [List.mem_cons, hrest, or_left_comm]

theorem sorted_insertLive {pid place : Nat} {live : List (Nat × Nat)}
    (hsorted : live.Pairwise fun a b => a.1 < b.1) (h : ∀ e ∈ live, e.1 ≠ pid) :
    (insertLive pid place live).Pairwise fun a b => a.1 < b.1 := by
  induction live with
  | nil => simp [insertLive]
  | cons first rest ih =>
    obtain ⟨hfirst, hrest⟩ := List.pairwise_cons.1 hsorted
    have hne := h first List.mem_cons_self
    have hnerest : ∀ e ∈ rest, e.1 ≠ pid := fun e he => h e (List.mem_cons_of_mem _ he)
    simp only [insertLive]
    split
    · rename_i hlt
      refine List.pairwise_cons.2 ⟨fun other hother => ?_, hsorted⟩
      rcases List.mem_cons.1 hother with rfl | hother
      · exact hlt
      · exact Nat.lt_trans hlt (hfirst other hother)
    · split
      · omega
      · refine List.pairwise_cons.2 ⟨fun other hother => ?_, ih hrest hnerest⟩
        rcases (mem_insertLive hnerest).1 hother with rfl | hother
        · show first.1 < pid
          omega
        · exact hfirst other hother

theorem length_insertLive {pid place : Nat} {live : List (Nat × Nat)} (h : ∀ e ∈ live, e.1 ≠ pid) :
    (insertLive pid place live).length = live.length + 1 := by
  induction live with
  | nil => simp [insertLive]
  | cons first rest ih =>
    have hfirst := h first List.mem_cons_self
    have hrest := ih fun e he => h e (List.mem_cons_of_mem _ he)
    simp only [insertLive]
    split
    · simp
    · split
      · omega
      · simp [hrest]

/-- `table` lists exactly the processes of `lives`, a relation of ids and places, and knows exactly
the other ids below `next` as free. -/
structure Tallies (table : ProcessTable) (lives : Nat → Nat → Prop) : Prop where
  mem_live : ∀ pid place, (pid, place) ∈ table.live ↔ lives pid place
  sorted : table.live.Pairwise fun a b => a.1 < b.1
  sorted_free : table.free.Pairwise (· < ·)
  counted : ∀ pid, pid ∈ table.free ∨ (∃ place, lives pid place) ↔ 0 < pid ∧ pid < table.next
  apart : ∀ pid place, pid ∈ table.free → ¬ lives pid place

variable {table : ProcessTable} {lives : Nat → Nat → Prop}

theorem Tallies.unique (h : table.Tallies lives) {pid a b : Nat} (ha : lives pid a)
    (hb : lives pid b) : a = b := by
  have hma := (h.mem_live pid a).2 ha
  have hmb := (h.mem_live pid b).2 hb
  obtain ⟨i, hi, hia⟩ := List.getElem_of_mem hma
  obtain ⟨j, hj, hjb⟩ := List.getElem_of_mem hmb
  have hij := List.pairwise_iff_getElem.1 h.sorted
  rcases Nat.lt_trichotomy i j with hlt | heq | hgt
  · have := hij i j hi hj hlt
    simp [hia, hjb] at this
  · subst heq
    rw [hia] at hjb
    exact (Prod.mk.inj hjb).2
  · have := hij j i hj hi hgt
    simp [hia, hjb] at this

theorem Tallies.find? (h : table.Tallies lives) {pid place : Nat} :
    table.find? pid = some place ↔ lives pid place := by
  rw [← h.mem_live]
  unfold ProcessTable.find?
  constructor
  · intro hfind
    obtain ⟨entry, hentry, rfl⟩ := Option.map_eq_some_iff.1 hfind
    have hkey := List.find?_some hentry
    simp only [decide_eq_true_eq] at hkey
    subst hkey
    exact List.mem_of_find?_eq_some hentry
  · intro hmem
    cases hfind : table.live.find? fun entry => entry.1 = pid with
    | none => simpa using List.find?_eq_none.1 hfind _ hmem
    | some entry =>
      have hkey := List.find?_some hfind
      simp only [decide_eq_true_eq] at hkey
      have hentry : (pid, entry.2) ∈ table.live := hkey ▸ List.mem_of_find?_eq_some hfind
      simpa using h.unique ((h.mem_live _ _).1 hentry) ((h.mem_live _ _).1 hmem)

theorem Tallies.next_le (h : table.Tallies lives) (hfree : table.free = []) :
    table.next ≤ table.live.length + 1 := by
  have hsub : List.range' 1 (table.next - 1) ⊆ table.live.map (·.1) := by
    intro pid hpid
    have hrange := List.mem_range'_1.1 hpid
    rcases (h.counted pid).2 (by omega) with hpid | ⟨place, hplace⟩
    · simp [hfree] at hpid
    · exact List.mem_map.2 ⟨_, (h.mem_live pid place).2 hplace, rfl⟩
  have hnodup : (List.range' 1 (table.next - 1)).Nodup := List.nodup_range'
  have hlen := (hnodup.subperm hsub).length_le
  simp only [List.length_range', List.length_map] at hlen
  omega

theorem Tallies.allocate_unused (h : table.Tallies lives) (hnext : 0 < table.next) :
    0 < table.allocate.1 ∧ ∀ place, ¬ lives table.allocate.1 place := by
  unfold allocate
  split
  · rename_i pid rest hfree
    have hpid : pid ∈ table.free := by simp [hfree]
    exact ⟨((h.counted pid).1 (Or.inl hpid)).1, fun place => h.apart pid place hpid⟩
  · refine ⟨hnext, fun place hplace => ?_⟩
    have := (h.counted table.next).1 (Or.inr ⟨place, hplace⟩)
    omega

theorem Tallies.allocate_le (h : table.Tallies lives) {pid : Nat} (hpos : 0 < pid)
    (hunused : ∀ place, ¬ lives pid place) : table.allocate.1 ≤ pid := by
  have hfree : pid < table.next → pid ∈ table.free := fun hlt =>
    ((h.counted pid).2 ⟨hpos, hlt⟩).resolve_right fun ⟨place, hplace⟩ => hunused place hplace
  unfold allocate
  split
  · rename_i first rest heq
    have hsorted := h.sorted_free
    rw [heq, List.pairwise_cons] at hsorted
    by_cases hlt : pid < table.next
    · rcases List.mem_cons.1 (heq ▸ hfree hlt) with rfl | hmem
      · exact Nat.le_refl _
      · exact Nat.le_of_lt (hsorted.1 pid hmem)
    · have := (h.counted first).1 (Or.inl (by simp [heq]))
      omega
  · rename_i heq
    by_contra hlt
    simpa [heq] using hfree (by omega)

theorem allocate_live (table : ProcessTable) : table.allocate.2.live = table.live := by
  unfold allocate
  split <;> rfl

def enroll (table : ProcessTable) (place : Nat) : ProcessTable :=
  table.allocate.2.register table.allocate.1 place

theorem enroll_present (table : ProcessTable) (place : Nat) :
    (table.enroll place).present = table.present := by
  unfold enroll register allocate
  split <;> rfl

theorem enroll_computer (table : ProcessTable) (place : Nat) :
    (table.enroll place).computer = table.computer := by
  unfold enroll register allocate
  split <;> rfl

theorem next_le_enroll (table : ProcessTable) (place : Nat) :
    table.next ≤ (table.enroll place).next := by
  unfold enroll register allocate
  split
  · exact Nat.le_refl _
  · exact Nat.le_succ _

theorem Tallies.enroll (h : table.Tallies lives) (hnext : 0 < table.next) (place : Nat) :
    (table.enroll place).Tallies
      fun pid q => pid = table.allocate.1 ∧ q = place ∨ lives pid q := by
  have hunused := (h.allocate_unused hnext).2
  have hkeys : ∀ e ∈ table.live, e.1 ≠ table.allocate.1 := by
    rintro ⟨pid, q⟩ hmem rfl
    exact hunused q ((h.mem_live _ _).1 hmem)
  have hcounted : ∀ pid, pid ∈ table.allocate.2.free ∨ pid = table.allocate.1 ∨
      (∃ q, lives pid q) ↔ 0 < pid ∧ pid < table.allocate.2.next := by
    intro pid
    have hpid := h.counted pid
    unfold allocate at hunused ⊢
    split
    · rename_i first rest heq
      simp only [heq, List.mem_cons] at hpid
      rw [← hpid]
      tauto
    · rename_i heq
      simp only [heq, List.not_mem_nil, false_or] at hpid ⊢
      rw [hpid]
      omega
  refine ⟨fun pid q => ?_, ?_, ?_, fun pid => ?_, fun pid q hfree => ?_⟩
  · rw [ProcessTable.enroll, ProcessTable.register, allocate_live, mem_insertLive hkeys, h.mem_live,
      Prod.mk.injEq]
  · rw [ProcessTable.enroll, ProcessTable.register, allocate_live]
    exact sorted_insertLive h.sorted hkeys
  · have hsorted := h.sorted_free
    unfold ProcessTable.enroll ProcessTable.register allocate
    split
    · rename_i heq
      rw [heq] at hsorted
      exact (List.pairwise_cons.1 hsorted).2
    · exact hsorted
  · simpa only [ProcessTable.enroll, ProcessTable.register, exists_or, exists_and_left, exists_eq,
      and_true] using hcounted pid
  · have hother : pid ∈ table.free ∧ pid ≠ table.allocate.1 := by
      have hsorted := h.sorted_free
      revert hfree
      unfold ProcessTable.enroll ProcessTable.register allocate
      split
      · rename_i first rest heq
        rw [heq, List.pairwise_cons] at hsorted
        intro hfree
        have := hsorted.1 pid hfree
        exact ⟨by simp [heq, hfree], by simp only; omega⟩
      · rename_i heq
        simp [heq]
    rintro (⟨rfl, -⟩ | hlives)
    · exact hother.2 rfl
    · exact h.apart pid q hother.1 hlives

theorem Tallies.next_enroll_le (h : table.Tallies lives) (hnext : 0 < table.next) (place : Nat) :
    (table.enroll place).next ≤ max table.next ((table.enroll place).live.length + 1) := by
  have hunused := (h.allocate_unused hnext).2
  have hkeys : ∀ e ∈ table.live, e.1 ≠ table.allocate.1 := by
    rintro ⟨pid, q⟩ hmem rfl
    exact hunused q ((h.mem_live _ _).1 hmem)
  rw [ProcessTable.enroll, ProcessTable.register, allocate_live, length_insertLive hkeys]
  unfold allocate
  split
  · exact Nat.le_max_left _ _
  · rename_i heq
    have := h.next_le heq
    simp only
    omega

theorem Tallies.release (h : table.Tallies lives) {pid place : Nat} (hlives : lives pid place) :
    (table.release pid).Tallies fun other q => other ≠ pid ∧ lives other q := by
  refine ⟨fun other q => ?_, h.sorted.filter _, sorted_insertFree h.sorted_free,
    fun other => ?_, fun other q hfree => ?_⟩
  · simp [ProcessTable.release, h.mem_live, and_comm]
  · simp only [ProcessTable.release, mem_insertFree]
    have hpid := (h.counted pid).1 (Or.inr ⟨place, hlives⟩)
    rw [← h.counted other]
    by_cases heq : other = pid
    · subst heq
      exact ⟨fun _ => Or.inr ⟨place, hlives⟩, fun _ => Or.inl (Or.inl rfl)⟩
    · simp [heq]
  · rintro ⟨hne, hother⟩
    rcases mem_insertFree.1 hfree with rfl | hfree
    · exact hne rfl
    · exact h.apart other q hfree hother

theorem Tallies.congr {other : Nat → Nat → Prop} (h : table.Tallies lives)
    (heq : ∀ pid place, lives pid place ↔ other pid place) : table.Tallies other := by
  have : lives = other := funext fun pid => funext fun place => propext (heq pid place)
  exact this ▸ h

end ProcessTable

end ToyUnix
