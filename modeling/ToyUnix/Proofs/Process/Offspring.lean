import Mathlib.Data.List.Sort
import ToyUnix.Proofs.Process.Cascade

/-!
Offspring. A program runs in a process that is forked for it and killed when it is done. Nobody
listens to the death of such a process, and what a kill spreads to is younger still. So forks and
kills of that kind leave whoever was there as they were; and once everybody new is dead, the tables
list the same processes again: see `Offspring.live_eq`.
-/

set_option autoImplicit false

namespace ToyUnix

/-- Who it is, whether it lives, and which variables its environment has. -/
structure Process.Resembles (later process : Process) : Prop where
  identity : later.identity = process.identity
  names : ∀ name, (later.env.get? name).isSome = (process.env.get? name).isSome

theorem Process.Resembles.trans {last later process : Process} (h : last.Resembles later)
    (h' : later.Resembles process) : last.Resembles process :=
  ⟨h.identity.trans h'.identity, fun name => (h.names name).trans (h'.names name)⟩

namespace Processes

def Gone (s : Processes) (q : Nat) : Prop := q < s.all.length ∧ s.isAlive q = false

theorem Gone.step {s : Processes} {q : Nat} (h : s.Gone q) (errand : Errand) :
    (s.step errand).2.Gone q := by
  refine ⟨Nat.lt_of_lt_of_le h.1 (step_length s errand), ?_⟩
  by_contra halive
  have hbefore : s.isAlive q = true := step_isAlive h.1 (by simpa using halive)
  rw [h.2] at hbefore
  cases hbefore

theorem Gone.run {s : Processes} {q : Nat} (h : s.Gone q) (errands : List Errand) :
    (s.run errands).Gone q := by
  induction s, errands using Processes.run.induct with
  | case1 s => rwa [run_nil]
  | case2 s errand rest next ih =>
    rw [run_cons]
    exact ih (h.step errand)

theorem Gone.fork {s : Processes} {q : Nat} (h : s.Gone q) (p : Nat) : (s.fork p).2.Gone q :=
  h.step (.react 0 (.fork p .done))

theorem Gone.update {s : Processes} {q : Nat} (h : s.Gone q) (p : Nat) {f : Process → Process}
    (hf : ∀ process, (f process).identity = process.identity) : (s.update p f).Gone q :=
  ⟨(length_update s p f).symm ▸ h.1, (isAlive_update s p hf q).trans h.2⟩

theorem Sound.gone_kill {limit : Nat} {s : Processes} (h : s.Sound limit) {q : Nat}
    (hq : q < s.all.length) (code : Int) : (s.kill q code).Gone q := by
  cases halive : s.isAlive q with
  | false => exact Gone.run ⟨hq, halive⟩ _
  | true =>
    have hend := (h.cascading halive code).later hq (later_run s _)
    exact ⟨Nat.lt_of_lt_of_le hq hend.length_le, hend.dead_of_nil⟩

theorem present_bury (s : Processes) (process : Process) (p : Nat) (code : Int) :
    (s.bury process p code).tables.map (·.present) = s.tables.map (·.present) :=
  map_updateTable _ _ _ fun table => by split <;> rfl

/-- What the processes of `origin` have become by the doing of programs that are started from
`host`. -/
structure Offspring (origin : Processes) (host : Option Nat) (s : Processes) : Prop where
  sound : ∃ limit, s.Sound limit
  length_le : origin.all.length ≤ s.all.length
  old : ∀ (q : Nat) process, origin.all[q]? = some process → ∃ later, s.all[q]? = some later ∧
    later.Resembles process ∧ (host ≠ some q → later = process)
  present : s.tables.map (·.present) = origin.tables.map (·.present)
  /-- Nobody listens to the death of those who are new. -/
  unheard : ∀ (q : Nat) process, origin.all.length ≤ q → s.all[q]? = some process →
    process.reactions = []

namespace Offspring

variable {origin s : Processes} {host : Option Nat}

theorem refl {limit : Nat} (h : origin.Sound limit) (host : Option Nat) :
    origin.Offspring host origin where
  sound := ⟨limit, h⟩
  length_le := Nat.le_refl _
  old _ process hq := ⟨process, hq, ⟨rfl, fun _ => rfl⟩, fun _ => rfl⟩
  present := rfl
  unheard _ _ hle hq := absurd (List.getElem?_eq_some_iff.1 hq).1 (Nat.not_lt.2 hle)

theorem forkAs (h : origin.Offspring host s) (p : Nat) (user : User) :
    origin.Offspring host (s.forkAs p user).2 := by
  obtain ⟨outcome, s', hfork⟩ : ∃ outcome s', s.forkAs p user = (outcome, s') := ⟨_, _, rfl⟩
  rw [hfork]
  cases outcome with
  | error fault => exact forkAs_error hfork ▸ h
  | ok child =>
    obtain ⟨limit, hsound⟩ := h.sound
    obtain ⟨bound, hbound⟩ := exists_within s'
    have hmax : s'.Within (max limit bound) := fun table htable hpresent =>
      Nat.le_trans (hbound table htable hpresent) (Nat.le_max_right _ _)
    have hsound' := (hsound.mono (Nat.le_max_left limit bound)).forkAs p user
    rw [hfork] at hsound'
    obtain ⟨process, table, born, -, ht, -, -, -, -, hborn, -, rfl⟩ := forkAs_ok hfork
    refine ⟨⟨_, hsound' hmax⟩, ?_, fun q before hq => ?_, ?_, fun q other hle hq => ?_⟩
    · exact Nat.le_trans h.length_le (by simp)
    · obtain ⟨later, hlater, hrest⟩ := h.old q before hq
      exact ⟨later, getElem?_snoc.2 (.inl hlater), hrest⟩
    · exact (map_set_of_eq ht (ProcessTable.enroll_present table _)).trans h.present
    · rcases getElem?_snoc.1 hq with hq | ⟨-, rfl⟩
      · exact h.unheard q other hle hq
      · exact hborn

theorem fork (h : origin.Offspring host s) (p : Nat) : origin.Offspring host (s.fork p).2 := by
  rcases fork_eq s p with heq | ⟨user, heq⟩
  · rwa [heq]
  · rw [heq]
    exact h.forkAs p user

theorem set (h : origin.Offspring host s) {s' : Processes} {q : Nat} {before after : Process}
    (hsound : ∃ limit, s'.Sound limit)
    (hpresent : s'.tables.map (·.present) = s.tables.map (·.present))
    (hq : s.all[q]? = some before) (hall : s'.all = s.all.set q after)
    (hold : q < origin.all.length → host = some q ∧ after.Resembles before)
    (hreactions : before.reactions = [] → after.reactions = []) : origin.Offspring host s' := by
  have hget : ∀ r, s'.all[r]? = if q = r then some after else s.all[r]? := by
    intro r
    rw [hall, List.getElem?_set]
    split
    · rename_i hr
      rw [if_pos (List.getElem?_eq_some_iff.1 hq).1]
    · rfl
  refine ⟨hsound, ?_, fun r process hr => ?_, hpresent.trans h.present, fun r process hle hr => ?_⟩
  · rw [hall, List.length_set]
    exact h.length_le
  · obtain ⟨later, hlater, hsame, hother⟩ := h.old r process hr
    rw [hget]
    split
    · rename_i hqr
      subst hqr
      obtain ⟨hhost, hafter⟩ := hold (List.getElem?_eq_some_iff.1 hr).1
      obtain rfl := Option.some.inj (hlater.symm.trans hq)
      exact ⟨after, rfl, hafter.trans hsame, fun hne => absurd hhost hne⟩
    · exact ⟨later, hlater, hsame, hother⟩
  · rw [hget] at hr
    split at hr
    · rename_i hqr
      subst hqr
      obtain rfl := Option.some.inj hr
      exact hreactions (h.unheard q before hle hq)
    · exact h.unheard r process hle hr

theorem update (h : origin.Offspring host s) {q : Nat} (hq : host = some q ∨ origin.all.length ≤ q)
    {f : Process → Process} (hidentity : ∀ process, (f process).identity = process.identity)
    (hnames : q < origin.all.length → ∀ process, s.all[q]? = some process →
      ∀ name, ((f process).env.get? name).isSome = (process.env.get? name).isSome)
    (hreactions : ∀ process, (f process).reactions = process.reactions) :
    origin.Offspring host (s.update q f) := by
  obtain ⟨limit, hsound⟩ := h.sound
  have hsound' : ∃ limit, (s.update q f).Sound limit := ⟨limit, hsound.update q hidentity⟩
  unfold Processes.update at hsound' ⊢
  split
  · exact h
  · rename_i process hp
    rw [hp] at hsound'
    refine h.set hsound' rfl hp rfl (fun hlt => ⟨hq.resolve_right (Nat.not_le.2 hlt), ?_⟩)
      fun hnone => (hreactions process).trans hnone
    exact ⟨hidentity process, hnames hlt process hp⟩

theorem amend (h : origin.Offspring host s) {q : Nat} (hq : origin.all.length ≤ q)
    {f : Process → Process} (hidentity : ∀ process, (f process).identity = process.identity)
    (hreactions : ∀ process, (f process).reactions = process.reactions) :
    origin.Offspring host (s.update q f) :=
  h.update (.inr hq) hidentity (fun hlt => absurd hlt (Nat.not_lt.2 hq)) hreactions

theorem setEnv (h : origin.Offspring host s) {q : Nat} (hq : host = some q ∨ origin.all.length ≤ q)
    {name : String} (hname : (s.envValue? q name).isSome) (value : String) :
    origin.Offspring host (s.setEnv q name value) := by
  refine h.update hq (fun _ => rfl) (fun _ process hp other => ?_) fun _ => rfl
  have hset := Assoc.get?_set process.env name other value
  by_cases heq : name = other
  · subst heq
    rw [Processes.envValue?, hp] at hname
    rw [hset, if_pos rfl]
    exact hname.symm
  · rw [hset, if_neg heq]

def Young (origin : Processes) (errand : Errand) : Prop :=
  ∃ q, errand.doomed? = some q ∧ origin.all.length ≤ q

/-- A kill of somebody new spreads to nobody else, and no reaction follows. -/
theorem step (h : origin.Offspring host s) {errand : Errand} (hyoung : Young origin errand) :
    origin.Offspring host (s.step errand).2 ∧ (∀ e ∈ (s.step errand).1, Young origin e) ∧
      (s.step errand).2.all.length = s.all.length := by
  obtain ⟨q, hdoomed, hle⟩ := hyoung
  cases errand with
  | kill p code =>
    obtain rfl := Option.some.inj hdoomed
    simp only [Processes.step]
    split
    · refine ⟨h, fun e he => ?_, rfl⟩
      rcases List.mem_append.1 he with he | he
      · obtain ⟨c, hc, rfl⟩ := List.mem_map.1 he
        exact ⟨c, rfl, Nat.le_trans hle (Nat.le_of_lt (mem_children hc).1)⟩
      · rw [List.mem_singleton.1 he]
        exact ⟨p, rfl, hle⟩
    · exact ⟨h, by simp, rfl⟩
  | finish p code =>
    obtain rfl := Option.some.inj hdoomed
    simp only [Processes.step]
    split
    · exact ⟨h, by simp, rfl⟩
    · rename_i process hp
      split
      · rename_i halive
        obtain ⟨limit, hsound⟩ := h.sound
        have hburied : ∃ limit, (s.bury process p code).Sound limit :=
          ⟨limit, hsound.bury hp halive code⟩
        refine ⟨h.set hburied (present_bury s process p code) hp (bury_all s process p code)
          (fun hlt => absurd hlt (Nat.not_lt.2 hle)) fun _ => rfl, ?_, ?_⟩
        · simp [h.unheard p process hle hp]
        · rw [bury_all, List.length_set]
      · exact ⟨h, by simp, rfl⟩
  | react p reaction => cases hdoomed

theorem run {errands : List Errand} (h : origin.Offspring host s)
    (hyoung : ∀ e ∈ errands, Young origin e) :
    origin.Offspring host (s.run errands) ∧ (s.run errands).all.length = s.all.length := by
  induction s, errands using Processes.run.induct with
  | case1 s =>
    rw [run_nil]
    exact ⟨h, rfl⟩
  | case2 s errand rest next ih =>
    rw [run_cons]
    obtain ⟨hfirst, hrest⟩ := List.forall_mem_cons.1 hyoung
    obtain ⟨hnext, hnew, hlength⟩ := h.step hfirst
    obtain ⟨hend, hlength'⟩ := ih hnext (List.forall_mem_append.2 ⟨hnew, hrest⟩)
    exact ⟨hend, hlength'.trans hlength⟩

theorem kill (h : origin.Offspring host s) {q : Nat} (hq : origin.all.length ≤ q) (code : Int) :
    origin.Offspring host (s.kill q code) ∧ (s.kill q code).all.length = s.all.length :=
  h.run fun e he => ⟨q, by rw [List.mem_singleton.1 he]; rfl, hq⟩

theorem kill_dead (h : origin.Offspring host s) {p : Nat} (hp : origin.all.length ≤ p) (code : Int)
    {q : Nat} (hq : s.isAlive q = false) : (s.kill p code).isAlive q = false := by
  by_cases hlt : q < s.all.length
  · exact (Gone.run ⟨hlt, hq⟩ _).2
  · by_contra halive
    have := isAlive_lt (by simpa using halive)
    rw [(h.kill hp code).2] at this
    exact hlt this

def Sentences (code : Int) (errands : List Errand) : Prop :=
  ∀ e ∈ errands, ∃ q, e = .kill q code ∨ e = .finish q code

theorem sentences_nil (code : Int) : Sentences code [] := fun _ h => absurd h List.not_mem_nil

theorem step_sentence (h : origin.Offspring host s) {errand : Errand} (hyoung : Young origin errand)
    {code : Int} (hcode : ∃ q, errand = .kill q code ∨ errand = .finish q code) :
    Sentences code (s.step errand).1 ∧ ∀ (q : Nat) process, s.all[q]? = some process →
      ∃ later, (s.step errand).2.all[q]? = some later ∧
        (later = process ∨ later.exitCode = code) := by
  obtain ⟨p, hle⟩ : ∃ p, errand.doomed? = some p ∧ origin.all.length ≤ p := hyoung
  obtain ⟨q, rfl | rfl⟩ := hcode
  · simp only [Processes.step]
    split
    · refine ⟨fun e he => ?_, fun q process hq => ⟨process, hq, .inl rfl⟩⟩
      rcases List.mem_append.1 he with he | he
      · obtain ⟨c, -, rfl⟩ := List.mem_map.1 he
        exact ⟨c, .inl rfl⟩
      · exact ⟨q, .inr (List.mem_singleton.1 he)⟩
    · exact ⟨sentences_nil _, fun q process hq => ⟨process, hq, .inl rfl⟩⟩
  · obtain rfl := Option.some.inj hle.1
    simp only [Processes.step]
    split
    · exact ⟨sentences_nil _, fun q process hq => ⟨process, hq, .inl rfl⟩⟩
    · rename_i process hprocess
      split
      · rw [h.unheard _ process hle.2 hprocess, bury_all]
        refine ⟨sentences_nil _, fun r other hr => ?_⟩
        rw [List.getElem?_set]
        split
        · rename_i hqr
          subst hqr
          exact ⟨_, by rw [if_pos (List.getElem?_eq_some_iff.1 hr).1], .inr rfl⟩
        · exact ⟨other, hr, .inl rfl⟩
      · exact ⟨sentences_nil _, fun q process hq => ⟨process, hq, .inl rfl⟩⟩

theorem run_sentence {errands : List Errand} (h : origin.Offspring host s)
    (hyoung : ∀ e ∈ errands, Young origin e) {code : Int} (hcode : Sentences code errands) (q : Nat)
    (process : Process) (hq : s.all[q]? = some process) :
    ∃ later, (s.run errands).all[q]? = some later ∧
      (later = process ∨ later.exitCode = code) := by
  induction s, errands using Processes.run.induct generalizing process with
  | case1 s =>
    rw [run_nil]
    exact ⟨process, hq, .inl rfl⟩
  | case2 s errand rest next ih =>
    rw [run_cons]
    obtain ⟨hfirst, hrest⟩ := List.forall_mem_cons.1 hyoung
    obtain ⟨hthis, hothers⟩ := List.forall_mem_cons.1 hcode
    obtain ⟨hnext, hnew, -⟩ := h.step hfirst
    obtain ⟨hsentence, hstep⟩ := h.step_sentence hfirst hthis
    obtain ⟨later, hlater, hend⟩ := hstep q process hq
    obtain ⟨last, hlast, hend'⟩ := ih hnext (List.forall_mem_append.2 ⟨hnew, hrest⟩)
      (List.forall_mem_append.2 ⟨hsentence, hothers⟩) later hlater
    refine ⟨last, hlast, ?_⟩
    rcases hend' with rfl | hcode
    · exact hend
    · exact .inr hcode

theorem exitCode_kill (h : origin.Offspring host s) {q : Nat} (hq : origin.all.length ≤ q)
    (halive : s.isAlive q = true) (code : Int) :
    (s.kill q code).all[q]?.map (·.exitCode) = some code := by
  obtain ⟨limit, hsound⟩ := h.sound
  obtain ⟨process, hprocess, hliving⟩ := isAlive_iff.1 halive
  have hyoung : ∀ e ∈ [Errand.kill q code], Young origin e := fun e he =>
    ⟨q, by rw [List.mem_singleton.1 he]; rfl, hq⟩
  have hcode : Sentences code [.kill q code] := fun e he => ⟨q, .inl (List.mem_singleton.1 he)⟩
  obtain ⟨later, hlater, hend⟩ := h.run_sentence hyoung hcode q process hprocess
  have hgone := (hsound.gone_kill (isAlive_lt halive) code).2
  rcases hend with rfl | hend
  · have hstill : (s.kill q code).isAlive q = true := isAlive_iff.2 ⟨later, hlater, hliving⟩
    rw [hgone] at hstill
    cases hstill
  · exact Option.map_eq_some_iff.2 ⟨later, hlater, hend⟩

theorem envValue?_isSome (h : origin.Offspring host s) {q : Nat} (hq : q < origin.all.length)
    (name : String) : (s.envValue? q name).isSome = (origin.envValue? q name).isSome := by
  have hprocess := List.getElem?_eq_getElem hq
  obtain ⟨later, hlater, hsame, -⟩ := h.old q _ hprocess
  rw [envValue?, envValue?, hlater, hprocess]
  exact hsame.names name

theorem isAlive_eq (h : origin.Offspring host s) {q : Nat} (hq : q < origin.all.length) :
    s.isAlive q = origin.isAlive q := by
  have hprocess := List.getElem?_eq_getElem hq
  obtain ⟨later, hlater, hsame, -⟩ := h.old q _ hprocess
  rw [isAlive, isAlive, hlater, hprocess]
  exact congrArg Prod.snd hsame.identity

theorem lives_iff (h : origin.Offspring host s)
    (hgone : ∀ q, origin.all.length ≤ q → s.isAlive q = false) {t pid place : Nat} :
    s.Lives t pid place ↔ origin.Lives t pid place := by
  have hidentity {later process : Process} (hsame : later.Resembles process) :
      later.table = process.table ∧ later.alive = process.alive ∧ later.pid = process.pid := by
    have := hsame.identity
    simp only [Process.identity, Process.lineage, Prod.mk.injEq] at this
    exact ⟨this.1.2.2.2, this.2, this.1.1⟩
  constructor
  · rintro ⟨later, hlater, htable, halive, hpid⟩
    by_cases hlt : place < origin.all.length
    · have hprocess := List.getElem?_eq_getElem hlt
      obtain ⟨found, hfound, hsame, -⟩ := h.old place _ hprocess
      obtain rfl := Option.some.inj (hlater.symm.trans hfound)
      obtain ⟨htable', halive', hpid'⟩ := hidentity hsame
      exact ⟨_, hprocess, htable'.symm.trans htable, halive'.symm.trans halive,
        hpid'.symm.trans hpid⟩
    · have hdead := hgone place (Nat.not_lt.1 hlt)
      rw [isAlive_iff.2 ⟨later, hlater, halive⟩] at hdead
      cases hdead
  · rintro ⟨process, hprocess, htable, halive, hpid⟩
    obtain ⟨later, hlater, hsame, -⟩ := h.old place process hprocess
    obtain ⟨htable', halive', hpid'⟩ := hidentity hsame
    exact ⟨later, hlater, htable'.trans htable, halive'.trans halive, hpid'.trans hpid⟩

/-- Tables list the same processes again, in the same order, once everybody new is dead. -/
theorem live_eq {limit : Nat} (horigin : origin.Sound limit) (h : origin.Offspring host s)
    (hgone : ∀ q, origin.all.length ≤ q → s.isAlive q = false) (t : Nat) :
    s.live t = origin.live t := by
  obtain ⟨limit', hsound⟩ := h.sound
  have hat := congrArg (·[t]?) h.present
  simp only [List.getElem?_map] at hat
  unfold live
  cases hs : s.tables[t]? with
  | none =>
    rw [hs] at hat
    rw [Option.map_eq_none_iff.1 hat.symm]
  | some table =>
    rw [hs] at hat
    obtain ⟨before, hbefore, hpresent⟩ := Option.map_eq_some_iff.1 hat.symm
    rw [hbefore]
    simp only [hpresent]
    split
    · rename_i hlisted
      have htallies := hsound.tallies t table hs hlisted
      have htallies' := horigin.tallies t before hbefore (hpresent.trans hlisted)
      have : Std.Asymm fun a b : Nat × Nat => a.1 < b.1 := ⟨fun _ _ hab => Nat.lt_asymm hab⟩
      refine congrArg _
        (List.Pairwise.eq_of_mem_iff htallies.sorted htallies'.sorted fun entry => ?_)
      exact (htallies.mem_live ..).trans ((h.lives_iff hgone).trans (htallies'.mem_live ..).symm)
    · rfl

end Offspring

end Processes

end ToyUnix
