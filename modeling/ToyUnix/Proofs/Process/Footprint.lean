import Mathlib.Data.List.Sort
import ToyUnix.Proofs.Process.Ageing

/-!
The footprint of a kill. As long as nobody listens to deaths and no table is given up, a kill does
to the processes exactly what `cull` says: the process and its live descendants die with the code of
the kill and lose their ids, which are free then. Main statement: `Moment.kill_culls`.
-/

set_option autoImplicit false

namespace ToyUnix

def Process.corpse (process : Process) (code : Int) : Process :=
  { process with alive := false, exitCode := code }

namespace ProcessTable

/-- What registering and releasing leave alone, but for the counter. -/
def frame (table : ProcessTable) : ProcessTable := { table with live := [], free := [] }

/-- Takes the doomed off the list and has their ids free. -/
def strike (table : ProcessTable) (doomed : Nat → Prop) [DecidablePred doomed] : ProcessTable :=
  { table with
    live := table.live.filter fun entry => ¬ doomed entry.2
    free :=
      ((table.live.filter fun entry => doomed entry.2).map (·.1)).foldr insertFree table.free }

theorem mem_foldr_insertFree {pid : Nat} {pids free : List Nat} :
    pid ∈ pids.foldr insertFree free ↔ pid ∈ pids ∨ pid ∈ free := by
  induction pids with
  | nil => simp
  | cons first rest ih => simp only [List.foldr_cons, mem_insertFree, ih, List.mem_cons, or_assoc]

theorem sorted_foldr_insertFree (pids : List Nat) {free : List Nat} (h : free.Pairwise (· < ·)) :
    (pids.foldr insertFree free).Pairwise (· < ·) := by
  induction pids with
  | nil => exact h
  | cons first rest ih => exact sorted_insertFree ih

theorem Tallies.mem_free {table : ProcessTable} {lives : Nat → Nat → Prop} (h : table.Tallies lives)
    {pid : Nat} :
    pid ∈ table.free ↔ (0 < pid ∧ pid < table.next) ∧ ∀ place, ¬ lives pid place := by
  rw [← h.counted pid]
  constructor
  · exact fun hfree => ⟨.inl hfree, fun place => h.apart pid place hfree⟩
  · rintro ⟨hfree | ⟨place, hplace⟩, hnone⟩
    · exact hfree
    · exact absurd hplace (hnone place)

theorem Tallies.eq_strike {table later : ProcessTable} {lives : Nat → Nat → Prop}
    {doomed : Nat → Prop} [DecidablePred doomed] (h : table.Tallies lives)
    (hlater : later.Tallies fun pid place => lives pid place ∧ ¬ doomed place)
    (hframe : later.frame = table.frame) : later = table.strike doomed := by
  simp only [frame, ProcessTable.mk.injEq, true_and] at hframe
  obtain ⟨hcomputer, hnext, hinit, hpresent⟩ := hframe
  have hlive : later.live = (table.strike doomed).live := by
    have : Std.Asymm fun a b : Nat × Nat => a.1 < b.1 := ⟨fun _ _ hab => Nat.lt_asymm hab⟩
    refine List.Pairwise.eq_of_mem_iff hlater.sorted (h.sorted.filter _) fun entry => ?_
    rw [strike, List.mem_filter, ← Prod.mk.eta (p := entry), hlater.mem_live, h.mem_live]
    simp
  have hfree : later.free = (table.strike doomed).free := by
    have : Std.Asymm fun a b : Nat => a < b := ⟨fun _ _ hab => Nat.lt_asymm hab⟩
    refine List.Pairwise.eq_of_mem_iff hlater.sorted_free
      (sorted_foldr_insertFree _ h.sorted_free) fun pid => ?_
    have hstruck : pid ∈ (table.live.filter fun entry => doomed entry.2).map (·.1) ↔
        ∃ place, lives pid place ∧ doomed place := by
      simp [h.mem_live]
    rw [strike, mem_foldr_insertFree, hstruck, hlater.mem_free, h.mem_free, hnext]
    constructor
    · rintro ⟨hrange, hnone⟩
      by_cases hheld : ∃ place, lives pid place
      · obtain ⟨place, hplace⟩ := hheld
        exact .inl ⟨place, hplace, by simpa [hplace] using hnone place⟩
      · exact .inr ⟨hrange, not_exists.1 hheld⟩
    · rintro (⟨place, hplace, hdoomed⟩ | ⟨hrange, hnone⟩)
      · refine ⟨(h.counted pid).1 (.inr ⟨place, hplace⟩), ?_⟩
        rintro other ⟨hother, hspared⟩
        exact hspared (h.unique hplace hother ▸ hdoomed)
      · exact ⟨hrange, fun place hplace => hnone place hplace.1⟩
  cases later
  simp only [strike, ProcessTable.mk.injEq] at hlive hfree ⊢
  exact ⟨hcomputer, hlive, hfree, hnext, hinit, hpresent⟩

end ProcessTable

namespace Processes

/-- Calls that have nobody listen to a death and give up no table. -/
def Call.Plain : Call → Prop
  | .onDeath _ _ | .dropTable _ => False
  | _ => True

theorem Call.Plain.quiet {c : Call} (h : c.Plain) : c.Quiet := by
  cases c with
  | onDeath target reaction => exact h.elim
  | dropTable table => exact h.elim
  | _ => trivial

/-- Whom a kill of `p` is to reach: the process and its live descendants. -/
def Doomed (s : Processes) (p q : Nat) : Prop :=
  q = p ∨ s.descendsFrom q p = true ∧ s.isAlive q = true

instance (s : Processes) (p : Nat) : DecidablePred (s.Doomed p) :=
  fun _ => inferInstanceAs (Decidable (_ ∨ _))

/-- The processes with the doomed dead and off their table, and nothing else changed. -/
def cull (s : Processes) (p : Nat) (code : Int) : Processes :=
  { s with
    all := s.all.mapIdx fun q process => if s.Doomed p q then process.corpse code else process
    tables := s.tables.map (·.strike (s.Doomed p)) }

theorem getElem?_cull (s : Processes) (p : Nat) (code : Int) (q : Nat) :
    (s.cull p code).all[q]? =
      (s.all[q]?).map fun process =>
        if s.Doomed p q then process.corpse code else process := by
  simp [cull, List.getElem?_mapIdx]

theorem lives_cull {s : Processes} {p t pid place : Nat} (code : Int) :
    (s.cull p code).Lives t pid place ↔ s.Lives t pid place ∧ ¬ s.Doomed p place := by
  unfold Lives
  simp only [getElem?_cull, Option.map_eq_some_iff]
  by_cases hdoomed : s.Doomed p place
  · simp [hdoomed, Process.corpse]
  · simp [hdoomed]

/-! Histories of plain calls. -/

structure Unheard (s : Processes) (errands : List Errand) : Prop where
  reactions : ∀ process ∈ s.all, process.reactions = []
  present : ∀ table ∈ s.tables, table.present = true
  kills : ∀ e ∈ errands, e.doomed? ≠ none

theorem Unheard.step {s : Processes} {errand : Errand} {rest : List Errand}
    (h : s.Unheard (errand :: rest)) : (s.step errand).2.Unheard ((s.step errand).1 ++ rest) := by
  obtain ⟨hfirst, hrest⟩ := List.forall_mem_cons.1 h.kills
  obtain ⟨q, hfor⟩ := Option.ne_none_iff_exists'.1 hfirst
  cases halive : s.isAlive q with
  | false =>
    rw [step_dead hfor halive]
    exact ⟨h.reactions, h.present, hrest⟩
  | true =>
    obtain ⟨process, hq, hliving⟩ := isAlive_iff.1 halive
    cases errand with
    | kill p code =>
      obtain rfl := Option.some.inj hfor
      rw [step_kill halive]
      refine ⟨h.reactions, h.present, List.forall_mem_append.2 ⟨fun e he => ?_, hrest⟩⟩
      simp only [List.mem_append, List.mem_map, List.mem_singleton] at he
      rcases he with ⟨c, -, rfl⟩ | rfl <;> simp [Errand.doomed?]
    | finish p code =>
      obtain rfl := Option.some.inj hfor
      rw [step_finish_alive hq hliving, h.reactions process (List.mem_of_getElem? hq)]
      refine ⟨fun other hother => ?_, fun table htable => ?_, hrest⟩
      · rw [bury_all] at hother
        rcases List.mem_or_eq_of_mem_set hother with hother | rfl
        · exact h.reactions other hother
        · rfl
      · have hmap : (s.bury process p code).tables.map (·.present) = s.tables.map (·.present) :=
          map_updateTable _ _ _ fun table => by split <;> rfl
        have hmem := List.mem_map_of_mem (f := (·.present)) htable
        rw [hmap] at hmem
        obtain ⟨before, hbefore, heq⟩ := List.mem_map.1 hmem
        exact heq ▸ h.present before hbefore
    | react p reaction => cases hfor

theorem Unheard.update {s : Processes} (h : s.Unheard []) (p : Nat) {f : Process → Process}
    (hf : ∀ process, (f process).reactions = process.reactions) : (s.update p f).Unheard [] := by
  refine ⟨fun other hother => ?_, by rw [tables_update]; exact h.present, by simp⟩
  unfold Processes.update at hother
  split at hother
  · exact h.reactions other hother
  · rename_i process hp
    rcases List.mem_or_eq_of_mem_set hother with hother | rfl
    · exact h.reactions other hother
    · exact (hf process).trans (h.reactions process (List.mem_of_getElem? hp))

theorem Unheard.forkAs {s : Processes} (h : s.Unheard []) (p : Nat) (user : User) :
    (s.forkAs p user).2.Unheard [] := by
  cases hfork : s.forkAs p user with
  | mk outcome s' =>
    cases outcome with
    | error fault => exact forkAs_error hfork ▸ h
    | ok child =>
      obtain ⟨process, table, born, -, -, -, hpresent, -, -, hborn, -, rfl⟩ := forkAs_ok hfork
      refine ⟨List.forall_mem_append.2 ⟨h.reactions, by simpa using hborn⟩, fun other hother => ?_,
        by simp⟩
      rcases List.mem_or_eq_of_mem_set hother with hother | rfl
      · exact h.present other hother
      · rw [ProcessTable.enroll_present, hpresent]

theorem Unheard.boot {s : Processes} (h : s.Unheard []) (computer : Nat) (users : List User) :
    (s.boot computer users).2.Unheard [] := by
  cases hboot : s.boot computer users with
  | mk outcome s' =>
    cases outcome with
    | error fault => exact boot_error hboot ▸ h
    | ok t =>
      obtain ⟨root, init, table, -, -, -, hinit, rfl, rfl⟩ := boot_ok hboot
      exact ⟨List.forall_mem_append.2 ⟨h.reactions, by simpa using hinit⟩,
        List.forall_mem_append.2 ⟨h.present, by simp⟩, by simp⟩

theorem Unheard.begin {s : Processes} (h : s.Unheard []) (c : Call) (hplain : c.Plain) :
    (c.begin s).2.Unheard (c.begin s).1 := by
  cases c with
  | boot computer users => exact h.boot computer users
  | fork parent =>
    simp only [Call.begin]
    rcases fork_eq s parent with heq | ⟨user, heq⟩
    · rw [heq]
      exact h
    · rw [heq]
      exact h.forkAs parent user
  | forkAs parent user => exact h.forkAs parent user
  | kill target code => exact ⟨h.reactions, h.present, by simp [Call.begin, Errand.doomed?]⟩
  | onDeath target reaction => exact hplain.elim
  | setName target name => exact h.update target fun _ => rfl
  | setCwd target cwd => exact h.update target fun _ => rfl
  | setEnv target name value => exact h.update target fun _ => rfl
  | unsetEnv target name => exact h.update target fun _ => rfl
  | dropTable t => exact hplain.elim

theorem Moment.unheard {allowed : Call → Prop} {limit : Nat} {s : Processes} {errands : List Errand}
    (h : Moment allowed limit s errands) (hplain : ∀ c, allowed c → c.Plain) :
    s.Unheard errands := by
  induction h with
  | start => exact ⟨by simp, by simp, by simp⟩
  | call c _ _ hallowed _ ih => exact ih.begin c (hplain c hallowed)
  | step _ _ ih => exact ih.step

/-! From the call of a kill to its end. -/

/-- A time after the kill of `p` with `code` was called in `origin`, with nobody listening. -/
structure Culling (origin : Processes) (p : Nat) (code : Int) (s : Processes)
    (errands : List Errand) : Prop extends Cascading origin p s errands where
  orders : ∀ e ∈ errands, ∃ q, origin.Doomed p q ∧ (e = .kill q code ∨ e = .finish q code)
  length : s.all.length = origin.all.length
  fates : ∀ (q : Nat) process, origin.all[q]? = some process → s.all[q]? = some process ∨
    origin.Doomed p q ∧ s.all[q]? = some (process.corpse code)
  deaths : s.deaths = origin.deaths
  frames : s.tables.map ProcessTable.frame = origin.tables.map ProcessTable.frame

theorem Culling.children_doomed {origin s : Processes} {p q c : Nat} {code : Int}
    {errands : List Errand} (h : Culling origin p code s errands) (hq : origin.Doomed p q)
    (hc : c ∈ s.children q) : origin.Doomed p c := by
  obtain ⟨limit, hsound⟩ := h.sound
  obtain ⟨hlt, hparent, hlisted⟩ := mem_children_iff.1 hc
  have hold : c < origin.all.length := h.length ▸ (mem_children hc).2
  refine .inr ⟨?_, h.living c hold (hsound.isListed_iff.1 hlisted).2⟩
  rw [h.parents c hold] at hparent
  rcases hq with rfl | ⟨hdescends, -⟩
  · exact descendsFrom_iff.2 ⟨q, hparent, .inl rfl⟩
  · exact descendsFrom_iff.2 ⟨q, hparent, .inr ⟨hlt, hdescends⟩⟩

theorem Culling.step {origin s : Processes} {p : Nat} {code : Int} {errand : Errand}
    {rest : List Errand} (h : Culling origin p code s (errand :: rest))
    (hp : p < origin.all.length) (hheard : ∀ process ∈ origin.all, process.reactions = []) :
    Culling origin p code (s.step errand).2 ((s.step errand).1 ++ rest) := by
  have hcascading := h.toCascading.step hp
  obtain ⟨⟨q, hdoomed, horder⟩, hrest⟩ := List.forall_mem_cons.1 h.orders
  cases halive : s.isAlive q with
  | false =>
    have hfor : errand.doomed? = some q := by rcases horder with rfl | rfl <;> rfl
    rw [step_dead hfor halive] at hcascading ⊢
    exact ⟨hcascading, hrest, h.length, h.fates, h.deaths, h.frames⟩
  | true =>
    obtain ⟨process, hq, hliving⟩ := isAlive_iff.1 halive
    rcases horder with rfl | rfl
    · rw [step_kill halive] at hcascading ⊢
      refine ⟨hcascading, List.forall_mem_append.2 ⟨fun e he => ?_, hrest⟩, h.length, h.fates,
        h.deaths, h.frames⟩
      rcases List.mem_append.1 he with he | he
      · obtain ⟨c, hc, rfl⟩ := List.mem_map.1 he
        exact ⟨c, h.children_doomed hdoomed hc, .inl rfl⟩
      · exact ⟨q, hdoomed, .inr (List.mem_singleton.1 he)⟩
    · -- The living are still what they were when the kill was called.
      have horigin : origin.all[q]? = some process := by
        have hget := List.getElem?_eq_getElem (h.length ▸ isAlive_lt halive)
        rcases h.fates q _ hget with hsame | ⟨-, hcorpse⟩
        · rw [hget, ← hsame, hq]
        · obtain rfl := Option.some.inj (hq.symm.trans hcorpse)
          cases hliving
      have hsilent := hheard process (List.mem_of_getElem? horigin)
      rw [step_finish_alive hq hliving, hsilent] at hcascading ⊢
      refine ⟨hcascading, hrest, ?_, fun r other hr => ?_, ?_, ?_⟩
      · rw [bury_all, List.length_set, h.length]
      · rw [bury_all]
        by_cases hqr : q = r
        · subst hqr
          obtain rfl := Option.some.inj (hr.symm.trans horigin)
          refine .inr ⟨hdoomed, ?_⟩
          rw [List.getElem?_set_self (isAlive_lt halive), Process.corpse, hsilent]
        · rw [List.getElem?_set_ne hqr]
          exact h.fates r other hr
      · have hdeaths : (s.bury process q code).deaths = s.deaths := by
          simp only [bury, updateTable]
          split <;> rfl
        exact hdeaths.trans h.deaths
      · have hframes : (s.bury process q code).tables.map ProcessTable.frame =
            s.tables.map ProcessTable.frame :=
          map_updateTable _ _ _ fun table => by split <;> rfl
        exact hframes.trans h.frames

theorem Culling.later {origin : Processes} {p : Nat} {code : Int} {a b : Processes × List Errand}
    (h : Culling origin p code a.1 a.2) (hp : p < origin.all.length)
    (hheard : ∀ process ∈ origin.all, process.reactions = []) (hlater : Later a b) :
    Culling origin p code b.1 b.2 := by
  induction hlater with
  | refl => exact h
  | tail _ hnext ih =>
    cases hnext with
    | step s errand rest => exact ih.step hp hheard

theorem Calm.linked {limit : Nat} {s : Processes} {errands : List Errand} (h : s.Calm errands)
    (hsound : s.Sound limit) {p q : Nat} (hdescends : s.descendsFrom q p = true)
    (halive : s.isAlive q = true) : s.Linked p q := by
  refine hsound.linked_of_not_stray hdescends halive ?_
  simp only [Stray, not_or, not_not, not_exists, not_and, Bool.not_eq_false]
  exact ⟨Nat.not_le_of_lt (isAlive_lt halive), h.guarded.kept q (isAlive_lt halive),
    fun r hqr _ => h.ancestor_alive hqr halive⟩

theorem Culling.all_eq {origin s : Processes} {p : Nat} {code : Int} {limit : Nat}
    (h : Culling origin p code s []) (hsound : origin.Sound limit) (hcalm : origin.Calm [])
    (hp : origin.isAlive p = true) : s.all = (origin.cull p code).all := by
  refine List.ext_getElem? fun q => ?_
  rw [getElem?_cull]
  cases hq : origin.all[q]? with
  | none =>
    rw [Option.map_none, List.getElem?_eq_none_iff, h.length]
    exact List.getElem?_eq_none_iff.1 hq
  | some process =>
    rw [Option.map_some]
    split
    · rename_i hdoomed
      rcases h.fates q process hq with hsame | ⟨-, hcorpse⟩
      · -- It was alive, so it cannot be dead now and still the same.
        have halive : origin.isAlive q = true := by
          rcases hdoomed with rfl | ⟨-, halive⟩
          · exact hp
          · exact halive
        have hdead : s.isAlive q = false := by
          rcases hdoomed with rfl | ⟨hdescends, -⟩
          · exact h.dead_of_nil
          · exact h.linked_dead h.dead_of_nil (hcalm.linked hsound hdescends halive)
        rw [isAlive, hsame, ← hq] at hdead
        rw [isAlive, hdead] at halive
        cases halive
      · exact hcorpse
    · rename_i hspared
      exact (h.fates q process hq).resolve_right fun hdoomed => hspared hdoomed.1

theorem Culling.tables_eq {origin s : Processes} {p : Nat} {code : Int} {limit : Nat}
    (h : Culling origin p code s []) (hsound : origin.Sound limit)
    (hpresent : ∀ table ∈ origin.tables, table.present = true)
    (hall : s.all = (origin.cull p code).all) : s.tables = (origin.cull p code).tables := by
  obtain ⟨limit', hend⟩ := h.sound
  refine List.ext_getElem? fun t => ?_
  have hat := congrArg (·[t]?) h.frames
  simp only [List.getElem?_map] at hat
  rw [cull, List.getElem?_map]
  cases ht : origin.tables[t]? with
  | none =>
    rw [ht] at hat
    simpa using hat
  | some table =>
    rw [ht, Option.map_some] at hat
    obtain ⟨later, hlater, hframe⟩ := Option.map_eq_some_iff.1 hat
    have hkept := hpresent table (List.mem_of_getElem? ht)
    have hlisted : later.present = true := (congrArg ProcessTable.present hframe).trans hkept
    have hlives : ∀ pid place, s.Lives t pid place ↔
        origin.Lives t pid place ∧ ¬ origin.Doomed p place := by
      intro pid place
      rw [← lives_cull code, Lives, Lives, hall]
    rw [hlater, Option.map_some]
    exact congrArg some ((hsound.tallies t table ht hkept).eq_strike
      ((hend.tallies t later hlater hlisted).congr hlives) hframe)

theorem kill_dead {s : Processes} {p : Nat} (h : s.isAlive p = false) (code : Int) :
    s.kill p code = s := by
  rw [kill, run_cons, step_dead rfl h, List.nil_append, run_nil]

theorem Sound.holder_new {limit : Nat} {s s' : Processes} (h : s.Sound limit)
    (hpresent : ∀ table ∈ s.tables, table.present = true) (hages : s.Ages s') {t pid q holder : Nat}
    (hq : s.Lives t pid q) (hdead : s'.isAlive q = false) (hholder : s'.Lives t pid holder) :
    s.all.length ≤ holder := by
  by_contra hlt
  obtain ⟨new, hnew, hnewTable, halive, hnewPid⟩ := hholder
  obtain ⟨process, hprocess, htable, -, -⟩ := id hq
  have hget := List.getElem?_eq_getElem (Nat.lt_of_not_le hlt)
  obtain ⟨later, hlater, hlineage, -⟩ := hages holder _ hget
  obtain rfl := Option.some.inj (hnew.symm.trans hlater)
  simp only [Process.lineage, Prod.mk.injEq] at hlineage
  have hwas : s.isAlive holder = true :=
    hages.isAlive (Nat.lt_of_not_le hlt) (isAlive_iff.2 ⟨new, hnew, halive⟩)
  have hheld : s.Lives t pid holder := by
    obtain ⟨before, hbefore, hliving⟩ := isAlive_iff.1 hwas
    obtain rfl := Option.some.inj (hget.symm.trans hbefore)
    exact ⟨_, hbefore, hlineage.2.2.2.symm.trans hnewTable, hliving, hlineage.1.symm.trans hnewPid⟩
  have htallied : ∃ table, s.tables[t]? = some table :=
    ⟨_, List.getElem?_eq_getElem (htable ▸ h.table_lt q process hprocess)⟩
  obtain ⟨table, ht⟩ := htallied
  have htallies := h.tallies t table ht (hpresent table (List.mem_of_getElem? ht))
  obtain rfl := htallies.unique hheld hq
  rw [isAlive_iff.2 ⟨new, hnew, halive⟩] at hdead
  cases hdead

theorem Moment.kill_eq_cull {allowed : Call → Prop} {limit : Nat} {s : Processes}
    (h : Moment allowed limit s []) (hplain : ∀ c, allowed c → c.Plain) {p : Nat} (code : Int)
    (hp : s.isAlive p = true) : s.kill p code = s.cull p code := by
  have hunheard := h.unheard hplain
  have hstart : Culling s p code s [.kill p code] :=
    ⟨h.sound.cascading hp code, by simp [Doomed], rfl, fun _ _ hq => .inl hq, rfl, rfl⟩
  have hend := hstart.later (isAlive_lt hp) hunheard.reactions (later_run s _)
  have hall := hend.all_eq h.sound (h.calm fun c hc => (hplain c hc).quiet) hp
  have htables := hend.tables_eq h.sound hunheard.present hall
  have hdeaths := hend.deaths
  rw [kill]
  generalize s.run [.kill p code] = last at hall htables hdeaths ⊢
  cases last
  simp only [cull] at hall htables hdeaths ⊢
  rw [hall, htables, hdeaths]

theorem Moment.dead_of_doomed {allowed : Call → Prop} {limit : Nat} {s : Processes}
    (h : Moment allowed limit s []) (hplain : ∀ c, allowed c → c.Plain) {p q : Nat} (code : Int)
    (hdoomed : s.Doomed p q) (hq : s.isAlive q = true) : (s.kill p code).isAlive q = false := by
  have hp : s.isAlive p = true := by
    rcases hdoomed with rfl | ⟨hdescends, -⟩
    · exact hq
    · exact (h.calm fun c hc => (hplain c hc).quiet).ancestor_alive hdescends hq
  obtain ⟨process, hprocess, -⟩ := isAlive_iff.1 hq
  rw [h.kill_eq_cull hplain code hp, isAlive, getElem?_cull, hprocess, Option.map_some,
    if_pos hdoomed]
  rfl

/-- The footprint of a kill is exact, and a process that has one of the freed ids later on, whatever
has happened since, has none of the children of its old holder. -/
theorem Moment.kill_culls {allowed : Call → Prop} {limit : Nat} {s : Processes}
    (h : Moment allowed limit s []) (hplain : ∀ c, allowed c → c.Plain) (p : Nat) (code : Int) :
    Later (s, [.kill p code]) (s.kill p code, []) ∧
    (s.isAlive p = true → s.kill p code = s.cull p code) ∧
    (s.isAlive p = false → s.kill p code = s) ∧
    ∀ s' errands, Turns (s.kill p code, []) (s', errands) → ∀ t pid q holder, s.Doomed p q →
      s.Lives t pid q → s'.Lives t pid holder →
      holder ≠ q ∧ ∀ c, s.parentOf? c = some q ∨ s'.parentOf? c = some q →
        c ∉ s'.children holder := by
  refine ⟨later_run s _, h.kill_eq_cull hplain code, fun hdead => kill_dead hdead code,
    fun s' errands hlater t pid q holder hdoomed hq hholder => ?_⟩
  obtain ⟨process, hprocess, -, hliving, -⟩ := id hq
  have hqalive : s.isAlive q = true := isAlive_iff.2 ⟨process, hprocess, hliving⟩
  have hkilled := h.dead_of_doomed hplain code hdoomed hqalive
  have hsince : (s.kill p code).Ages s' := Ages.turns hlater
  have hkill : s.Ages (s.kill p code) := Ages.later (later_run s _)
  have hqlt := isAlive_lt hqalive
  have hdead : s'.isAlive q = false := by
    by_contra halive
    have hnot := hsince.isAlive (Nat.lt_of_lt_of_le hqlt hkill.length_le) (by simpa using halive)
    rw [hkilled] at hnot
    cases hnot
  have hnew :=
    h.sound.holder_new (h.unheard hplain).present (hkill.trans hsince) hq hdead hholder
  refine ⟨by omega, ?_⟩
  rintro c (hparent | hparent) hchild
  · -- Children come after their parents, and this one was there when the new holder was not.
    obtain ⟨child, hc, -⟩ := Option.bind_eq_some_iff.1 hparent
    have := (List.getElem?_eq_some_iff.1 hc).1
    have := (mem_children hchild).1
    omega
  · obtain ⟨-, hof, -⟩ := mem_children_iff.1 hchild
    rw [hparent, Option.some.injEq] at hof
    omega

def household : Processes :=
  let root : User := ⟨0, "root", .root, 0, "/root"⟩
  let init : Process := ⟨1, "init", root, none, 0, "/", [], true, 0, []⟩
  { all := [init, { init with pid := 2, parent := some 0 },
      { init with pid := 3, parent := some 1 },
      { init with pid := 4, parent := some 0, name := "other" }]
    tables := [⟨0, [(1, 0), (2, 1), (3, 2), (4, 3)], [], 5, 0, true⟩] }

theorem household_moment : Moment Call.Plain 4 household [] := by
  have h : Moment Call.Plain 4 {} [] := .start
  have h := h.call (.boot 0 [⟨0, "root", .root, 0, "/root"⟩]) (by simp [Call.Fair]) trivial
    (by decide)
  have h := h.call (.fork 0) trivial trivial (by decide)
  have h := h.call (.fork 1) trivial trivial (by decide)
  have h := h.call (.fork 0) trivial trivial (by decide)
  exact h.call (.setName 3 "other") trivial trivial (by decide)

/-- The sibling is spared, and the next one to be started has the id 2 of the process that was
killed but not its child. -/
theorem household_culled :
    Moment Call.Plain 4 household [] ∧ household.kill 1 3 = household.cull 1 3 ∧
    household.Doomed 1 2 ∧ ¬ household.Doomed 1 3 ∧
    ((household.kill 1 3).fork 0).2.pidOf 4 = household.pidOf 1 ∧
    household.parentOf? 2 = some 1 ∧ 2 ∉ ((household.kill 1 3).fork 0).2.children 4 := by
  obtain ⟨-, hculls, -, hlater⟩ := Moment.kill_culls household_moment (fun _ => id) 1 3
  have hkill : household.kill 1 3 = household.cull 1 3 := hculls rfl
  have hnew : ((household.kill 1 3).fork 0).2.Lives 0 2 4 :=
    ⟨⟨2, "init", ⟨0, "root", .root, 0, "/root"⟩, some 0, 0, "/", [], true, 0, []⟩, by cbv, rfl, rfl,
      rfl⟩
  refine ⟨household_moment, hkill, by cbv, by cbv; simp, by cbv, rfl, ?_⟩
  have hturn : Turns (household.kill 1 3, []) (((household.kill 1 3).fork 0).2, []) :=
    .single (.call _ (.fork 0) trivial)
  exact (hlater _ _ hturn 0 2 1 4 (.inl rfl) ⟨_, rfl, rfl, rfl, rfl⟩ hnew).2 2 (.inl rfl)

end Processes

end ToyUnix
