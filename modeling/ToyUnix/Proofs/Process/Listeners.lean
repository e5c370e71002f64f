import Mathlib
import ToyUnix.Proofs.Process.Ageing
import ToyUnix.Proofs.Process.Offspring

/-!
Listeners. A kill hands what a process has to run at its death over to the stack, and that may call
for more kills and register more listeners before the kill is over. Each listener gets a number when
it is registered, and an account beside the history tells on whose behalf every errand is run: what
is due to a listener, what is left of that on the stack, and what has been run of it make up one
course. Main statement: `Instant.listeners_once`.
-/

set_option autoImplicit false

namespace ToyUnix

/-- On whose behalf an errand is run. -/
inductive Share
  /-- A kill that spreads, or a process that is left to die of it. -/
  | death
  /-- A registration that was asked for from outside. -/
  | registration
  | listener (i : Nat)
  deriving DecidableEq, Repr

namespace Reaction

def next? : Reaction → Option Reaction
  | .done => none
  | .note _ next | .fork _ next | .forkAs _ _ next | .kill _ _ next | .listen _ _ next => some next

/-- A reaction and what is left of it step after step, to its end. -/
def course : Reaction → List Reaction
  | .done => [.done]
  | .note tag next => .note tag next :: next.course
  | .fork parent next => .fork parent next :: next.course
  | .forkAs parent user next => .forkAs parent user next :: next.course
  | .kill target code next => .kill target code next :: next.course
  | .listen target reaction next => .listen target reaction next :: next.course

end Reaction

namespace Errand

def course : Errand → List Errand
  | .react p reaction => reaction.course.map (.react p)
  | errand => [errand]

theorem course_react {p : Nat} {reaction next : Reaction} (h : reaction.next? = some next) :
    (Errand.react p reaction).course = .react p reaction :: (Errand.react p next).course := by
  cases reaction <;> cases h <;> rfl

def note? : Errand → Option (Nat × String)
  | .react p (.note tag _) => some (p, tag)
  | _ => none

end Errand

def ranFor (i : Nat) (runs : List (Errand × Share)) : List Errand :=
  (runs.filter fun run => run.2 = .listener i).map (·.1)

/-- What is still to come on behalf of a listener. -/
def dueFor (i : Nat) (runs : List (Errand × Share)) : List Errand :=
  (runs.filter fun run => run.2 = .listener i).flatMap (·.1.course)

section

variable {i : Nat}

@[simp] theorem dueFor_nil : dueFor i [] = [] := rfl

theorem dueFor_cons (errand : Errand) (share : Share) (runs : List (Errand × Share)) :
    dueFor i ((errand, share) :: runs) =
      (if share = .listener i then errand.course else []) ++ dueFor i runs := by
  by_cases hshare : share = .listener i <;> simp [dueFor, hshare]

theorem dueFor_append (runs more : List (Errand × Share)) :
    dueFor i (runs ++ more) = dueFor i runs ++ dueFor i more := by
  simp [dueFor]

theorem ranFor_snoc (runs : List (Errand × Share)) (errand : Errand) (share : Share) :
    ranFor i (runs ++ [(errand, share)]) =
      ranFor i runs ++ if share = .listener i then [errand] else [] := by
  by_cases hshare : share = .listener i <;> simp [ranFor, hshare]

end

namespace Processes

theorem Ages.gone {s s' : Processes} (h : s.Ages s') {q : Nat} (hq : s.Gone q) : s'.Gone q := by
  refine ⟨Nat.lt_of_lt_of_le hq.1 h.length_le, ?_⟩
  by_contra halive
  have hbefore := h.isAlive hq.1 (by simpa using halive)
  rw [hq.2] at hbefore
  cases hbefore

/-- A time of a history, and the account of the listeners up to then. -/
structure Instant where
  processes : Processes := {}
  errands : List Errand := []
  /-- On whose behalf each errand on the stack is run. -/
  shares : List Share := []
  /-- What has been run, in this order. -/
  runs : List (Errand × Share) := []
  /-- The process and the reaction of each listener, in the order of the registrations. -/
  posted : List (Nat × Reaction) := []
  /-- The listeners whose processes have not died. -/
  waiting : List Nat := []

def Call.shares : Call → List Share
  | .kill _ _ => [.death]
  | .onDeath _ _ => [.registration]
  | _ => []

namespace Instant

def listensTo (x : Instant) (p i : Nat) : Bool := (x.posted[i]?).any (·.1 = p)

def waitingOn (x : Instant) (p : Nat) : List Nat := x.waiting.filter (x.listensTo p)

def sharesOf (x : Instant) (share : Share) : Errand → List Share
  | .kill p code => (x.processes.step (.kill p code)).1.map fun _ => .death
  | .finish p _ => if x.processes.isAlive p then (x.waitingOn p).map .listener else []
  | .react _ .done => []
  | .react _ (.kill _ _ _) => [.death, share]
  | .react _ (.listen target _ _) =>
    match x.processes.all[target]? with
    | none => [share]
    | some process => if process.alive then [share] else [.listener x.posted.length, share]
  | .react _ _ => [share]

/-- The listeners after a step: a registration adds one, and a death has those that it concerns wait
no longer. -/
def heed (x : Instant) : Errand → List (Nat × Reaction) × List Nat
  | .finish p _ =>
    if x.processes.isAlive p then (x.posted, x.waiting.filter fun i => !x.listensTo p i)
    else (x.posted, x.waiting)
  | .react _ (.listen target reaction _) =>
    match x.processes.all[target]? with
    | none => (x.posted, x.waiting)
    | some process =>
      (x.posted ++ [(target, reaction)],
        if process.alive then x.waiting ++ [x.posted.length] else x.waiting)
  | _ => (x.posted, x.waiting)

def step (x : Instant) : Instant :=
  match x.errands with
  | [] => x
  | errand :: rest =>
    let share := x.shares.headD .death
    { processes := (x.processes.step errand).2
      errands := (x.processes.step errand).1 ++ rest
      shares := x.sharesOf share errand ++ x.shares.tail
      runs := x.runs ++ [(errand, share)]
      posted := (x.heed errand).1
      waiting := (x.heed errand).2 }

def call (x : Instant) (c : Call) : Instant :=
  { x with
    processes := (c.begin x.processes).2
    errands := (c.begin x.processes).1
    shares := c.shares }

inductive Moves : Instant → Instant → Prop
  | call (x : Instant) (c : Call) : x.errands = [] → c.Fair → Moves x (x.call c)
  | step (x : Instant) : Moves x x.step

abbrev Leads : Instant → Instant → Prop := Relation.ReflTransGen Moves

/-! The account does not interfere. -/

theorem Leads.turns {x y : Instant} (h : Leads x y) :
    Turns (x.processes, x.errands) (y.processes, y.errands) := by
  induction h with
  | refl => exact .refl
  | tail _ hmoves ih =>
    cases hmoves with
    | call c hidle hfair =>
      rw [hidle] at ih
      exact ih.tail (.call _ c hfair)
    | step =>
      unfold step
      split
      · exact ih
      · rename_i errand rest heq
        rw [heq] at ih
        exact ih.tail (.step _ errand rest)

theorem step_next {x : Instant} {s : Processes} {errand : Errand} {errands : List Errand}
    (hprocesses : x.processes = s) (herrands : x.errands = errand :: errands) :
    x.step.processes = (s.step errand).2 ∧ x.step.errands = (s.step errand).1 ++ errands := by
  subst hprocesses
  simp only [step, herrands, and_self]

theorem exists_leads {b : Processes × List Errand} (h : Turns ({}, []) b) :
    ∃ x, Leads {} x ∧ x.processes = b.1 ∧ x.errands = b.2 := by
  induction h with
  | refl => exact ⟨{}, .refl, rfl, rfl⟩
  | tail _ hturn ih =>
    obtain ⟨x, hx, hprocesses, herrands⟩ := ih
    cases hturn with
    | call s c hfair =>
      obtain rfl : x.processes = s := hprocesses
      exact ⟨x.call c, hx.tail (.call x c herrands hfair), rfl, rfl⟩
    | step s errand rest => exact ⟨x.step, hx.tail (.step x), step_next hprocesses herrands⟩

theorem exists_iterate {x : Instant} {b : Processes × List Errand}
    (h : Later (x.processes, x.errands) b) :
    ∃ n, (Instant.step^[n] x).processes = b.1 ∧ (Instant.step^[n] x).errands = b.2 := by
  induction h with
  | refl => exact ⟨0, rfl, rfl⟩
  | tail _ hnext ih =>
    obtain ⟨n, hprocesses, herrands⟩ := ih
    cases hnext with
    | step s errand rest =>
      refine ⟨n + 1, ?_⟩
      rw [Function.iterate_succ_apply']
      exact step_next hprocesses herrands

/-! What holds of the account. -/

/-- What is run on behalf of a death is a kill or its end, and a registration is the call itself or
the rest of that. Whatever else is run is something of a listener, and its process is dead. -/
def Fits (x : Instant) (errand : Errand) : Share → Prop
  | .death => (∃ p code, errand = .kill p code) ∨ ∃ p code, errand = .finish p code
  | .registration =>
    ∃ p, errand = .react p .done ∨ ∃ reaction, errand = .react p (.listen p reaction .done)
  | .listener i => ∃ p reaction left, x.posted[i]? = some (p, reaction) ∧ errand = .react p left ∧
      x.processes.Gone p

def courseOf (x : Instant) (i : Nat) : List Errand :=
  match x.posted[i]? with
  | some (p, reaction) => (Errand.react p reaction).course
  | none => []

/-- What a listener has to do and is not to do yet. -/
def awaitedBy (x : Instant) (i : Nat) : List Errand :=
  (x.waiting.filter (· = i)).flatMap fun _ => x.courseOf i

/-- A note of the death of a process that is dead for good. -/
structure Tells (s : Processes) (note : DeathNote) (entry : Nat × String) : Prop where
  gone : s.Gone entry.1
  tag : note.tag = entry.2
  pid : note.pid = s.pidOf entry.1
  code : s.all[entry.1]?.map (·.exitCode) = some note.code
  alive : note.alive = false

structure Attended (x : Instant) : Prop where
  /-- The reactions that processes have are those of the listeners that wait for them. -/
  reactions : ∀ (p : Nat) process, x.processes.all[p]? = some process →
    List.Forall₂ (fun reaction i => x.posted[i]? = some (p, reaction)) process.reactions
      (x.waitingOn p)
  living : ∀ i ∈ x.waiting, ∃ p reaction, x.posted[i]? = some (p, reaction) ∧
    x.processes.isAlive p = true

structure Orderly (x : Instant) : Prop extends Attended x where
  fits : List.Forall₂ x.Fits x.errands x.shares
  past : ∀ run ∈ x.runs, x.Fits run.1 run.2
  /-- What has been run, what is on the stack and what is not due yet make up a listener. -/
  balance : ∀ i, ranFor i x.runs ++ dueFor i (x.errands.zip x.shares) ++ x.awaitedBy i =
    x.courseOf i
  notes : List.Forall₂ (Tells x.processes) x.processes.deaths
    (x.runs.filterMap fun run => run.1.note?)

/-! Who waits for whom. -/

variable {x y : Instant}

theorem waitingOn_congr (hposted : y.posted = x.posted) (hwaiting : y.waiting = x.waiting)
    (p : Nat) : y.waitingOn p = x.waitingOn p := by
  unfold waitingOn listensTo
  rw [hposted, hwaiting]

theorem mem_waitingOn {p i : Nat} :
    i ∈ x.waitingOn p ↔ i ∈ x.waiting ∧ ∃ reaction, x.posted[i]? = some (p, reaction) := by
  simp [waitingOn, listensTo, Option.any_eq_true]

theorem Attended.waitingOn_eq_nil (h : x.Attended) {p : Nat}
    (hp : ¬ x.processes.isAlive p = true) : x.waitingOn p = [] := by
  refine List.eq_nil_iff_forall_not_mem.2 fun i hi => hp ?_
  obtain ⟨hwaiting, reaction, hposted⟩ := mem_waitingOn.1 hi
  obtain ⟨q, other, hother, halive⟩ := h.living i hwaiting
  obtain ⟨rfl, -⟩ := Prod.mk.inj (Option.some.inj (hposted.symm.trans hother))
  exact halive

theorem Attended.of_alters (h : x.Attended) (hposted : y.posted = x.posted)
    (hwaiting : y.waiting = x.waiting) (halters : x.processes.Alters y.processes) :
    y.Attended := by
  have hliving : ∀ {p : Nat}, x.processes.isAlive p = true → y.processes.isAlive p = true := by
    intro p halive
    cases halters with
    | same hall => exact (isAlive_congr (by rw [hall]) p).trans halive
    | born process _ _ hall => exact (isAlive_append hall).2 (.inl halive)
    | amended q before after hq hid _ _ hall =>
      exact (isAlive_congr (by rw [hall, map_set_of_eq hq hid]) p).trans halive
  refine ⟨fun p process hp => ?_, fun i hi => ?_⟩
  · rw [waitingOn_congr hposted hwaiting, hposted]
    cases halters with
    | same hall => exact h.reactions p process (hall ▸ hp)
    | born born hborn _ hall =>
      rw [hall] at hp
      rcases getElem?_snoc.1 hp with hold | ⟨rfl, rfl⟩
      · exact h.reactions p process hold
      · rw [hborn, h.waitingOn_eq_nil fun halive => Nat.lt_irrefl _ (isAlive_lt halive)]
        exact .nil
    | amended q before after hq _ _ hreactions hall =>
      rw [hall, List.getElem?_set] at hp
      split at hp
      · rename_i hqp
        subst hqp
        split at hp
        · obtain rfl := Option.some.inj hp
          exact hreactions ▸ h.reactions q before hq
        · cases hp
      · exact h.reactions p process hp
  · obtain ⟨p, reaction, hget, halive⟩ := h.living i (hwaiting ▸ hi)
    exact ⟨p, reaction, hposted ▸ hget, hliving halive⟩

theorem Attended.bury (h : x.Attended) {p : Nat} {process : Process} {code : Int}
    (hp : x.processes.all[p]? = some process) (hposted : y.posted = x.posted)
    (hwaiting : y.waiting = x.waiting.filter fun i => !x.listensTo p i)
    (hprocesses : y.processes = x.processes.bury process p code) : y.Attended := by
  have hothers : ∀ q, y.waitingOn q = if q = p then [] else x.waitingOn q := by
    intro q
    unfold waitingOn
    rw [hwaiting, List.filter_filter]
    split
    · rename_i hqp
      subst hqp
      simp [listensTo, hposted]
    · rename_i hqp
      refine List.filter_congr fun i _ => ?_
      unfold listensTo
      rw [hposted]
      cases x.posted[i]? with
      | none => rfl
      | some entry =>
        by_cases hentry : entry.1 = q
        · simp [hentry, hqp]
        · simp [hentry]
  refine ⟨fun q other hq => ?_, fun i hi => ?_⟩
  · rw [hothers, hposted]
    rw [hprocesses, bury_all, List.getElem?_set] at hq
    by_cases hqp : q = p
    · subst hqp
      rw [if_pos rfl, if_pos (List.getElem?_eq_some_iff.1 hp).1, Option.some.injEq] at hq
      rw [if_pos rfl, ← hq]
      exact .nil
    · rw [if_neg (Ne.symm hqp)] at hq
      rw [if_neg hqp]
      exact h.reactions q other hq
  · rw [hwaiting, List.mem_filter] at hi
    obtain ⟨q, reaction, hget, halive⟩ := h.living i hi.1
    refine ⟨q, reaction, hposted ▸ hget, ?_⟩
    have hqp : q ≠ p := by
      rintro rfl
      simp [listensTo, hget] at hi
    rw [hprocesses]
    exact isAlive_bury.2 ⟨hqp, halive⟩

theorem Attended.post (h : x.Attended) {entry : Nat × Reaction}
    (hposted : y.posted = x.posted ++ [entry]) (hwaiting : y.waiting = x.waiting)
    (hprocesses : y.processes = x.processes) : y.Attended := by
  have hold : ∀ i ∈ x.waiting, y.posted[i]? = x.posted[i]? := by
    intro i hi
    obtain ⟨p, reaction, hget, -⟩ := h.living i hi
    rw [hposted, List.getElem?_append_left (List.getElem?_eq_some_iff.1 hget).1]
  have hsame : ∀ p, y.waitingOn p = x.waitingOn p := by
    intro p
    unfold waitingOn
    rw [hwaiting]
    exact List.filter_congr fun i hi => by rw [listensTo, listensTo, hold i hi]
  refine ⟨fun p process hp => ?_, fun i hi => ?_⟩
  · rw [hsame]
    refine (h.reactions p process (hprocesses ▸ hp)).imp fun reaction i hget => ?_
    rw [hposted, List.getElem?_append_left (List.getElem?_eq_some_iff.1 hget).1, hget]
  · rw [hwaiting] at hi
    rw [hold i hi, hprocesses]
    exact h.living i hi

theorem Attended.wait (h : x.Attended) {p i : Nat} {process : Process} {reaction : Reaction}
    (hp : x.processes.all[p]? = some process) (halive : process.alive = true)
    (hi : x.posted[i]? = some (p, reaction)) (hposted : y.posted = x.posted)
    (hwaiting : y.waiting = x.waiting ++ [i])
    (hall : y.processes.all = x.processes.all.set p
      { process with reactions := process.reactions ++ [reaction] }) : y.Attended := by
  have hliving : ∀ q, y.processes.isAlive q = x.processes.isAlive q := fun q =>
    isAlive_congr (by rw [hall]; exact map_set_of_eq hp rfl) q
  have hmore : ∀ q, y.waitingOn q = if q = p then x.waitingOn q ++ [i] else x.waitingOn q := by
    intro q
    unfold waitingOn
    rw [hwaiting, List.filter_append]
    have hsame : y.listensTo q = x.listensTo q := by
      unfold listensTo
      rw [hposted]
    rw [hsame]
    split
    · rename_i hqp
      simp [listensTo, hi, hqp]
    · rename_i hqp
      simp [listensTo, hi, Ne.symm hqp]
  refine ⟨fun q other hq => ?_, fun j hj => ?_⟩
  · rw [hmore, hposted]
    rw [hall, List.getElem?_set] at hq
    by_cases hqp : q = p
    · subst hqp
      rw [if_pos rfl, if_pos (List.getElem?_eq_some_iff.1 hp).1, Option.some.injEq] at hq
      rw [if_pos rfl, ← hq]
      exact List.rel_append (h.reactions q process hp) (.cons hi .nil)
    · rw [if_neg (Ne.symm hqp)] at hq
      rw [if_neg hqp]
      exact h.reactions q other hq
  · rw [hwaiting, List.mem_append, List.mem_singleton] at hj
    rcases hj with hj | rfl
    · obtain ⟨q, other, hget, hlive⟩ := h.living j hj
      exact ⟨q, other, hposted ▸ hget, (hliving q).trans hlive⟩
    · exact ⟨p, reaction, hposted ▸ hi, (hliving p).trans (isAlive_iff.2 ⟨process, hp, halive⟩)⟩

theorem Attended.step (h : x.Attended) {errand : Errand} (hposted : y.posted = (x.heed errand).1)
    (hwaiting : y.waiting = (x.heed errand).2)
    (hprocesses : y.processes = (x.processes.step errand).2) : y.Attended := by
  cases errand with
  | kill p code =>
    refine h.of_alters hposted hwaiting (.same ?_)
    rw [hprocesses]
    simp only [Processes.step]
    split <;> rfl
  | finish p code =>
    cases halive : x.processes.isAlive p with
    | false =>
      rw [step_dead rfl halive] at hprocesses
      simp only [heed, halive, Bool.false_eq_true, if_false] at hposted hwaiting
      exact h.of_alters hposted hwaiting (.same (congrArg Processes.all hprocesses))
    | true =>
      obtain ⟨process, hp, hliving⟩ := isAlive_iff.1 halive
      rw [step_finish_alive hp hliving] at hprocesses
      simp only [heed, halive, if_true] at hposted hwaiting
      exact h.bury hp hposted hwaiting hprocesses
  | react p reaction =>
    cases reaction with
    | listen target reaction next =>
      simp only [heed] at hposted hwaiting
      simp only [Processes.step] at hprocesses
      cases htarget : x.processes.all[target]? with
      | none =>
        simp only [htarget] at hposted hwaiting hprocesses
        exact h.of_alters hposted hwaiting (.same (congrArg Processes.all hprocesses))
      | some process =>
        simp only [htarget] at hposted hwaiting hprocesses
        have hmore : Attended { x with posted := x.posted ++ [(target, reaction)] } :=
          h.post rfl rfl rfl
        cases halive : process.alive with
        | false =>
          simp only [halive, Bool.false_eq_true, if_false] at hwaiting hprocesses
          exact h.post hposted hwaiting hprocesses
        | true =>
          rw [if_pos halive] at hwaiting hprocesses
          exact hmore.wait htarget halive List.getElem?_concat_length hposted hwaiting
            (congrArg Processes.all hprocesses)
    | fork parent next =>
      exact h.of_alters hposted hwaiting (hprocesses ▸ fork_alters x.processes parent)
    | forkAs parent user next =>
      exact h.of_alters hposted hwaiting (hprocesses ▸ forkAs_alters x.processes parent user)
    | _ => exact h.of_alters hposted hwaiting (.same (by rw [hprocesses]; rfl))

/-! On whose behalf what is on the stack is run. -/

theorem posted_heed (x : Instant) (errand : Errand) {i : Nat} {entry : Nat × Reaction}
    (hi : x.posted[i]? = some entry) : (x.heed errand).1[i]? = some entry := by
  unfold heed
  split
  · split <;> exact hi
  · split
    · exact hi
    · exact (List.getElem?_append_left (List.getElem?_eq_some_iff.1 hi).1).trans hi
  · exact hi

theorem Fits.mono {errand : Errand} {share : Share} (h : x.Fits errand share)
    (hposted : ∀ (i : Nat) entry, x.posted[i]? = some entry → y.posted[i]? = some entry)
    (hages : x.processes.Ages y.processes) : y.Fits errand share := by
  cases share with
  | death => exact h
  | registration => exact h
  | listener i =>
    obtain ⟨p, reaction, left, hget, heq, hgone⟩ := h
    exact ⟨p, reaction, left, hposted i _ hget, heq, hages.gone hgone⟩

theorem Fits.next {p : Nat} {reaction next : Reaction} {share : Share}
    (h : x.Fits (.react p reaction) share) (hnext : reaction.next? = some next) :
    x.Fits (.react p next) share := by
  cases share with
  | death => rcases h with ⟨q, code, heq⟩ | ⟨q, code, heq⟩ <;> cases heq
  | registration =>
    obtain ⟨q, heq | ⟨other, heq⟩⟩ := h
    · cases heq
      cases hnext
    · cases heq
      cases hnext
      exact ⟨p, .inl rfl⟩
  | listener i =>
    obtain ⟨q, whole, left, hget, heq, hgone⟩ := h
    cases heq
    exact ⟨p, whole, next, hget, rfl, hgone⟩

theorem fits_kill (x : Instant) (s : Processes) (p : Nat) (code : Int) :
    List.Forall₂ x.Fits (s.step (.kill p code)).1
      ((s.step (.kill p code)).1.map fun _ => .death) := by
  have hdeath : ∀ errand ∈ (s.step (.kill p code)).1, x.Fits errand .death := by
    intro errand hmem
    simp only [Processes.step] at hmem
    split at hmem
    · rcases List.mem_append.1 hmem with hmem | hmem
      · obtain ⟨child, -, rfl⟩ := List.mem_map.1 hmem
        exact .inl ⟨child, code, rfl⟩
      · obtain rfl := List.mem_singleton.1 hmem
        exact .inr ⟨p, code, rfl⟩
    · cases hmem
  rw [List.forall₂_map_right_iff, List.forall₂_same]
  exact hdeath

theorem Orderly.fits_sharesOf (h : x.Orderly) {errand : Errand} {share : Share}
    (hfit : x.Fits errand share) (hposted : y.posted = (x.heed errand).1)
    (hprocesses : y.processes = (x.processes.step errand).2) :
    List.Forall₂ y.Fits (x.processes.step errand).1 (x.sharesOf share errand) := by
  have hages : x.processes.Ages y.processes := hprocesses ▸ .step x.processes errand
  have hkept : ∀ {errand : Errand} {share : Share}, x.Fits errand share → y.Fits errand share :=
    fun hfits => hfits.mono (fun i entry hi => hposted ▸ posted_heed x _ hi) hages
  cases errand with
  | kill p code => exact fits_kill y x.processes p code
  | finish p code =>
    simp only [sharesOf]
    cases halive : x.processes.isAlive p with
    | false =>
      rw [step_dead rfl halive]
      exact .nil
    | true =>
      obtain ⟨process, hp, hliving⟩ := isAlive_iff.1 halive
      rw [step_finish_alive hp hliving] at hprocesses ⊢
      simp only [heed, halive, if_true] at hposted
      have hgone : y.processes.Gone p := by
        refine ⟨Nat.lt_of_lt_of_le (isAlive_lt halive) hages.length_le, ?_⟩
        by_contra hstill
        rw [hprocesses] at hstill
        exact (isAlive_bury.1 (by simpa using hstill)).1 rfl
      rw [if_pos rfl, List.forall₂_map_left_iff, List.forall₂_map_right_iff]
      exact (h.reactions p process hp).imp fun reaction i hget =>
        ⟨p, reaction, reaction, hposted ▸ hget, rfl, hgone⟩
  | react p reaction =>
    cases reaction with
    | done => exact .nil
    | kill target code next =>
      exact .cons (.inl ⟨target, code, rfl⟩) (.cons (hkept (hfit.next rfl)) .nil)
    | listen target reaction next =>
      have hnext : y.Fits (.react p next) share := hkept (hfit.next rfl)
      simp only [sharesOf, Processes.step] at hprocesses ⊢
      simp only [heed] at hposted
      cases htarget : x.processes.all[target]? with
      | none => exact .cons hnext .nil
      | some process =>
        simp only [htarget] at hprocesses hposted
        cases halive : process.alive with
        | true =>
          simp only [halive, if_true]
          exact .cons hnext .nil
        | false =>
          simp only [halive, Bool.false_eq_true, if_false]
          refine .cons ⟨target, reaction, reaction, ?_, rfl, ?_⟩ (.cons hnext .nil)
          · rw [hposted, List.getElem?_concat_length]
          · refine hages.gone ⟨(List.getElem?_eq_some_iff.1 htarget).1, ?_⟩
            rw [isAlive, htarget]
            exact halive
    | _ => exact .cons (hkept (hfit.next rfl)) .nil

/-! What is run, what is due and what is not due yet. -/

theorem filter_eq_nil_of_not_mem {numbers : List Nat} {i : Nat} (h : i ∉ numbers) :
    numbers.filter (· = i) = [] := by
  refine List.filter_eq_nil_iff.2 fun j hj hji => h ?_
  rwa [of_decide_eq_true hji] at hj

theorem courseOf_congr {i : Nat} (h : y.posted[i]? = x.posted[i]?) :
    y.courseOf i = x.courseOf i := by
  unfold courseOf
  rw [h]

theorem awaitedBy_congr {i : Nat} (hposted : y.posted[i]? = x.posted[i]?)
    (hwaiting : y.waiting.filter (· = i) = x.waiting.filter (· = i)) :
    y.awaitedBy i = x.awaitedBy i := by
  unfold awaitedBy
  rw [hwaiting, courseOf_congr hposted]

theorem awaitedBy_eq_nil {i : Nat} (h : i ∉ x.waiting) : x.awaitedBy i = [] := by
  rw [awaitedBy, filter_eq_nil_of_not_mem h, List.flatMap_nil]

theorem dueFor_called {p i : Nat} {reactions : List Reaction} {called : List Nat}
    (h : List.Forall₂ (fun reaction j => x.posted[j]? = some (p, reaction)) reactions called) :
    dueFor i ((reactions.map (.react p)).zip (called.map .listener)) =
      (called.filter (· = i)).flatMap fun _ => x.courseOf i := by
  induction h with
  | nil => rfl
  | @cons reaction j reactions called hget _ ih =>
    rw [List.map_cons, List.map_cons, List.zip_cons_cons, dueFor_cons, ih]
    by_cases hj : j = i
    · subst hj
      simp [courseOf, hget]
    · simp [hj]

/-- A listener that waits has not been run, and nothing of it is on the stack. -/
theorem Orderly.resting (h : x.Orderly) {i : Nat} (hi : i ∈ x.waiting) :
    ranFor i x.runs = [] ∧ dueFor i (x.errands.zip x.shares) = [] ∧
      x.awaitedBy i = x.courseOf i := by
  obtain ⟨before, after, hwaiting⟩ := List.append_of_mem hi
  have hbalance := h.balance i
  have hlength := congrArg List.length hbalance
  have hawaited : (x.courseOf i).length ≤ (x.awaitedBy i).length := by
    simp only [awaitedBy, hwaiting, List.filter_append, List.filter_cons, decide_true, if_true,
      List.flatMap_append, List.flatMap_cons, List.length_append]
    omega
  simp only [List.length_append] at hlength
  have hran : ranFor i x.runs = [] := List.eq_nil_of_length_eq_zero (by omega)
  have hdue : dueFor i (x.errands.zip x.shares) = [] := List.eq_nil_of_length_eq_zero (by omega)
  rw [hran, hdue] at hbalance
  exact ⟨hran, hdue, hbalance⟩

theorem Orderly.unposted (h : x.Orderly) {i : Nat} (hi : x.posted[i]? = none) :
    ranFor i x.runs = [] ∧ dueFor i (x.errands.zip x.shares) = [] ∧ i ∉ x.waiting := by
  have hbalance := h.balance i
  have hcourse : x.courseOf i = [] := by rw [courseOf, hi]
  rw [hcourse, List.append_eq_nil_iff, List.append_eq_nil_iff] at hbalance
  refine ⟨hbalance.1.1, hbalance.1.2, fun hwaiting => ?_⟩
  obtain ⟨p, reaction, hget, -⟩ := h.living i hwaiting
  rw [hi] at hget
  cases hget

theorem dueFor_death (i : Nat) (errands : List Errand) :
    dueFor i (errands.zip (errands.map fun _ => .death)) = [] := by
  induction errands with
  | nil => rfl
  | cons errand errands ih =>
    rw [List.map_cons, List.zip_cons_cons, dueFor_cons, if_neg nofun, ih, List.append_nil]

theorem dueFor_next (i p : Nat) {reaction next : Reaction} (share : Share)
    (hnext : reaction.next? = some next) :
    (if share = .listener i then [.react p reaction] else []) ++
        dueFor i [(.react p next, share)] =
      if share = .listener i then (Errand.react p reaction).course else [] := by
  rw [dueFor_cons, dueFor_nil, List.append_nil, Errand.course_react hnext]
  split <;> rfl

/-- Where a step does not concern a listener, its account is right as before. -/
theorem Orderly.balance_same (h : x.Orderly) {errand : Errand} {share : Share}
    {errands : List Errand} {shares : List Share} (herrands : x.errands = errand :: errands)
    (hshares : x.shares = share :: shares) {i : Nat} {left : List (Errand × Share)}
    (hleft : (if share = .listener i then [errand] else []) ++ dueFor i left =
      if share = .listener i then errand.course else [])
    (hcourse : y.courseOf i = x.courseOf i) (hawaited : y.awaitedBy i = x.awaitedBy i) :
    ranFor i (x.runs ++ [(errand, share)]) ++ dueFor i (left ++ errands.zip shares) ++
      y.awaitedBy i = y.courseOf i := by
  have hbalance := h.balance i
  rw [herrands, hshares, List.zip_cons_cons, dueFor_cons, ← hleft] at hbalance
  rw [hcourse, hawaited, ← hbalance, ranFor_snoc, dueFor_append]
  simp only [List.append_assoc]

theorem Orderly.balance_finish (h : x.Orderly) {p : Nat} {code : Int} {share : Share}
    {errands : List Errand} {shares : List Share}
    (herrands : x.errands = .finish p code :: errands) (hshares : x.shares = share :: shares)
    (hshare : ∀ i, share ≠ .listener i) {process : Process}
    (hp : x.processes.all[p]? = some process) (hposted : y.posted = x.posted)
    (hwaiting : y.waiting = x.waiting.filter fun i => !x.listensTo p i) (i : Nat) :
    ranFor i (x.runs ++ [(.finish p code, share)]) ++
        dueFor i ((process.reactions.map (.react p)).zip ((x.waitingOn p).map .listener) ++
          errands.zip shares) ++ y.awaitedBy i = y.courseOf i := by
  have hcourse : y.courseOf i = x.courseOf i := courseOf_congr (by rw [hposted])
  have hcalled := dueFor_called (i := i) (h.reactions p process hp)
  by_cases hi : i ∈ x.waitingOn p
  · -- It had not begun, and now all of it is due.
    obtain ⟨hwaits, hlistens⟩ := List.mem_filter.1 hi
    obtain ⟨hran, hdue, hawaited⟩ := h.resting hwaits
    rw [herrands, hshares, List.zip_cons_cons, dueFor_cons, List.append_eq_nil_iff] at hdue
    have hall : (x.waitingOn p).filter (· = i) = x.waiting.filter (· = i) := by
      rw [waitingOn, List.filter_filter]
      refine List.filter_congr fun j _ => ?_
      by_cases hj : j = i <;> simp [hj, hlistens]
    have hout : i ∉ y.waiting := by
      rw [hwaiting, List.mem_filter]
      rintro ⟨-, hnot⟩
      rw [hlistens] at hnot
      cases hnot
    rw [hall, ← awaitedBy, hawaited] at hcalled
    rw [ranFor_snoc, hran, if_neg (hshare i), dueFor_append, hdue.2, hcalled,
      awaitedBy_eq_nil hout, hcourse]
    simp only [List.nil_append, List.append_nil]
  · have hnone : (x.waitingOn p).filter (· = i) = [] := filter_eq_nil_of_not_mem hi
    have hsame : y.waiting.filter (· = i) = x.waiting.filter (· = i) := by
      rw [hwaiting, List.filter_filter]
      refine List.filter_congr fun j hj => ?_
      by_cases hji : j = i
      · subst hji
        simpa [waitingOn, hj] using hi
      · simp [hji]
    refine h.balance_same herrands hshares ?_ hcourse (awaitedBy_congr (by rw [hposted]) hsame)
    rw [hcalled, hnone, if_neg (hshare i), if_neg (hshare i)]
    rfl

theorem Orderly.balance_listen (h : x.Orderly) {p target : Nat} {reaction next : Reaction}
    {share : Share} {errands : List Errand} {shares : List Share}
    (herrands : x.errands = .react p (.listen target reaction next) :: errands)
    (hshares : x.shares = share :: shares) {process : Process}
    (hfit : x.Fits (.react p (.listen target reaction next)) share)
    (hposted : y.posted = x.posted ++ [(target, reaction)])
    (hwaiting : y.waiting =
      if process.alive then x.waiting ++ [x.posted.length] else x.waiting) (i : Nat) :
    ranFor i (x.runs ++ [(.react p (.listen target reaction next), share)]) ++
        dueFor i ((if process.alive then [(.react p next, share)]
          else [(.react target reaction, .listener x.posted.length), (.react p next, share)]) ++
          errands.zip shares) ++ y.awaitedBy i = y.courseOf i := by
  by_cases hi : i = x.posted.length
  · subst hi
    have hfresh : x.posted[x.posted.length]? = none := List.getElem?_eq_none_iff.2 (Nat.le_refl _)
    obtain ⟨hran, hdue, hwaits⟩ := h.unposted hfresh
    rw [herrands, hshares, List.zip_cons_cons, dueFor_cons, List.append_eq_nil_iff] at hdue
    have hcourse : y.courseOf x.posted.length = (Errand.react target reaction).course := by
      rw [courseOf, hposted, List.getElem?_concat_length]
    have hshare : share ≠ .listener x.posted.length := by
      rintro rfl
      obtain ⟨q, whole, left, hget, -⟩ := hfit
      rw [hfresh] at hget
      cases hget
    have hno : x.waiting.filter (· = x.posted.length) = [] := filter_eq_nil_of_not_mem hwaits
    rw [ranFor_snoc, hran, if_neg hshare, dueFor_append, hdue.2, awaitedBy, hwaiting, hcourse]
    cases process.alive with
    | true => simp [dueFor_cons, hshare, hno]
    | false => simp [dueFor_cons, hshare, hno]
  · have hold : y.posted[i]? = x.posted[i]? := by
      rw [hposted]
      by_cases hlt : i < x.posted.length
      · exact List.getElem?_append_left hlt
      · rw [List.getElem?_eq_none_iff.2 (by simp; omega), List.getElem?_eq_none_iff.2 (by omega)]
    have hsame : y.waiting.filter (· = i) = x.waiting.filter (· = i) := by
      rw [hwaiting]
      split
      · rw [List.filter_append, List.filter_cons, if_neg (by simpa using Ne.symm hi),
          List.filter_nil, List.append_nil]
      · rfl
    refine h.balance_same herrands hshares ?_ (courseOf_congr hold) (awaitedBy_congr hold hsame)
    have hnext : (Reaction.listen target reaction next).next? = some next := rfl
    rw [← dueFor_next i p share hnext]
    cases process.alive with
    | true => rfl
    | false =>
      have hother : Share.listener x.posted.length ≠ .listener i := fun heq =>
        hi (Share.listener.inj heq).symm
      rw [if_neg Bool.false_ne_true, dueFor_cons, if_neg hother, List.nil_append]

theorem Orderly.balance_step (h : x.Orderly) {errand : Errand} {share : Share}
    {errands : List Errand} {shares : List Share} (herrands : x.errands = errand :: errands)
    (hshares : x.shares = share :: shares) (hfit : x.Fits errand share)
    (hposted : y.posted = (x.heed errand).1) (hwaiting : y.waiting = (x.heed errand).2) (i : Nat) :
    ranFor i (x.runs ++ [(errand, share)]) ++
        dueFor i ((x.processes.step errand).1.zip (x.sharesOf share errand) ++
          errands.zip shares) ++ y.awaitedBy i = y.courseOf i := by
  -- What is no reaction is no listener's.
  have hdoomed : ∀ {q : Nat}, errand.doomed? = some q → ∀ j, share ≠ .listener j := by
    rintro q hq j rfl
    obtain ⟨p, reaction, left, -, rfl, -⟩ := hfit
    cases hq
  have hsame : ∀ {left : List (Errand × Share)}, x.heed errand = (x.posted, x.waiting) →
      ((if share = .listener i then [errand] else []) ++ dueFor i left =
        if share = .listener i then errand.course else []) →
      ranFor i (x.runs ++ [(errand, share)]) ++ dueFor i (left ++ errands.zip shares) ++
        y.awaitedBy i = y.courseOf i := by
    intro left hheed hleft
    rw [hheed] at hposted hwaiting
    exact h.balance_same herrands hshares hleft (courseOf_congr (by rw [hposted]))
      (awaitedBy_congr (by rw [hposted]) (by rw [hwaiting]))
  cases errand with
  | kill p code =>
    refine hsame rfl ?_
    rw [sharesOf, dueFor_death, if_neg (hdoomed rfl i), if_neg (hdoomed rfl i), List.append_nil]
  | finish p code =>
    cases halive : x.processes.isAlive p with
    | false =>
      rw [step_dead rfl halive]
      refine hsame (by simp [heed, halive]) ?_
      rw [if_neg (hdoomed rfl i), if_neg (hdoomed rfl i), List.zip_nil_left, dueFor_nil]
      rfl
    | true =>
      obtain ⟨process, hp, hliving⟩ := isAlive_iff.1 halive
      simp only [heed, halive, if_true] at hposted hwaiting
      rw [step_finish_alive hp hliving, sharesOf, if_pos halive]
      exact h.balance_finish herrands hshares (hdoomed rfl) hp hposted hwaiting i
  | react p reaction =>
    cases reaction with
    | done =>
      refine hsame rfl ?_
      rw [sharesOf, List.zip_nil_right, dueFor_nil, List.append_nil]
      rfl
    | kill target code next =>
      refine hsame rfl ?_
      have hdeath : Share.death ≠ .listener i := nofun
      rw [sharesOf, Processes.step, List.zip_cons_cons, dueFor_cons, if_neg hdeath, List.nil_append]
      exact dueFor_next i p share rfl
    | listen target reaction next =>
      simp only [sharesOf, Processes.step]
      simp only [heed] at hposted hwaiting
      cases htarget : x.processes.all[target]? with
      | none =>
        refine hsame (by simp only [heed, htarget]) ?_
        exact dueFor_next i p share rfl
      | some process =>
        simp only [htarget] at hposted hwaiting
        have hbalance := h.balance_listen herrands hshares hfit hposted hwaiting i
        cases halive : process.alive with
        | true =>
          simp only [halive, if_true] at hbalance ⊢
          exact hbalance
        | false =>
          simp only [halive, Bool.false_eq_true, if_false] at hbalance ⊢
          exact hbalance
    | _ => exact hsame rfl (dueFor_next i p share rfl)

end Instant

/-! The notes of deaths. -/

theorem deaths_updateTable (s : Processes) (t : Nat) (f : ProcessTable → ProcessTable) :
    (s.updateTable t f).deaths = s.deaths := by
  unfold updateTable
  split <;> rfl

theorem deaths_forkAs (s : Processes) (p : Nat) (user : User) :
    (s.forkAs p user).2.deaths = s.deaths := by
  cases hfork : s.forkAs p user with
  | mk outcome s' =>
    cases outcome with
    | error fault => rw [forkAs_error hfork]
    | ok child =>
      obtain ⟨process, table, born, -, -, -, -, -, -, -, -, rfl⟩ := forkAs_ok hfork
      rfl

theorem deaths_fork (s : Processes) (p : Nat) : (s.fork p).2.deaths = s.deaths := by
  rcases fork_eq s p with heq | ⟨user, heq⟩
  · rw [heq]
  · rw [heq, deaths_forkAs]

theorem deaths_boot (s : Processes) (computer : Nat) (users : List User) :
    (s.boot computer users).2.deaths = s.deaths := by
  cases hboot : s.boot computer users with
  | mk outcome s' =>
    cases outcome with
    | error fault => rw [boot_error hboot]
    | ok t =>
      obtain ⟨root, init, table, -, -, -, -, -, rfl⟩ := boot_ok hboot
      rfl

theorem deaths_update (s : Processes) (p : Nat) (f : Process → Process) :
    (s.update p f).deaths = s.deaths := by
  unfold update
  split <;> rfl

theorem deaths_begin (s : Processes) (c : Call) : (c.begin s).2.deaths = s.deaths := by
  cases c with
  | boot computer users => exact deaths_boot s computer users
  | fork parent => exact deaths_fork s parent
  | forkAs parent user => exact deaths_forkAs s parent user
  | kill target code => rfl
  | onDeath target reaction => rfl
  | dropTable table => exact deaths_updateTable s table _
  | _ => exact deaths_update s _ _

theorem deaths_step (s : Processes) (errand : Errand) :
    (s.step errand).2.deaths =
      s.deaths ++ (errand.note?.map fun entry => s.noteOf entry.1 entry.2).toList := by
  have hsame : ∀ {s' : Processes}, errand.note? = none → s'.deaths = s.deaths →
      s'.deaths = s.deaths ++ (errand.note?.map fun entry => s.noteOf entry.1 entry.2).toList := by
    intro s' hnone hdeaths
    rw [hnone, hdeaths, Option.map_none, Option.toList_none, List.append_nil]
  cases errand with
  | kill p code =>
    refine hsame rfl ?_
    simp only [Processes.step]
    split <;> rfl
  | finish p code =>
    refine hsame rfl ?_
    simp only [Processes.step]
    split
    · rfl
    · split
      · exact deaths_updateTable _ _ _
      · rfl
  | react p reaction =>
    cases reaction with
    | note tag next => rfl
    | fork parent next => exact hsame rfl (deaths_fork s parent)
    | forkAs parent user next => exact hsame rfl (deaths_forkAs s parent user)
    | listen target reaction next =>
      refine hsame rfl ?_
      simp only [Processes.step]
      split
      · rfl
      · split <;> rfl
    | _ => exact hsame rfl rfl

namespace Instant

variable {x : Instant}

theorem Tells.mono {s s' : Processes} {note : DeathNote} {entry : Nat × String}
    (h : Tells s note entry) (hages : s.Ages s') : Tells s' note entry := by
  obtain ⟨process, hprocess⟩ : ∃ process, s.all[entry.1]? = some process :=
    ⟨_, List.getElem?_eq_getElem h.gone.1⟩
  obtain ⟨later, hlater, hlineage, hdead⟩ := hages _ process hprocess
  have hcode : process.exitCode = note.code := by simpa [hprocess] using h.code
  have halive : process.alive = false := by simpa [isAlive, hprocess] using h.gone.2
  refine ⟨hages.gone h.gone, h.tag, ?_, ?_, h.alive⟩
  · rw [h.pid, pidOf, pidOf, hprocess, hlater]
    exact (congrArg Prod.fst hlineage).symm
  · rw [hlater, Option.map_some, (hdead halive).2, hcode]

theorem tells_noteOf {s : Processes} {p : Nat} (hgone : s.Gone p) (tag : String) :
    Tells s (s.noteOf p tag) (p, tag) := by
  refine ⟨hgone, rfl, rfl, ?_, hgone.2⟩
  rw [noteOf, List.getElem?_eq_getElem hgone.1]
  rfl

theorem Fits.gone {errand : Errand} {share : Share} (h : x.Fits errand share)
    {entry : Nat × String} (hnote : errand.note? = some entry) : x.processes.Gone entry.1 := by
  cases share with
  | death => rcases h with ⟨p, code, rfl⟩ | ⟨p, code, rfl⟩ <;> cases hnote
  | registration => obtain ⟨p, rfl | ⟨reaction, rfl⟩⟩ := h <;> cases hnote
  | listener i =>
    obtain ⟨p, reaction, left, -, rfl, hgone⟩ := h
    cases left <;> cases hnote
    exact hgone

theorem Orderly.notes_step (h : x.Orderly) {errand : Errand} {share : Share}
    (hfit : x.Fits errand share) {s : Processes} (hprocesses : s = (x.processes.step errand).2) :
    List.Forall₂ (Tells s) s.deaths
      ((x.runs ++ [(errand, share)]).filterMap fun run => run.1.note?) := by
  have hages : x.processes.Ages s := hprocesses ▸ .step x.processes errand
  have hold := h.notes.imp fun _ _ htells => htells.mono hages
  rw [hprocesses, deaths_step, ← hprocesses, List.filterMap_append]
  refine List.rel_append hold ?_
  cases hnote : errand.note? with
  | none => simp [hnote]
  | some entry =>
    simp only [List.filterMap_cons, hnote, List.filterMap_nil, Option.map_some, Option.toList_some]
    exact .cons ((tells_noteOf (hfit.gone hnote) entry.2).mono hages) .nil

theorem Orderly.step (h : x.Orderly) : x.step.Orderly := by
  cases herrands : x.errands with
  | nil =>
    have hsame : x.step = x := by simp only [Instant.step, herrands]
    rwa [hsame]
  | cons errand errands =>
    have hfits := h.fits
    rw [herrands] at hfits
    obtain ⟨share, shares, hfit, hrest, hshares⟩ := List.forall₂_cons_left_iff.1 hfits
    obtain ⟨hprocesses, herrands', hshares', hruns, hposted, hwaiting⟩ :
        x.step.processes = (x.processes.step errand).2 ∧
        x.step.errands = (x.processes.step errand).1 ++ errands ∧
        x.step.shares = x.sharesOf share errand ++ shares ∧
        x.step.runs = x.runs ++ [(errand, share)] ∧
        x.step.posted = (x.heed errand).1 ∧ x.step.waiting = (x.heed errand).2 := by
      simp only [Instant.step, herrands, hshares, List.headD_cons, List.tail_cons, and_self]
    have hages : x.processes.Ages x.step.processes := hprocesses ▸ .step x.processes errand
    have hkept : ∀ {e : Errand} {s : Share}, x.Fits e s → x.step.Fits e s := fun hes =>
      hes.mono (fun i entry hi => hposted ▸ posted_heed x errand hi) hages
    have hmore := h.fits_sharesOf hfit hposted hprocesses
    refine ⟨h.toAttended.step hposted hwaiting hprocesses, ?_, fun run hrun => ?_, fun i => ?_, ?_⟩
    · rw [herrands', hshares']
      exact List.rel_append hmore (hrest.imp fun _ _ => hkept)
    · rw [hruns, List.mem_append, List.mem_singleton] at hrun
      rcases hrun with hrun | rfl
      · exact hkept (h.past run hrun)
      · exact hkept hfit
    · rw [herrands', hshares', hruns, List.zip_append hmore.length_eq]
      exact h.balance_step herrands hshares hfit hposted hwaiting i
    · rw [hruns]
      exact h.notes_step hfit hprocesses

theorem fits_shares (x : Instant) (s : Processes) (c : Call) :
    List.Forall₂ x.Fits (c.begin s).1 c.shares := by
  cases c with
  | kill target code => exact .cons (.inl ⟨target, code, rfl⟩) .nil
  | onDeath target reaction => exact .cons ⟨target, .inr ⟨reaction, rfl⟩⟩ .nil
  | _ => exact .nil

theorem dueFor_begin (i : Nat) (s : Processes) (c : Call) :
    dueFor i ((c.begin s).1.zip c.shares) = [] := by
  cases c <;> rfl

theorem Orderly.call (h : x.Orderly) (hidle : x.errands = []) (c : Call) : (x.call c).Orderly := by
  have hages : x.processes.Ages (x.call c).processes := .begin x.processes c
  refine ⟨h.toAttended.of_alters rfl rfl (begin_alters x.processes c), fits_shares _ _ c,
    fun run hrun => (h.past run hrun).mono (fun _ _ hi => hi) hages, fun i => ?_, ?_⟩
  · have hbalance := h.balance i
    rw [hidle, List.zip_nil_left, dueFor_nil] at hbalance
    simp only [Instant.call]
    rwa [dueFor_begin]
  · simp only [Instant.call]
    rw [deaths_begin]
    exact h.notes.imp fun _ _ htells => htells.mono hages

theorem Leads.orderly (h : Leads {} x) : x.Orderly := by
  induction h with
  | refl => exact ⟨⟨by simp, by simp⟩, .nil, by simp, fun _ => rfl, .nil⟩
  | tail _ hmoves ih =>
    cases hmoves with
    | call c hidle hfair => exact ih.call hidle c
    | step => exact ih.step

end Instant

theorem Sound.not_mem_live {limit : Nat} {s : Processes} (h : s.Sound limit) {q : Nat}
    (hdead : s.isAlive q = false) (t : Nat) : q ∉ s.live t := by
  intro hmem
  unfold live at hmem
  split at hmem
  · rename_i table ht
    split at hmem
    · rename_i hpresent
      obtain ⟨⟨pid, place⟩, hentry, rfl⟩ := List.mem_map.1 hmem
      obtain ⟨process, hget, -, halive, -⟩ :=
        ((h.tallies t table ht hpresent).mem_live _ _).1 hentry
      rw [isAlive_iff.2 ⟨process, hget, halive⟩] at hdead
      cases hdead
    · cases hmem
  · cases hmem

namespace Instant

variable {x : Instant}

/-- What is run as a listener is run for a process that is dead for good. -/
theorem running (h : Leads {} x) {errand : Errand} {i : Nat}
    (hmem : (errand, .listener i) ∈ x.errands.zip x.shares) :
    ∃ p left code, errand = .react p left ∧
      ∀ y, Leads x y → y.processes.isAlive p = false ∧ (∀ t, p ∉ y.processes.live t) ∧
        y.processes.all[p]?.map (·.exitCode) = some code := by
  obtain ⟨p, reaction, left, -, heq, hgone⟩ := List.forall₂_zip h.orderly.fits hmem
  obtain ⟨process, hprocess⟩ : ∃ process, x.processes.all[p]? = some process :=
    ⟨_, List.getElem?_eq_getElem hgone.1⟩
  refine ⟨p, left, process.exitCode, heq, fun y hy => ?_⟩
  have hages : x.processes.Ages y.processes := Ages.turns hy.turns
  have hdead := (hages.gone hgone).2
  have hend : Leads {} y := h.trans hy
  have hstart : Sound 0 {} := (Moment.start : Moment (fun _ => True) 0 {} []).sound
  obtain ⟨limit, hsound⟩ := hstart.turns (a := ({}, [])) hend.turns
  refine ⟨hdead, hsound.not_mem_live hdead, ?_⟩
  obtain ⟨later, hlater, -, hcode⟩ := hages p process hprocess
  have hwas := hgone.2
  rw [isAlive, hprocess] at hwas
  rw [hlater, Option.map_some, (hcode hwas).2]

theorem Orderly.ranFor_alive (h : x.Orderly) {i p : Nat} {reaction : Reaction}
    (hi : x.posted[i]? = some (p, reaction)) (halive : x.processes.isAlive p = true) :
    ranFor i x.runs = [] := by
  rw [ranFor, List.map_eq_nil_iff, List.filter_eq_nil_iff]
  intro run hrun hshare
  have hfit := h.past run hrun
  rw [of_decide_eq_true hshare] at hfit
  obtain ⟨q, other, left, hother, -, hgone⟩ := hfit
  obtain ⟨rfl, -⟩ := Prod.mk.inj (Option.some.inj (hi.symm.trans hother))
  rw [hgone.2] at halive
  cases halive

theorem Orderly.ranFor_dead (h : x.Orderly) {i p : Nat} {reaction : Reaction}
    (hi : x.posted[i]? = some (p, reaction)) (hdead : x.processes.isAlive p = false) :
    ranFor i x.runs ++ dueFor i (x.errands.zip x.shares) = (Errand.react p reaction).course := by
  have hout : i ∉ x.waiting := by
    intro hwaits
    obtain ⟨q, other, hother, halive⟩ := h.living i hwaits
    obtain ⟨rfl, -⟩ := Prod.mk.inj (Option.some.inj (hi.symm.trans hother))
    rw [hdead] at halive
    cases halive
  have hbalance := h.balance i
  rwa [awaitedBy_eq_nil hout, List.append_nil, courseOf, hi] at hbalance

theorem posted_listen {p q : Nat} (hp : p < x.processes.all.length) {reaction next : Reaction}
    {errands : List Errand} (h : x.errands = .react q (.listen p reaction next) :: errands) :
    x.step.posted = x.posted ++ [(p, reaction)] := by
  simp only [Instant.step, h, heed, List.getElem?_eq_getElem hp]

/-- Whatever calls and reactions do to each other, and every history has such an account of it: the
steps come to an end, where `run` does. What is run is a kill, its end or a registration from
outside, or else it is a listener's, whose process is dead then, in no table, and has the code that
it keeps from then on. Whoever asks for one, inside a listener or not, has one listener more. Nothing
of a listener is run while its process is alive. Once that is dead, what has been run of the listener
and what is on the stack are together the reaction that it was registered with, step by step, so that
in the end each has been run exactly once. The notes that are taken of deaths are those that have
been run, and they tell of the dead. -/
theorem listeners_once :
    (∀ b, Turns ({}, []) b → ∃ x, Leads {} x ∧ x.processes = b.1 ∧ x.errands = b.2) ∧
    ∀ x, Leads {} x →
      (∃ n, (Instant.step^[n] x).processes = x.processes.run x.errands ∧
        (Instant.step^[n] x).errands = []) ∧
      List.Forall₂ x.Fits x.errands x.shares ∧ (∀ run ∈ x.runs, x.Fits run.1 run.2) ∧
      (∀ p reaction, p < x.processes.all.length →
        (∀ q next errands, x.errands = .react q (.listen p reaction next) :: errands →
          x.step.posted = x.posted ++ [(p, reaction)]) ∧
        (x.errands = [] →
          (x.call (.onDeath p reaction)).step.posted = x.posted ++ [(p, reaction)])) ∧
      (∀ errand i, (errand, .listener i) ∈ x.errands.zip x.shares →
        ∃ p left code, errand = .react p left ∧
          ∀ y, Leads x y → y.processes.isAlive p = false ∧ (∀ t, p ∉ y.processes.live t) ∧
            y.processes.all[p]?.map (·.exitCode) = some code) ∧
      (∀ i p reaction, x.posted[i]? = some (p, reaction) →
        (x.processes.isAlive p = true → ranFor i x.runs = []) ∧
        (x.processes.isAlive p = false →
          ranFor i x.runs ++ dueFor i (x.errands.zip x.shares) =
            (Errand.react p reaction).course) ∧
        (x.errands = [] → x.processes.isAlive p = false →
          ranFor i x.runs = (Errand.react p reaction).course)) ∧
      List.Forall₂ (Tells x.processes) x.processes.deaths
        (x.runs.filterMap fun run => run.1.note?) := by
  refine ⟨fun b hb => exists_leads hb, fun x hx => ?_⟩
  have h := hx.orderly
  refine ⟨exists_iterate (later_run x.processes x.errands), h.fits, h.past,
    fun p reaction hp => ⟨fun q next errands => posted_listen hp, fun _ => ?_⟩,
    fun errand i hmem => running hx hmem, fun i p reaction hi => ?_, h.notes⟩
  · exact posted_listen (x := x.call (.onDeath p reaction)) hp rfl
  refine ⟨h.ranFor_alive hi, h.ranFor_dead hi, fun hidle hdead => ?_⟩
  have hall := h.ranFor_dead hi hdead
  rwa [hidle, List.zip_nil_left, dueFor_nil, List.append_nil] at hall

theorem leads_iterate (x : Instant) (n : Nat) : Leads x (Instant.step^[n] x) := by
  induction n generalizing x with
  | zero => exact .refl
  | succ n ih =>
    rw [Function.iterate_succ_apply]
    exact .head (.step x) (ih x.step)

/-- The listener on a child kills its parent, whose kill is waiting for the child to be finished,
and registers another one on the child. -/
def quarrel : Instant :=
  let x := (Instant.call {} (.boot 0 [⟨0, "root", .root, 0, "/root"⟩])).call (.fork 0)
  let x := (x.call (.fork 1)).call (.onDeath 2 (.kill 1 5 (.listen 2 .done .done)))
  let x := (Instant.step^[2] x).call (.onDeath 1 (.note "parent" .done))
  Instant.step^[15] ((Instant.step^[2] x).call (.kill 1 3))

theorem quarrel_leads : Leads {} quarrel := by
  have h : Leads {} {} := .refl
  have h := h.tail (.call _ (.boot 0 [⟨0, "root", .root, 0, "/root"⟩]) rfl (by simp [Call.Fair]))
  have h := h.tail (.call _ (.fork 0) rfl trivial)
  have h := h.tail (.call _ (.fork 1) rfl trivial)
  have h := h.tail (.call _ (.onDeath 2 (.kill 1 5 (.listen 2 .done .done))) rfl trivial)
  have h := h.trans (leads_iterate _ 2)
  have h := h.tail (.call _ (.onDeath 1 (.note "parent" .done)) rfl trivial)
  have h := h.trans (leads_iterate _ 2)
  have h := h.tail (.call _ (.kill 1 3) rfl trivial)
  exact h.trans (leads_iterate _ 15)

/-- The parent has died of the kill in the middle of its own, and three listeners have run, of which
the second has noted it. -/
theorem quarrel_once :
    Leads {} quarrel ∧ quarrel.errands = [] ∧
    quarrel.posted =
      [(2, .kill 1 5 (.listen 2 .done .done)), (1, .note "parent" .done), (2, .done)] ∧
    quarrel.processes.deaths.map (fun note => (note.tag, note.code)) = [("parent", 5)] ∧
    ranFor 0 quarrel.runs =
      [.react 2 (.kill 1 5 (.listen 2 .done .done)), .react 2 (.listen 2 .done .done),
        .react 2 .done] ∧
    ranFor 1 quarrel.runs = [.react 1 (.note "parent" .done), .react 1 .done] ∧
    ranFor 2 quarrel.runs = [.react 2 .done] := by
  obtain ⟨-, -, -, -, -, hend, -⟩ := listeners_once.2 quarrel quarrel_leads
  have hposted : quarrel.posted =
      [(2, .kill 1 5 (.listen 2 .done .done)), (1, .note "parent" .done), (2, .done)] := by cbv
  have hidle : quarrel.errands = [] := by cbv
  have hran : ∀ i p reaction, quarrel.posted[i]? = some (p, reaction) →
      quarrel.processes.isAlive p = false →
      ranFor i quarrel.runs = (Errand.react p reaction).course :=
    fun i p reaction hi hdead => (hend i p reaction hi).2.2 hidle hdead
  refine ⟨quarrel_leads, hidle, hposted, by cbv, ?_, ?_, ?_⟩
  · exact hran 0 2 _ (by rw [hposted]; rfl) (by cbv)
  · exact hran 1 1 _ (by rw [hposted]; rfl) (by cbv)
  · exact hran 2 2 _ (by rw [hposted]; rfl) (by cbv)

end Instant

end Processes

end ToyUnix
