import ToyUnix.Proofs.Files.Editing
import ToyUnix.Proofs.Files.Promises
import ToyUnix.Proofs.Files.Writers

/-!
The books of the writers. A desk keeps files, what has been written to each writer so far, and the
log of the chunks that have been brought to files, whatever else is done to the files in between. The
books balance: the chunks of a writer and what is pending are all that was written to it. And a file
that nothing else happens to holds the chunks of its writers as the log has them.
Main statement: `Desk.balanced`.
-/

set_option autoImplicit false

namespace ToyUnix

def Deed.writer? : Deed → Option Nat
  | .write writer _ => some writer
  | .flush writer => some writer
  | .close writer => some writer
  | _ => none

/-- The writer whose bytes are brought to its file: it is flushed, or dropped. -/
def Deed.brings? : Deed → Option Nat
  | .flush writer => some writer
  | .close writer => some writer
  | _ => none

theorem Deed.writer?_of_brings? {deed : Deed} {n : Nat} (h : deed.brings? = some n) :
    deed.writer? = some n := by
  cases deed with
  | flush writer => exact h
  | close writer => exact h
  | _ => cases h

namespace Files

variable {s s' : Files} {n m : Nat} {path : Path}

/-- The writer appends to that file. -/
def writesTo (s : Files) (m : Nat) (path : Path) (n : Nat) : Bool :=
  (s.writer? n).any fun writer => writer.fs = .memory m ∧ Path.ofText writer.path = path

theorem writesTo_iff : s.writesTo m path n = true ↔
    ∃ writer, s.writer? n = some writer ∧ writer.fs = .memory m ∧ Path.ofText writer.path = path := by
  simp [writesTo, Option.any_eq_true]

/-- What has come to that file, by the log. -/
def delivered (s : Files) (m : Nat) (path : Path) (log : List (Nat × Bytes)) : Bytes :=
  (log.filter fun entry => s.writesTo m path entry.1).flatMap (·.2)

theorem delivered_append (s : Files) (m : Nat) (path : Path) (log more : List (Nat × Bytes)) :
    s.delivered m path (log ++ more) = s.delivered m path log ++ s.delivered m path more := by
  rw [delivered, List.filter_append, List.flatMap_append, delivered, delivered]

theorem delivered_congr {log : List (Nat × Bytes)}
    (h : ∀ entry ∈ log, s'.writesTo m path entry.1 = s.writesTo m path entry.1) :
    s'.delivered m path log = s.delivered m path log := by
  rw [delivered, delivered, List.filter_congr h]

/-! Where a writer appends does not change. -/

theorem writesTo_setPending (s : Files) (k : Nat) (pending : Bytes) (m : Nat) (path : Path) (n : Nat) :
    (s.setPending k pending).writesTo m path n = s.writesTo m path n := by
  by_cases heq : n = k
  · subst heq
    cases hwriter : s.writer? n with
    | none => rw [setPending, hwriter]
    | some writer => rw [writesTo, writer?_setPending hwriter, writesTo, hwriter]; rfl
  · rw [writesTo, (Pends.setPending s k pending).other n heq, writesTo]

theorem writesTo_writeBytes (s : Files) (k : Nat) (data : Bytes) (m : Nat) (path : Path) (n : Nat) :
    (s.writeBytes k data).writesTo m path n = s.writesTo m path n := by
  unfold writeBytes
  split
  · rfl
  · exact writesTo_setPending ..

theorem writesTo_flush (s : Files) (k m : Nat) (path : Path) (n : Nat) :
    (s.flush k).2.writesTo m path n = s.writesTo m path n := by
  unfold flush
  split
  · rfl
  rename_i writer _
  split
  · rfl
  have happly : (s.apply writer.fs writer.path (.append writer.pending)).2.writesTo m path n =
      s.writesTo m path n := by
    rw [writesTo, writer?_apply, writesTo]
  split
  · rename_i heq
    rw [heq] at happly
    exact (writesTo_setPending ..).trans happly
  · rename_i heq
    rwa [heq] at happly

theorem flush_error {fault : StreamFault} (h : (s.flush n).1 = .error fault) :
    (s.flush n).2 = s := by
  unfold flush at h ⊢
  split
  · rfl
  rename_i writer hwriter
  simp only [hwriter] at h
  split
  · rfl
  rename_i hpending
  rw [if_neg hpending] at h
  cases happly : s.apply writer.fs writer.path (.append writer.pending) with
  | mk result after =>
    rw [happly] at h
    cases result with
    | ok _ => cases h
    | error inner =>
      have hsame := change_error (congrArg Prod.fst happly)
      exact (congrArg Prod.snd happly).symm.trans hsame

theorem flush_refused {writer : Writer} (hwriter : s.writer? n = some writer)
    (hpending : writer.pending ≠ []) {fault : Fault}
    (h : (s.apply writer.fs writer.path (.append writer.pending)).1 = .error fault) :
    (s.flush n).1 = .error fault.toStream := by
  rw [flush, hwriter]
  simp only [hpending, if_false]
  split
  · rename_i heq
    rw [heq] at h
    cases h
  · rename_i heq
    rw [heq] at h
    cases h
    rfl

theorem flush_ok (h : (s.flush n).1 = .ok ()) {writer : Writer} (hwriter : s.writer? n = some writer) :
    (s.flush n).2.writer? n = some { writer with pending := [] } ∧
      (writer.pending = [] ∧ (s.flush n).2 = s ∨
        ∃ after, s.apply writer.fs writer.path (.append writer.pending) = (.ok (), after) ∧
          (s.flush n).2 = after.setPending n []) := by
  unfold flush at h ⊢
  simp only [hwriter] at h ⊢
  split
  · rename_i hpending
    refine ⟨?_, .inl ⟨hpending, rfl⟩⟩
    rw [hwriter, ← hpending]
  rename_i hpending
  rw [if_neg hpending] at h
  split
  · rename_i after happly
    refine ⟨writer?_setPending ?_ [], .inr ⟨after, happly, rfl⟩⟩
    rw [← hwriter, ← writer?_apply s writer.fs writer.path (.append writer.pending), happly]
  · rename_i happly
    rw [happly] at h
    cases h

end Files

namespace Tree

variable {t t' : Tree} {path : Path} {before data : Bytes}

theorem read_append (h : t.append path data = .ok t') (hread : t.read path = .ok before) :
    t'.read path = .ok (before ++ data) := by
  unfold append at h
  split at h
  · rename_i hnode
    cases h
    rw [read, hnode] at hread
    cases hread
    rw [read, node?_put, if_pos rfl]
  · cases h
  · cases h
  · rename_i hnone
    rw [read, hnone] at hread
    cases hread

end Tree

namespace Files

variable {s : Files} {n m : Nat} {path : Path} {data : Bytes}

theorem read_flush (hok : (s.flush n).1 = .ok ()) {writer : Writer}
    (hwriter : s.writer? n = some writer) (hfs : writer.fs = .memory m)
    (hpath : Path.ofText writer.path = path) (hread : (s.tree m).read path = .ok data) :
    ((s.flush n).2.tree m).read path = .ok (data ++ writer.pending) := by
  obtain ⟨-, ⟨hnil, hsame⟩ | ⟨after, happly, hafter⟩⟩ := flush_ok hok hwriter
  · rw [hsame, hnil, List.append_nil, hread]
  · rw [hfs] at happly
    obtain ⟨tree, htree, rfl⟩ := apply_memory_ok happly
    have hm : m < s.trees.length := by
      refine Nat.lt_of_not_le fun hle => ?_
      rw [tree_of_le hle] at hread
      cases hread
    rw [hafter, tree_setPending, tree_setTree hm, if_pos rfl]
    rw [hpath] at htree
    exact Tree.read_append htree hread

end Files

/-- What is known of a writer beside what is pending. -/
structure Book where
  written : Bytes
  /-- Nobody has dropped the writer yet. -/
  held : Bool
  deriving DecidableEq, Repr

/-- Files with the books of their writers and the log of the chunks that came to files, each with its
writer. -/
structure Desk where
  files : Files
  books : List Book
  log : List (Nat × Bytes)

namespace Desk

def holds (d : Desk) (n : Nat) : Bool := d.books[n]?.any (·.held)

def written (d : Desk) (n : Nat) : Bytes := (d.books[n]?.map (·.written)).getD []

def pending (d : Desk) (n : Nat) : Bytes := ((d.files.writer? n).map (·.pending)).getD []

def chunks (d : Desk) (n : Nat) : Bytes := (d.log.filter fun entry => entry.1 = n).flatMap (·.2)

def booked (d : Desk) : Deed → List Book
  | .openWriter view path appending =>
    if (d.files.openWrite view path appending).1.isOk then d.books ++ [⟨[], true⟩] else d.books
  | .write writer data => d.books.modify writer fun book => { book with written := book.written ++ data }
  | .close writer => d.books.modify writer fun book => { book with held := false }
  | _ => d.books

def delivery (d : Desk) (deed : Deed) : List (Nat × Bytes) :=
  match deed.brings? with
  | some n => if (d.files.flush n).1.isOk then [(n, d.pending n)] else []
  | none => []

/-- A writer that was dropped, or never opened, is used by nobody. -/
def step (d : Desk) (deed : Deed) : Desk :=
  if deed.writer?.all d.holds then ⟨d.files.perform deed, d.booked deed, d.log ++ d.delivery deed⟩
  else d

def run (d : Desk) (deeds : List Deed) : Desk := deeds.foldl step d

def history (deeds : List Deed) : Desk := run ⟨{}, [], []⟩ deeds

/-- A held writer that appends to that file is flushed or dropped. -/
def brings (d : Desk) (m : Nat) (path : Path) (deed : Deed) : Bool :=
  deed.brings?.any fun n => d.holds n && d.files.writesTo m path n

/-- What is to be brought to a file can be. -/
def succeeds (d : Desk) (deed : Deed) : Bool :=
  deed.brings?.all fun n => (d.files.flush n).1.isOk

/-- Nothing happens to the file but what its writers bring to it, and none of these fails. -/
def Undisturbed (m : Nat) (path : Path) : Desk → List Deed → Prop
  | _, [] => True
  | d, deed :: deeds =>
    (if d.brings m path deed then d.succeeds deed = true
      else ((d.step deed).files.tree m).read path = (d.files.tree m).read path) ∧
    Undisturbed m path (d.step deed) deeds

instance (m : Nat) (path : Path) : (d : Desk) → (deeds : List Deed) →
    Decidable (Undisturbed m path d deeds)
  | _, [] => .isTrue trivial
  | d, deed :: deeds =>
    have := instDecidableUndisturbed m path (d.step deed) deeds
    inferInstanceAs (Decidable (_ ∧ _))

/-- The books are up to date: for each writer that is held, what has come to files and what is
pending are what was written. -/
structure Balanced (d : Desk) : Prop where
  length : d.books.length = d.files.writers.length
  logged : ∀ entry ∈ d.log, entry.1 < d.books.length
  balance : ∀ n, d.holds n = true → d.chunks n ++ d.pending n = d.written n

variable {d : Desk} {deed : Deed} {n m : Nat} {path : Path} {data : Bytes}

theorem holds_iff : d.holds n = true ↔ ∃ book, d.books[n]? = some book ∧ book.held = true := by
  simp [holds, Option.any_eq_true]

theorem lt_of_holds (h : d.holds n = true) : n < d.books.length := by
  obtain ⟨book, hbook, -⟩ := holds_iff.1 h
  exact (List.getElem?_eq_some_iff.1 hbook).1

theorem pending_eq {writer : Writer} (h : d.files.writer? n = some writer) :
    d.pending n = writer.pending := by
  rw [pending, h]
  rfl

theorem written_eq {book : Book} (h : d.books[n]? = some book) : d.written n = book.written := by
  rw [written, h]
  rfl

/-! What is done to a writer, and what to all others. -/

theorem delivery_none (h : deed.writer? = none) : d.delivery deed = [] := by
  unfold delivery
  split
  · rename_i hbrings
    rw [deed.writer?_of_brings? hbrings] at h
    cases h
  · rfl

theorem delivery_ok (hbrings : deed.brings? = some n) (h : (d.files.flush n).1 = .ok ()) :
    d.delivery deed = [(n, d.pending n)] := by
  simp only [delivery, hbrings, h]
  rfl

theorem delivery_error {fault : StreamFault} (hbrings : deed.brings? = some n)
    (h : (d.files.flush n).1 = .error fault) : d.delivery deed = [] := by
  simp only [delivery, hbrings, h]
  rfl

theorem brings?_of_mem_delivery {entry : Nat × Bytes} (h : entry ∈ d.delivery deed) :
    deed.brings? = some entry.1 := by
  unfold delivery at h
  split at h
  · rename_i n hbrings
    split at h
    · rw [List.mem_singleton.1 h, hbrings]
    · cases h
  · cases h

theorem pends_perform {s : Files} (h : deed.writer? = some n) : Files.Pends n s (s.perform deed) := by
  cases deed with
  | write writer data =>
    cases h
    exact .writeBytes s n data
  | flush writer =>
    cases h
    exact .flush s n
  | close writer =>
    cases h
    exact .closeWriter s n
  | _ => cases h

theorem booked_of_writer (h : deed.writer? = some n) :
    (d.booked deed).length = d.books.length ∧
      ∀ other, other ≠ n → (d.booked deed)[other]? = d.books[other]? := by
  cases deed with
  | write writer data =>
    cases h
    refine ⟨List.length_modify .., fun other hne => ?_⟩
    exact List.getElem?_modify_ne _ _ (Ne.symm hne)
  | flush writer => exact ⟨rfl, fun _ _ => rfl⟩
  | close writer =>
    cases h
    refine ⟨List.length_modify .., fun other hne => ?_⟩
    exact List.getElem?_modify_ne _ _ (Ne.symm hne)
  | _ => cases h

theorem booked_of_none (h : deed.writer? = none) :
    d.booked deed = d.books ∧ (d.files.perform deed).writers = d.files.writers ∨
    ∃ writer : Writer, writer.pending = [] ∧ d.booked deed = d.books ++ [⟨[], true⟩] ∧
      (d.files.perform deed).writers = d.files.writers ++ [writer] := by
  cases deed with
  | openWriter view path appending =>
    simp only [booked, Files.perform]
    cases hopen : d.files.openWrite view path appending with
    | mk result s =>
      cases result with
      | ok id =>
        obtain ⟨-, after, happly, rfl⟩ := Files.openWrite_ok hopen
        have heffect := (d.files.effect_apply view path
          (if appending then .append [] else .write [])).writers
        rw [happly] at heffect
        refine .inr ⟨⟨Files.behindView view, PathText.normalize path, []⟩, rfl, rfl, ?_⟩
        rw [← heffect]
        rfl
      | error fault =>
        have hsame := Files.openWrite_error (congrArg Prod.fst hopen)
        rw [hopen] at hsame
        exact .inl ⟨rfl, congrArg Files.writers hsame⟩
  | request fs path request =>
    cases request with
    | change c => exact .inl ⟨rfl, (d.files.effect_apply fs path c).writers⟩
    | _ => exact .inl ⟨rfl, rfl⟩
  | write writer data => cases h
  | flush writer => cases h
  | close writer => cases h
  | _ => exact .inl ⟨rfl, rfl⟩

theorem step_held (h : deed.writer?.all d.holds = true) :
    d.step deed = ⟨d.files.perform deed, d.booked deed, d.log ++ d.delivery deed⟩ :=
  if_pos h

theorem step_dropped (h : deed.writer?.all d.holds = false) : d.step deed = d :=
  if_neg (by simp [h])

theorem files_step (h : deed.writer?.all d.holds = true) :
    (d.step deed).files = d.files.perform deed := by
  rw [step_held h]

theorem books_step (h : deed.writer?.all d.holds = true) :
    (d.step deed).books = d.booked deed := by
  rw [step_held h]

theorem step_of_none (h : deed.writer? = none) :
    d.step deed = ⟨d.files.perform deed, d.booked deed, d.log⟩ := by
  rw [step_held (by rw [h]; rfl), delivery_none h, List.append_nil]

theorem chunks_step (h : deed.writer?.all d.holds = true) (n : Nat) :
    (d.step deed).chunks n =
      d.chunks n ++ ((d.delivery deed).filter fun entry => entry.1 = n).flatMap (·.2) := by
  rw [step_held h, chunks, chunks, List.filter_append, List.flatMap_append]

theorem Balanced.step_other (h : d.Balanced) (hn : n < d.books.length)
    (hother : deed.writer? ≠ some n) :
    (d.step deed).books[n]? = d.books[n]? ∧ (d.step deed).files.writer? n = d.files.writer? n ∧
      (d.step deed).chunks n = d.chunks n := by
  cases hheld : deed.writer?.all d.holds with
  | false =>
    rw [step_dropped hheld]
    exact ⟨rfl, rfl, rfl⟩
  | true =>
    cases hdeed : deed.writer? with
    | some k =>
      have hne : n ≠ k := fun heq => hother (heq ▸ hdeed)
      have hnone : ((d.delivery deed).filter fun entry => entry.1 = n) = [] := by
        refine List.filter_eq_nil_iff.2 fun entry hentry heq => hother ?_
        rw [deed.writer?_of_brings? (brings?_of_mem_delivery hentry), of_decide_eq_true heq]
      rw [chunks_step hheld, hnone, step_held hheld]
      exact ⟨(booked_of_writer hdeed).2 n hne, (pends_perform hdeed).other n hne,
        List.append_nil _⟩
    | none =>
      rw [step_of_none hdeed]
      rcases booked_of_none (d := d) hdeed with ⟨hbooks, hwriters⟩ | ⟨writer, -, hbooks, hwriters⟩
      · exact ⟨by rw [hbooks], by rw [Files.writer?, hwriters, Files.writer?], rfl⟩
      · refine ⟨by rw [hbooks, List.getElem?_append_left hn], ?_, rfl⟩
        rw [Files.writer?, hwriters, List.getElem?_append_left (h.length ▸ hn), Files.writer?]

theorem Balanced.exists_writer (h : d.Balanced) (hn : n < d.books.length) :
    ∃ writer, d.files.writer? n = some writer :=
  ⟨_, List.getElem?_eq_getElem (h.length ▸ hn)⟩

theorem all_holds (hdeed : deed.writer? = some n) (hn : d.holds n = true) :
    deed.writer?.all d.holds = true := by
  rw [hdeed]
  exact hn

theorem written_brought (hn : d.holds n = true) (hbrings : deed.brings? = some n) :
    (d.step deed).written n = d.written n := by
  obtain ⟨book, hbook, -⟩ := holds_iff.1 hn
  rw [written, books_step (all_holds (deed.writer?_of_brings? hbrings) hn)]
  cases deed with
  | flush k => rfl
  | close k =>
    cases hbrings
    rw [booked, List.getElem?_modify_eq, written_eq hbook, hbook]
    rfl
  | _ => cases hbrings

theorem Balanced.chunks_brought (h : d.Balanced) (hn : d.holds n = true)
    (hbrings : deed.brings? = some n) (hok : (d.files.flush n).1 = .ok ()) :
    (d.step deed).chunks n = (d.step deed).written n := by
  rw [chunks_step (all_holds (deed.writer?_of_brings? hbrings) hn), delivery_ok hbrings hok,
    written_brought hn hbrings, ← h.balance n hn]
  simp

/-- What is written to a writer is pending, and what is flushed has come to its file. -/
theorem Balanced.balance_own (h : d.Balanced) (hn : d.holds n = true)
    (hdeed : deed.writer? = some n) (hafter : (d.step deed).holds n = true) :
    (d.step deed).chunks n ++ (d.step deed).pending n = (d.step deed).written n := by
  obtain ⟨book, hbook, -⟩ := holds_iff.1 hn
  obtain ⟨writer, hwriter⟩ := h.exists_writer (lt_of_holds hn)
  have hall := all_holds hdeed hn
  cases deed with
  | write k data =>
    cases hdeed
    have hpending : (d.step (.write n data)).files.writer? n =
        some { writer with pending := writer.pending ++ data } := by
      rw [files_step hall]
      exact Files.writer?_writeBytes hwriter data
    have hbooked : (d.step (.write n data)).books[n]? =
        some { book with written := book.written ++ data } := by
      rw [books_step hall, booked, List.getElem?_modify_eq, hbook]
      rfl
    rw [chunks_step hall, pending_eq hpending, written_eq hbooked, ← written_eq hbook,
      ← h.balance n hn, pending_eq hwriter]
    simp [delivery, Deed.brings?]
  | flush k =>
    cases hdeed
    cases hflush : (d.files.flush n).1 with
    | ok _ =>
      have hpending : (d.step (.flush n)).files.writer? n = some { writer with pending := [] } := by
        rw [files_step hall]
        exact (Files.flush_ok hflush hwriter).1
      rw [h.chunks_brought hn rfl hflush, pending_eq hpending, List.append_nil]
    | error fault =>
      have hpending : (d.step (.flush n)).pending n = d.pending n := by
        rw [pending, files_step hall, Files.perform, Files.flush_error hflush, pending]
      rw [chunks_step hall, delivery_error rfl hflush, hpending, written_brought hn rfl,
        ← h.balance n hn]
      simp
  | close k =>
    cases hdeed
    have hbooked : (d.step (.close n)).books[n]? = some { book with held := false } := by
      rw [books_step hall, booked, List.getElem?_modify_eq, hbook]
      rfl
    obtain ⟨other, hother, hheld⟩ := holds_iff.1 hafter
    rw [hbooked] at hother
    cases hother
    cases hheld
  | _ => cases hdeed

theorem empty_of_le (hlength : d.books.length = d.files.writers.length)
    (hn : d.books.length ≤ n) : d.written n = [] ∧ d.pending n = [] := by
  rw [written, List.getElem?_eq_none hn, pending, Files.writer?,
    List.getElem?_eq_none (hlength ▸ hn)]
  exact ⟨rfl, rfl⟩

theorem Balanced.books_new (h : d.Balanced) (deed : Deed) :
    (d.step deed).books.length = (d.step deed).files.writers.length ∧
      d.books.length ≤ (d.step deed).books.length ∧
      ∀ n, d.books.length ≤ n → (d.step deed).written n = [] ∧ (d.step deed).pending n = [] := by
  cases hheld : deed.writer?.all d.holds with
  | false =>
    rw [step_dropped hheld]
    exact ⟨h.length, Nat.le_refl _, fun n => empty_of_le h.length⟩
  | true =>
    have hbooked := books_step hheld
    have hfiles := files_step hheld
    cases hdeed : deed.writer? with
    | some k =>
      have hbooks : (d.step deed).books.length = d.books.length := by
        rw [hbooked, (booked_of_writer hdeed).1]
      have hlength : (d.step deed).books.length = (d.step deed).files.writers.length := by
        rw [hbooks, hfiles, (pends_perform hdeed).length, h.length]
      exact ⟨hlength, hbooks.ge, fun n hn => empty_of_le hlength (hbooks ▸ hn)⟩
    | none =>
      rcases booked_of_none (d := d) hdeed with ⟨hbooks, hwriters⟩ | ⟨writer, hnil, hbooks, hwriters⟩
      · rw [hbooks] at hbooked
        have hlength : (d.step deed).books.length = (d.step deed).files.writers.length := by
          rw [hbooked, hfiles, hwriters, h.length]
        exact ⟨hlength, by rw [hbooked], fun n hn => empty_of_le hlength (hbooked ▸ hn)⟩
      · rw [hbooks] at hbooked
        have hlength : (d.step deed).books.length = (d.step deed).files.writers.length := by
          rw [hbooked, hfiles, hwriters, List.length_append, List.length_append, h.length]
          rfl
        refine ⟨hlength, by rw [hbooked]; simp, fun n hn => ?_⟩
        rcases Nat.eq_or_lt_of_le hn with rfl | hn
        · rw [written, hbooked, pending, hfiles, Files.writer?, hwriters, List.getElem?_concat_length,
            h.length, List.getElem?_concat_length]
          exact ⟨rfl, hnil⟩
        · exact empty_of_le hlength (by rw [hbooked, List.length_append]; exact hn)

theorem holds_of_mem_delivery (hheld : deed.writer?.all d.holds = true) {entry : Nat × Bytes}
    (h : entry ∈ d.delivery deed) : d.holds entry.1 = true := by
  rw [deed.writer?_of_brings? (brings?_of_mem_delivery h)] at hheld
  exact hheld

theorem Balanced.logged_step (h : d.Balanced) (deed : Deed) :
    ∀ entry ∈ (d.step deed).log, entry.1 < d.books.length := by
  intro entry hentry
  cases hheld : deed.writer?.all d.holds with
  | false =>
    rw [step_dropped hheld] at hentry
    exact h.logged entry hentry
  | true =>
    rw [step_held hheld] at hentry
    rcases List.mem_append.1 hentry with hentry | hentry
    · exact h.logged entry hentry
    · exact lt_of_holds (holds_of_mem_delivery hheld hentry)

theorem chunks_of_le {k : Nat} (hlogged : ∀ entry ∈ d.log, entry.1 < k) (hn : k ≤ n) :
    d.chunks n = [] := by
  rw [chunks, List.filter_eq_nil_iff.2, List.flatMap_nil]
  intro entry hentry heq
  exact absurd (of_decide_eq_true heq ▸ hlogged entry hentry) (Nat.not_lt.2 hn)

/-- By cases on whose writer it is: the one that is used, another one, or a new one. -/
theorem Balanced.step (h : d.Balanced) (deed : Deed) : (d.step deed).Balanced := by
  obtain ⟨hlength, hle, hnew⟩ := h.books_new deed
  have hlogged := h.logged_step deed
  refine ⟨hlength, fun entry hentry => Nat.lt_of_lt_of_le (hlogged entry hentry) hle,
    fun n hafter => ?_⟩
  by_cases hn : n < d.books.length
  case neg =>
    have hn := Nat.le_of_not_lt hn
    obtain ⟨hwritten, hpending⟩ := hnew n hn
    rw [chunks_of_le hlogged hn, hpending, hwritten]
    rfl
  by_cases hdeed : deed.writer? = some n
  · cases hheld : d.holds n with
    | true => exact h.balance_own hheld hdeed hafter
    | false =>
      rw [step_dropped (by rw [hdeed]; exact hheld), hheld] at hafter
      cases hafter
  · obtain ⟨hbook, hwriter, hchunks⟩ := h.step_other hn hdeed
    rw [holds, hbook] at hafter
    rw [hchunks, pending, hwriter, written, hbook]
    exact h.balance n hafter

theorem Balanced.run (h : d.Balanced) (deeds : List Deed) : (d.run deeds).Balanced := by
  induction deeds generalizing d with
  | nil => exact h
  | cons deed deeds ih => exact ih (h.step deed)

theorem balanced_history (deeds : List Deed) : (history deeds).Balanced := by
  refine Balanced.run ⟨rfl, fun _ hentry => ?_, fun n hn => ?_⟩ deeds
  · cases hentry
  · cases hn

/-! The file of some writers. -/

theorem Balanced.writesTo_step (h : d.Balanced) (hn : n < d.books.length) (m : Nat) (path : Path) :
    (d.step deed).files.writesTo m path n = d.files.writesTo m path n := by
  by_cases hdeed : deed.writer? = some n
  case neg => rw [Files.writesTo, (h.step_other hn hdeed).2.1, Files.writesTo]
  cases hheld : deed.writer?.all d.holds with
  | false => rw [step_dropped hheld]
  | true =>
    rw [files_step hheld]
    cases deed with
    | write k data => exact Files.writesTo_writeBytes ..
    | flush k => exact Files.writesTo_flush ..
    | close k => exact (Files.writesTo_setPending ..).trans (Files.writesTo_flush ..)
    | _ => cases hdeed

theorem Balanced.writesTo_run (h : d.Balanced) (hn : n < d.books.length) (deeds : List Deed) (m : Nat)
    (path : Path) : (d.run deeds).files.writesTo m path n = d.files.writesTo m path n := by
  induction deeds generalizing d with
  | nil => rfl
  | cons deed deeds ih =>
    have hlater := Nat.lt_of_lt_of_le hn (h.books_new deed).2.1
    exact (ih (h.step deed) hlater).trans (h.writesTo_step hn m path)

theorem brings_iff : d.brings m path deed = true ↔
    ∃ n, deed.brings? = some n ∧ d.holds n = true ∧ d.files.writesTo m path n = true := by
  simp [brings, Option.any_eq_true]

theorem flush_of_succeeds (h : d.succeeds deed = true) (hbrings : deed.brings? = some n) :
    (d.files.flush n).1 = .ok () := by
  rw [succeeds, hbrings] at h
  cases hflush : (d.files.flush n).1 with
  | ok _ => rfl
  | error fault =>
    simp only [Option.all_some, hflush] at h
    cases h

theorem tree_brought {s : Files} (hbrings : deed.brings? = some n) (m : Nat) :
    (s.perform deed).tree m = (s.flush n).2.tree m := by
  cases deed with
  | flush k =>
    cases hbrings
    rfl
  | close k =>
    cases hbrings
    exact Files.tree_setPending ..
  | _ => cases hbrings

/-- One deed adds to the log what it brings to files, and to the file what its writers bring. -/
theorem step_delivers (hread : (d.files.tree m).read path = .ok data)
    (hquiet : if d.brings m path deed then d.succeeds deed = true
      else ((d.step deed).files.tree m).read path = (d.files.tree m).read path) :
    ∃ more, (d.step deed).log = d.log ++ more ∧ (∀ entry ∈ more, entry.1 < d.books.length) ∧
      ((d.step deed).files.tree m).read path = .ok (data ++ d.files.delivered m path more) := by
  cases hbrings : d.brings m path deed with
  | true =>
    rw [hbrings, if_pos rfl] at hquiet
    obtain ⟨n, hdeed, hheld, hwrites⟩ := brings_iff.1 hbrings
    obtain ⟨writer, hwriter, hfs, hpath⟩ := Files.writesTo_iff.1 hwrites
    have hok := flush_of_succeeds hquiet hdeed
    have hall := all_holds (deed.writer?_of_brings? hdeed) hheld
    refine ⟨[(n, d.pending n)], ?_, fun entry hentry => ?_, ?_⟩
    · rw [step_held hall, delivery_ok hdeed hok]
    · rw [List.mem_singleton.1 hentry]
      exact lt_of_holds hheld
    · rw [files_step hall, tree_brought hdeed, Files.read_flush hok hwriter hfs hpath hread,
        pending_eq hwriter]
      simp [Files.delivered, hwrites]
  | false =>
    rw [hbrings, if_neg (by simp)] at hquiet
    have hread' := hquiet.trans hread
    cases hall : deed.writer?.all d.holds with
    | false =>
      refine ⟨[], by rw [step_dropped hall, List.append_nil], nofun, ?_⟩
      rw [hread', Files.delivered, List.filter_nil, List.flatMap_nil, List.append_nil]
    | true =>
      have hnone : d.files.delivered m path (d.delivery deed) = [] := by
        rw [Files.delivered, List.filter_eq_nil_iff.2, List.flatMap_nil]
        intro entry hentry hwrites
        rw [brings_iff.2 ⟨entry.1, brings?_of_mem_delivery hentry,
          holds_of_mem_delivery hall hentry, hwrites⟩] at hbrings
        cases hbrings
      refine ⟨d.delivery deed, by rw [step_held hall],
        fun entry hentry => lt_of_holds (holds_of_mem_delivery hall hentry), ?_⟩
      rw [hread', hnone, List.append_nil]

/-- By induction on the deeds: the file holds what it held and what the log has for it since then. -/
theorem Balanced.run_delivers (h : d.Balanced) {deeds : List Deed}
    (hread : (d.files.tree m).read path = .ok data) (hquiet : Undisturbed m path d deeds) :
    ∃ since, (d.run deeds).log = d.log ++ since ∧
      ((d.run deeds).files.tree m).read path =
        .ok (data ++ (d.run deeds).files.delivered m path since) := by
  induction deeds generalizing d data with
  | nil =>
    refine ⟨[], (List.append_nil _).symm, ?_⟩
    rw [Files.delivered, List.filter_nil, List.flatMap_nil, List.append_nil]
    exact hread
  | cons deed deeds ih =>
    obtain ⟨hfirst, hrest⟩ := hquiet
    obtain ⟨more, hlog, hold, hfile⟩ := step_delivers hread hfirst
    obtain ⟨since, hlogs, hend⟩ := ih (h.step deed) hfile hrest
    have hsame : ((d.step deed).run deeds).files.delivered m path more =
        d.files.delivered m path more :=
      Files.delivered_congr fun entry hentry => h.writesTo_run (hold entry hentry) (deed :: deeds) m path
    refine ⟨more ++ since, ?_, ?_⟩
    · rw [← List.append_assoc, ← hlog]
      exact hlogs
    · rw [Files.delivered_append, ← List.append_assoc]
      exact hsame ▸ hend

/-- All that was written to the writer has come to files, if it has been dropped. -/
def Settled (d : Desk) (n : Nat) : Prop := d.holds n = false → d.chunks n = d.written n

theorem Balanced.settled_step (h : d.Balanced) (hsettled : d.Settled n)
    (hwrites : n < d.books.length → d.files.writesTo m path n = true)
    (hquiet : d.brings m path deed = true → d.succeeds deed = true) : (d.step deed).Settled n := by
  intro hafter
  by_cases hn : n < d.books.length
  case neg =>
    have hn := Nat.le_of_not_lt hn
    rw [chunks_of_le (h.logged_step deed) hn, ((h.books_new deed).2.2 n hn).1]
  by_cases hdeed : deed.writer? = some n
  case neg =>
    obtain ⟨hbook, -, hchunks⟩ := h.step_other hn hdeed
    rw [holds, hbook] at hafter
    rw [hchunks, written, hbook]
    exact hsettled hafter
  cases hheld : d.holds n with
  | false =>
    rw [step_dropped (by rw [hdeed]; exact hheld)]
    exact hsettled hheld
  | true =>
    have hall := all_holds hdeed hheld
    cases hbrings : deed.brings? with
    | some k =>
      obtain rfl : k = n := Option.some.inj ((deed.writer?_of_brings? hbrings).symm.trans hdeed)
      have hok := flush_of_succeeds (hquiet (brings_iff.2 ⟨k, hbrings, hheld, hwrites hn⟩)) hbrings
      exact h.chunks_brought hheld hbrings hok
    | none =>
      cases deed with
      | write k data =>
        cases hdeed
        obtain ⟨book, hbook, hkeeps⟩ := holds_iff.1 hheld
        rw [holds, books_step hall, booked, List.getElem?_modify_eq, hbook] at hafter
        exact absurd (hkeeps.symm.trans hafter) (by simp)
      | flush k => cases hbrings
      | close k => cases hbrings
      | _ => cases hdeed

theorem Balanced.settled_run (h : d.Balanced) {deeds : List Deed} (hsettled : d.Settled n)
    (hwrites : (d.run deeds).files.writesTo m path n = true) (hquiet : Undisturbed m path d deeds) :
    (d.run deeds).Settled n := by
  induction deeds generalizing d with
  | nil => exact hsettled
  | cons deed deeds ih =>
    obtain ⟨hfirst, hrest⟩ := hquiet
    have hhere : n < d.books.length → d.files.writesTo m path n = true := fun hn =>
      (h.writesTo_run hn (deed :: deeds) m path).symm.trans hwrites
    have hsucceeds : d.brings m path deed = true → d.succeeds deed = true := fun hbrings => by
      rwa [if_pos hbrings] at hfirst
    exact ih (h.step deed) (h.settled_step hsettled hhere hsucceeds) hwrites hrest

theorem Balanced.settled (h : d.Balanced) (hn : d.holds n = true ∨ d.books.length ≤ n) :
    d.Settled n := by
  intro hdropped
  rcases hn with hheld | hn
  · rw [hheld] at hdropped
    cases hdropped
  · rw [chunks_of_le h.logged hn, written, List.getElem?_eq_none hn]
    rfl

theorem step_flush_error {fault : StreamFault} (h : (d.files.flush n).1 = .error fault) :
    d.step (.flush n) = d := by
  cases hheld : (Deed.flush n).writer?.all d.holds with
  | false => exact step_dropped hheld
  | true =>
    rw [step_held hheld, delivery_error rfl h, List.append_nil, Files.perform, Files.flush_error h]
    rfl

theorem trees_close_error {fault : StreamFault} (h : (d.files.flush n).1 = .error fault) :
    (d.step (.close n)).files.trees = d.files.trees := by
  cases hheld : (Deed.close n).writer?.all d.holds with
  | false => rw [step_dropped hheld]
  | true =>
    rw [files_step hheld, Files.perform, Files.closeWriter, Files.trees_setPending,
      Files.flush_error h]

/-- Nothing that is written is lost, repeated or put in another place, whatever else happens to files.
Until a writer is dropped, what it has brought to files and what is pending are all that was written to
it; when a flush fails everything is as before, and a writer that is dropped changes no file then. To a
file that nothing else happens to and whose writers do not fail comes chunk after chunk as they bring
them, and when one of these writers has been dropped, all that was written to it has come. -/
theorem balanced (deeds : List Deed) :
    (∀ n, (history deeds).holds n = true →
      (history deeds).chunks n ++ (history deeds).pending n = (history deeds).written n) ∧
    (∀ n fault, ((history deeds).files.flush n).1 = .error fault →
      (history deeds).step (.flush n) = history deeds ∧
      ((history deeds).step (.close n)).files.trees = (history deeds).files.trees) ∧
    ∀ m text data more, (history deeds).files.contents (.memory m) text = .ok data →
      Undisturbed m (Path.ofText text) (history deeds) more →
      (∃ since, ((history deeds).run more).log = (history deeds).log ++ since ∧
        ((history deeds).run more).files.contents (.memory m) text =
          .ok (data ++ ((history deeds).run more).files.delivered m (Path.ofText text) since)) ∧
      ∀ n, ((history deeds).run more).files.writesTo m (Path.ofText text) n = true →
        (history deeds).holds n = true ∨ (history deeds).books.length ≤ n →
        ((history deeds).run more).holds n = false →
        ((history deeds).run more).chunks n = ((history deeds).run more).written n := by
  have h := balanced_history deeds
  generalize history deeds = d at h ⊢
  refine ⟨h.balance, fun n fault herror => ⟨step_flush_error herror, trees_close_error herror⟩,
    fun m text data more hread hquiet =>
      ⟨?_, fun n hwrites hn => h.settled_run (h.settled hn) hwrites hquiet⟩⟩
  simp only [Files.contents, Files.route_memory, Files.read] at hread ⊢
  exact h.run_delivers hread hquiet

def sharing : List Deed :=
  [.makeMemory, .openWriter (.memory 0) "/log" false, .openWriter (.memory 0) "//log" true,
    .openWriter (.memory 0) "/d" false, .write 0 [97], .write 2 [120],
    .request (.memory 0) "/d" (.change .deleteFile),
    .request (.memory 0) "/d" (.change .makeDirectory)]

def shared : List Deed :=
  [.write 1 [98], .flush 1, .write 0 [99], .write 1 [100], .close 0, .close 1]

theorem balanced_sharing :
    (history sharing).holds 0 = true ∧
    (history sharing).chunks 0 ++ (history sharing).pending 0 = (history sharing).written 0 ∧
    (∃ fault, ((history sharing).files.flush 2).1 = .error fault) ∧
    (history sharing).step (.flush 2) = history sharing ∧
    (history sharing).files.contents (.memory 0) "/log" = .ok [] ∧
    Undisturbed 0 (Path.ofText "/log") (history sharing) shared ∧
    ((history sharing).run shared).files.contents (.memory 0) "/log" = .ok [98, 97, 99, 100] ∧
    ((history sharing).run shared).holds 0 = false ∧
    ((history sharing).run shared).chunks 0 = ((history sharing).run shared).written 0 := by
  have hbefore : ((history sharing).holds 0, (history sharing).files.writer? 2,
      ((history sharing).files.apply (.memory 0) "/d" (.append [120])).1,
      (history sharing).files.contents (.memory 0) "/log", (history sharing).log) =
      (true, some ⟨.memory 0, "/d", [120]⟩, .error (.isADirectory "/d"), .ok [], []) := by
    cbv
  have hafter : (decide (Undisturbed 0 (Path.ofText "/log") (history sharing) shared),
      ((history sharing).run shared).files.writesTo 0 (Path.ofText "/log") 0,
      ((history sharing).run shared).holds 0, ((history sharing).run shared).log) =
      (true, true, false, [(1, [98]), (0, [97, 99]), (1, [100])]) := by
    cbv
  simp only [Prod.mk.injEq, decide_eq_true_eq] at hbefore hafter
  obtain ⟨hheld, hwriter, happly, hstart, hnone⟩ := hbefore
  obtain ⟨hquiet, hwrites, hdropped, hlog⟩ := hafter
  have hfails := Files.flush_refused hwriter (by simp) happly
  obtain ⟨hbalance, herror, hfile⟩ := balanced sharing
  obtain ⟨⟨since, hsince, hend⟩, hsettled⟩ := hfile 0 "/log" [] shared hstart hquiet
  rw [hlog, hnone, List.nil_append] at hsince
  subst hsince
  refine ⟨hheld, hbalance 0 hheld, ⟨_, hfails⟩, (herror 2 _ hfails).1, hstart, hquiet, ?_, hdropped,
    hsettled 0 hwrites (.inl hheld) hdropped⟩
  rw [hend]
  cbv

end Desk

end ToyUnix
