/-!
The programs that come with a computer, and catalogs of programs by name.
-/

set_option autoImplicit false

namespace ToyUnix

inductive Program
  | cat
  | chmod
  | ls
  | mkdir
  | ping
  | ps
  | pwd
  | rm
  | whoami
  deriving DecidableEq, Repr

namespace Program

def name : Program → String
  | .cat => "cat"
  | .chmod => "chmod"
  | .ls => "ls"
  | .mkdir => "mkdir"
  | .ping => "ping"
  | .ps => "ps"
  | .pwd => "pwd"
  | .rm => "rm"
  | .whoami => "whoami"

def description : Program → String
  | .cat => "Print files, or the console input when given none"
  | .chmod => "Mark files executable (+x) or not (-x)"
  | .ls => "List directory contents"
  | .mkdir => "Create directories"
  | .ping => "Check whether a host answers"
  | .ps => "List running processes"
  | .pwd => "Print working directory"
  | .rm => "Remove files or directories"
  | .whoami => "Print the current user name"

/-- In the order of their names. -/
def all : List Program := [.cat, .chmod, .ls, .mkdir, .ping, .ps, .pwd, .rm, .whoami]

end Program

/-- Programs by name, in the order of the names. -/
structure Catalog where
  entries : List (String × Program)
  ordered : entries.Pairwise fun first second => first.1 < second.1
  deriving DecidableEq, Repr

namespace Catalog

def empty : Catalog := ⟨[], .nil⟩

def insert (name : String) (program : Program) : List (String × Program) → List (String × Program)
  | [] => [(name, program)]
  | entry :: rest =>
    if name < entry.1 then (name, program) :: entry :: rest
    else if name = entry.1 then (name, program) :: rest
    else entry :: insert name program rest

theorem mem_insert {name : String} {program : Program} {entries : List (String × Program)}
    {entry : String × Program} (h : entry ∈ insert name program entries) :
    entry = (name, program) ∨ entry ∈ entries := by
  induction entries with
  | nil => exact .inl (List.mem_singleton.1 h)
  | cons first rest ih =>
    rw [insert] at h
    split at h
    · exact List.mem_cons.1 h
    · split at h
      · exact (List.mem_cons.1 h).imp_right (List.mem_cons_of_mem first)
      · rcases List.mem_cons.1 h with rfl | h
        · exact .inr List.mem_cons_self
        · exact (ih h).imp_right (List.mem_cons_of_mem first)

theorem insert_ordered (name : String) (program : Program) {entries : List (String × Program)}
    (h : entries.Pairwise fun first second => first.1 < second.1) :
    (insert name program entries).Pairwise fun first second => first.1 < second.1 := by
  induction entries with
  | nil => exact List.pairwise_singleton ..
  | cons entry rest ih =>
    obtain ⟨hentry, hrest⟩ := List.pairwise_cons.1 h
    rw [insert]
    split
    · rename_i hlt
      refine List.pairwise_cons.2 ⟨fun other hother => ?_, h⟩
      rcases List.mem_cons.1 hother with rfl | hother
      · exact hlt
      · exact String.lt_trans hlt (hentry other hother)
    · rename_i hle
      split
      · rename_i heq
        exact List.pairwise_cons.2 ⟨fun other hother => heq ▸ hentry other hother, hrest⟩
      · rename_i hne
        have hlt : entry.1 < name := Std.lt_of_le_of_ne (String.not_lt.1 hle) (Ne.symm hne)
        refine List.pairwise_cons.2 ⟨fun other hother => ?_, ih hrest⟩
        rcases mem_insert hother with rfl | hother
        · exact hlt
        · exact hentry other hother

/-- Registers a program under a name, in the place of any that has it. -/
def register (catalog : Catalog) (name : String) (program : Program) : Catalog where
  entries := insert name program catalog.entries
  ordered := insert_ordered name program catalog.ordered

def resolve? (catalog : Catalog) (name : String) : Option Program :=
  (catalog.entries.find? fun entry => entry.1 = name).map (·.2)

def names (catalog : Catalog) : List String := catalog.entries.map (·.1)

def utilities : Catalog :=
  Program.all.foldl (fun catalog program => catalog.register program.name program) empty

theorem isSome_resolve? (catalog : Catalog) (name : String) :
    (catalog.resolve? name).isSome ↔ name ∈ catalog.names := by
  simp [resolve?, names, List.find?_isSome]

theorem resolve?_register (catalog : Catalog) (name : String) (program : Program) (other : String) :
    (catalog.register name program).resolve? other =
      if name = other then some program else catalog.resolve? other := by
  simp only [resolve?, register]
  induction catalog.entries with
  | nil => by_cases h : name = other <;> simp [insert, h]
  | cons entry rest ih =>
    rw [insert]
    split
    · by_cases h : name = other <;> simp [h]
    · split
      · rename_i heq
        by_cases h : name = other <;> simp [← heq, h]
      · rename_i hne
        by_cases h : entry.1 = other
        · have hother : ¬name = other := fun heq => hne (heq.trans h.symm)
          simp [h, hother]
        · simp [h, ih]

example : utilities.names = Program.all.map Program.name := by decide +kernel

end Catalog

/-- What an executable file runs as. -/
inductive Executable
  | native (program : Program)
  | script (source : String)
  deriving DecidableEq, Repr

/-- A script is described by its length in bytes. -/
def Executable.summary : Executable → String
  | .native program => "Native(\"" ++ program.name ++ "\")"
  | .script source => "Script(" ++ toString source.utf8ByteSize ++ ")"

end ToyUnix
