import ToyUnix.Config
import ToyUnix.Fault
import ToyUnix.Toml.Reader

/-!
Configurations from TOML. A record is a table of its fields, or an array of them in their order;
what it does not need is ignored. A field of the wrong type, a number out of range and an unknown
choice are faults, and so is a missing field that has no default.
-/

set_option autoImplicit false

namespace ToyUnix

namespace Toml

def asText? : Toml → Option String
  | .string text => some text
  | _ => none

def asFlag? : Toml → Option Bool
  | .boolean value => some value
  | _ => none

def asNat? (limit : Nat) : Toml → Option Nat
  | .integer n => if 0 ≤ n ∧ n < limit then some n.toNat else none
  | _ => none

def asItems? : Toml → Option (List Toml)
  | .array items => some items
  | .tables items => some (items.map (.table .header))
  | _ => none

def readAll {α : Type} (read : Toml → Option α) : List Toml → Option (List α)
  | [] => some []
  | item :: rest => (read item).bind fun a => (readAll read rest).map (a :: ·)

def asList? {α : Type} (read : Toml → Option α) (value : Toml) : Option (List α) :=
  value.asItems?.bind (readAll read)

/-- A choice by its name, or as a table that has nothing in it but this name, for an empty table or
array. -/
def asChoice? : Toml → Option String
  | .string name => some name
  | .table _ [(name, .table _ [])] | .table _ [(name, .array [])] => some name
  | _ => none

/-- The fields of a record, by their name or by their place. -/
inductive Fields
  | named (entries : Entries)
  | listed (items : List Toml)

/-- A date or a time counts as a record that gives no field. -/
def fields? : Toml → Option Fields
  | .table _ entries => some (.named entries)
  | .moment => some (.named [])
  | value => value.asItems?.map .listed

namespace Fields

def get? (fields : Fields) (place : Nat) (name : String) : Option Toml :=
  match fields with
  | .named entries => find? entries name
  | .listed items => items[place]?

variable {α : Type}

def required (fields : Fields) (place : Nat) (name : String) (read : Toml → Option α) : Option α :=
  (fields.get? place name).bind read

def optional (fields : Fields) (place : Nat) (name : String) (read : Toml → Option α)
    (fallback : α) : Option α :=
  match fields.get? place name with
  | none => some fallback
  | some value => read value

end Fields

end Toml

namespace Config

open Toml

def readShell (value : Toml) : Option ShellConfig := do
  let fields ← value.fields?
  let fallback : ShellConfig := {}
  let prompt ← fields.optional 0 "prompt" asText? fallback.prompt
  let continuationPrompt ←
    fields.optional 1 "continuation_prompt" asText? fallback.continuationPrompt
  let defaultTitle ← fields.optional 2 "default_title" asText? fallback.defaultTitle
  let gracefulErrors ← fields.optional 3 "graceful_errors" asFlag? fallback.gracefulErrors
  return { prompt, continuationPrompt, defaultTitle, gracefulErrors }

def readPrivilege (value : Toml) : Option Privilege :=
  match value.asChoice? with
  | some "root" => some .root
  | some "standard" => some .standard
  | _ => none

def readUser (value : Toml) : Option UserConfig := do
  let fields ← value.fields?
  let id ← fields.required 0 "id" (asNat? UInt32.size)
  let name ← fields.required 1 "name" asText?
  let privilege ← fields.optional 2 "privilege" readPrivilege .standard
  let home ← fields.optional 3 "home" (fun value => value.asText?.map some) none
  return { id, name, privilege, home }

def readMountKind (value : Toml) : Option MountKind :=
  match value.asChoice? with
  | some "memory" => some .memory
  | some "devices" => some .devices
  | _ => none

def readMount (value : Toml) : Option MountConfig := do
  let fields ← value.fields?
  let path ← fields.required 0 "path" asText?
  let kind ← fields.required 1 "kind" readMountKind
  return { path, kind }

def readComputer (value : Toml) : Option ComputerConfig := do
  let fields ← value.fields?
  let fallback : ComputerConfig := {}
  let hostname ← fields.optional 0 "hostname" asText? fallback.hostname
  let narrativeId ← fields.optional 1 "narrative_id" (fun value => value.asText?.map some) none
  let login ← fields.optional 2 "login" (fun value => value.asText?.map some) none
  let searchPath ← fields.optional 3 "search_path" asText? fallback.searchPath
  let users ← fields.optional 4 "user" (asList? readUser) fallback.users
  let directories ← fields.optional 5 "directory" (asList? asText?) fallback.directories
  let mounts ← fields.optional 6 "mount" (asList? readMount) fallback.mounts
  return { hostname, narrativeId, login, searchPath, users, directories, mounts }

def readHost (value : Toml) : Option HostEntry := do
  let fields ← value.fields?
  let name ← fields.required 0 "name" asText?
  let address ← fields.required 1 "address" asText?
  let ports ← fields.optional 2 "ports" (asList? (asNat? UInt16.size)) []
  return { name, address, ports }

def readNetwork (value : Toml) : Option (List HostEntry) := do
  let fields ← value.fields?
  fields.optional 0 "host" (asList? readHost) []

def ofEntries (entries : Entries) : Option Config := do
  let fields := Fields.named entries
  let shell ← fields.optional 0 "shell" readShell {}
  let computer ← fields.optional 1 "computer" readComputer {}
  let hosts ← fields.optional 2 "network" readNetwork []
  return { shell, computer, hosts }

def ofText (text : String) : Except Fault Config :=
  match (Toml.ofText? text).bind ofEntries with
  | some config => .ok config
  | none => .error (.config "the configuration cannot be read")

end Config

end ToyUnix
