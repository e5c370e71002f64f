import ToyUnix.Proofs.Files.Layers

/-!
Requests: everything that can be asked of a namespace or done to it, as one type, so that what holds
of all operations can be said at once. A request is served along the route of its path. What it
comes to behind a device or a mount is placed under the point where that is attached.
-/

set_option autoImplicit false

namespace ToyUnix

inductive Request
  | ask (question : Question)
  | read
  | executable
  | list (kind : EntryKind)
  | change (c : Change)
  deriving DecidableEq, Repr

inductive Reply
  | truth (value : Bool)
  | bytes (data : Bytes)
  | executable (found : Executable)
  | paths (listed : List String)
  | done
  deriving DecidableEq, Repr

def Request.mounts : Request → Bool
  | .change (.mount _) => true
  | .change .unmount => true
  | _ => false

def Reply.rebase (point : String) : Reply → Reply
  | .paths listed => .paths (rebaseAll point listed)
  | reply => reply

def rebaseReply (point : String) (reply : Except Fault Reply) : Except Fault Reply :=
  rebaseFault point (reply.map (Reply.rebase point))

/-- The shapes of routes: every step has the path that is left where it is taken, and only the
steps above all mounts and devices have it as the caller wrote it. -/
inductive Route.Tracks : String → Path → Route → Prop
  | tree {shown : String} {path : Path} (id : Nat) : Tracks shown path (.tree id shown path)
  | deviceList {shown : String} (registry : Nat) : Tracks shown [] (.deviceList registry)
  | noDevice {shown : String} {path : Path} : path ≠ [] → Tracks shown path (.noDevice path)
  | device {shown : String} {path : Path} {rest : Route} (name : String) :
      Tracks path.text path rest → Tracks shown (name :: path) (.device name rest)
  | view {shown : String} {path : Path} {rest : Route} (user : User) :
      Tracks shown path rest → Tracks shown path (.view user path rest)
  | mounted {shown : String} {point inner : Path} {rest : Route} (id : Nat) :
      Tracks inner.text inner rest →
      Tracks shown (point ++ inner) (.mounted id (point ++ inner) point rest)

namespace Files

/-- What comes of a request along a route: the reply or a fault, and the files afterwards. -/
def serveAlong (s : Files) (request : Request) (route : Route) : Except Fault Reply × Files :=
  match request with
  | .ask question => (.ok (.truth (s.answers question route)), s)
  | .read => ((s.read route).map .bytes, s)
  | .executable => ((s.executable route).map .executable, s)
  | .list kind => ((s.list kind route).map .paths, s)
  | .change c => ((s.change c route).1.map fun _ => .done, (s.change c route).2)

def serve (s : Files) (fs : FileSystem) (path : String) (request : Request) :
    Except Fault Reply × Files :=
  s.serveAlong request (s.route fs path)

variable {s : Files} {id : Nat} {root : FileSystem} {path : Path}

/-! Routes. -/

theorem route_mounts (s : Files) (id : Nat) (root : FileSystem) (text : String) :
    s.route (.mounts id root) text =
      s.follow (.mounts id root) (Path.ofText text).text (Path.ofText text) := by
  simp only [route, follow_mounts]

theorem tracks_follow (s : Files) (fs : FileSystem) (shown : String) (path : Path) :
    Route.Tracks shown path (s.follow fs shown path) := by
  fun_induction Files.follow s fs shown path with
  | case1 => exact .tree _
  | case2 shown path id target user ih => exact .view user ih
  | case3 shown path id root mount hfound inner ih =>
    have hprefix := (Mount.covers_iff.1 (innermost?_mem hfound).2).2
    have hpath : mount.point ++ inner = path := List.prefix_iff_eq_append.1 hprefix
    have hmounted := @Route.Tracks.mounted shown mount.point inner _ id ih
    rwa [hpath] at hmounted
  | case4 shown path id root hnone ih => exact @Route.Tracks.mounted shown [] path _ id ih
  | case5 => exact .deviceList _
  | case6 shown id registry name rest fs hfound ih => exact .device name ih
  | case7 shown id registry name rest hnone => exact .noDevice (by simp)

/-! Requests behind a device or a mount. -/

theorem serveAlong_device (s : Files) (request : Request) (name : String) (rest : Route) :
    s.serveAlong request (.device name rest) =
      (rebaseReply (devicePoint name) (s.serveAlong request rest).1,
        (s.serveAlong request rest).2) := by
  cases request with
  | ask question => rfl
  | read =>
    simp only [serveAlong, Files.read]
    cases s.read rest <;> rfl
  | executable =>
    simp only [serveAlong, Files.executable]
    cases s.executable rest <;> rfl
  | list kind =>
    simp only [serveAlong, Files.list]
    cases s.list kind rest <;> rfl
  | change c =>
    simp only [serveAlong, Files.change, rebaseOutcome]
    cases (s.change c rest).1 <;> rfl

theorem change_mounted {c : Change} {point : Path} (s : Files) (rest : Route)
    (hmounts : (Request.change c).mounts = false)
    (hfree : c = .deleteDirectory → (s.isMountPoint id path || s.hasNestedMount id path) = false) :
    s.change c (.mounted id path point rest) = rebaseOutcome point.text (s.change c rest) := by
  cases c with
  | mount fs => cases hmounts
  | unmount => cases hmounts
  | deleteDirectory => simp only [Files.change, hfree rfl, Bool.false_eq_true, if_false]
  | _ => simp only [Files.change]

/-- What a table makes of a change at `path`: it refuses, it hands the change on, or the change is
about its own mounts. -/
inductive Handles (s : Files) (id : Nat) (path point : Path) (rest : Route) :
    Change → Except Fault Unit × Files → Prop
  | refuse (c : Change) (cause : PathCause) :
      Handles s id path point rest c (.error (.path cause path.text), s)
  | relay (c : Change) : (Request.change c).mounts = false →
      Handles s id path point rest c (rebaseOutcome point.text (s.change c rest))
  | attach (fs : FileSystem) : path ≠ [] → s.isMountPoint id path = false →
      Handles s id path point rest (.mount fs)
        (.ok (), s.setMounts id (s.mounts id ++ [⟨path, fs⟩]))
  | detach : Handles s id path point rest .unmount
      (.ok (), s.setMounts id ((s.mounts id).eraseP fun mount => mount.point = path))

theorem handles_change (s : Files) (id : Nat) (path point : Path) (rest : Route) (c : Change) :
    Handles s id path point rest c (s.change c (.mounted id path point rest)) := by
  cases c with
  | mount fs =>
    simp only [Files.change, Files.attach]
    split
    · exact .refuse _ .busy
    · rename_i hfree
      rw [Bool.or_eq_true, not_or, decide_eq_true_eq, Bool.not_eq_true] at hfree
      split
      · exact .refuse _ .notFound
      · split
        · exact .refuse _ .readOnly
        · exact .attach fs hfree.1 hfree.2
  | unmount =>
    simp only [Files.change, Files.detach]
    split
    · exact .refuse _ .notFound
    · split
      · exact .refuse _ .busy
      · exact .detach
  | deleteDirectory =>
    simp only [Files.change]
    split
    · exact .refuse _ .busy
    · exact .relay _ rfl
  | _ => exact .relay _ rfl

/-! Faults that come back. -/

theorem error_of_map {α β : Type} {f : α → β} {result : Except Fault α} {fault : Fault}
    (h : result.map f = .error fault) : result = .error fault := by
  cases result with
  | error other => cases h; rfl
  | ok value => cases h

theorem error_of_rebase {α : Type} {point : String} {result : Except Fault α} {fault : Fault}
    (h : rebaseFault point result = .error fault) :
    ∃ inner, result = .error inner ∧ fault = inner.rebase point := by
  cases result with
  | error inner => cases h; exact ⟨inner, rfl, rfl⟩
  | ok value => cases h

end Files

end ToyUnix
