import ToyUnix.Proofs.Shell.Parameters

/-!
Negations and brackets of conditions. A `!` put before a condition turns its answer around and
leaves its diagnostic as it is, whatever branch the longer condition is read in, unless there is a
comparison operator in second place now. The brackets change the name in the diagnostic and nothing
else. Main statement: `Condition.run_uniform`.
-/

set_option autoImplicit false

namespace ToyUnix

namespace Condition

def binaryNames : List String := ["=", "==", "!=", "-eq", "-ne", "-lt", "-le", "-gt", "-ge"]

/-- A comparison operator and one operand. A `!` before them would be compared with the operand. -/
def IsHalf : List String → Prop
  | [op, _] => op ∈ binaryNames
  | _ => False

instance : DecidablePred IsHalf
  | [op, _] => inferInstanceAs (Decidable (op ∈ binaryNames))
  | [] | [_] | _ :: _ :: _ :: _ => .isFalse id

def commandNames : List String := ["test", "[", "[["]

def bracketed (command : String) (args : List String) : List String :=
  args ++ (closing? command).toList

/-- What a command does with a condition: its status, and the world with the diagnostic written. -/
def run (w : World) (ctx : Context) (console : Console) (command : String) (args : List String) :
    Int × World :=
  let (code, message) := status (fileTests w ctx) command args
  (code, Builtin.complain w console message)

def verdict (answer : Bool) : Int := if answer then 0 else 1

def diagnostic (command text : String) : String := "sh: " ++ command ++ ": " ++ text

section

variable (tests : FileTests) {args : List String}

theorem isSome_ofName? (op : String) : (Binary.ofName? op).isSome ↔ op ∈ binaryNames := by
  unfold Binary.ofName?
  split
  · decide
  · decide
  · decide
  · unfold Comparison.ofName?
    split
    case h_7 => simp_all [binaryNames]
    all_goals decide

theorem evaluate_bang (hne : args ≠ []) (hhalf : ¬IsHalf args) :
    evaluate tests ("!" :: args) = (evaluate tests args).map not := by
  match args with
  | [] => exact absurd rfl hne
  | [single] => simp [evaluate, Except.map]
  | [op, operand] =>
    have hop : Binary.ofName? op = none := by
      rw [← Option.not_isSome_iff_eq_none, isSome_ofName?]
      exact hhalf
    simp [evaluate, hop]
  | _ :: _ :: _ :: _ => rw [evaluate, if_pos rfl]

theorem not_isHalf_bang (args : List String) : ¬IsHalf ("!" :: args) := by
  match args with
  | [] | _ :: _ :: _ => exact id
  | [operand] => exact (by decide : "!" ∉ binaryNames)

theorem evaluate_bangs (hne : args ≠ []) (hhalf : ¬IsHalf args) (n : Nat) :
    evaluate tests (List.replicate n "!" ++ args) = (evaluate tests args).map not^[n] := by
  induction n with
  | zero =>
    rw [List.replicate_zero, List.nil_append]
    cases evaluate tests args <;> rfl
  | succ n ih =>
    -- Behind the first `!` the condition is not a half one whatever it was.
    have hrest : List.replicate n "!" ++ args ≠ [] ∧ ¬IsHalf (List.replicate n "!" ++ args) := by
      cases n with
      | zero => exact ⟨hne, hhalf⟩
      | succ n => exact ⟨List.cons_ne_nil _ _, not_isHalf_bang _⟩
    rw [List.replicate_succ, List.cons_append, evaluate_bang tests hrest.1 hrest.2, ih]
    cases evaluate tests args with
    | error message => rfl
    | ok answer => simp only [Except.map, Function.iterate_succ_apply']

theorem verdict_iterate (n : Nat) (answer : Bool) :
    verdict (not^[n] answer) = (1 - ·)^[n] (verdict answer) := by
  refine Function.Semiconj.iterate_right (f := verdict) (fun b => ?_) n answer
  cases b <;> rfl

theorem bracketed_test (args : List String) : bracketed "test" args = args := List.append_nil args

theorem arguments_bracketed {command : String} (h : command ∈ commandNames) (args : List String) :
    arguments command (bracketed command args) = .ok args := by
  simp only [commandNames, List.mem_cons, List.not_mem_nil, or_false] at h
  obtain rfl | rfl | rfl := h <;> simp [arguments, bracketed, closing?]

end

section

variable (w : World) (ctx : Context) (console : Console) {args : List String} {command : String}

theorem run_ok {answer : Bool} (h : command ∈ commandNames)
    (hanswer : evaluate (fileTests w ctx) args = .ok answer) :
    run w ctx console command (bracketed command args) = (verdict answer, w) := by
  have hargs := arguments_bracketed h args
  cases answer <;> simp [run, status, hargs, Except.bind, hanswer, verdict, Builtin.complain]

theorem run_error {text : String} (h : command ∈ commandNames)
    (herror : evaluate (fileTests w ctx) args = .error text) :
    run w ctx console command (bracketed command args) =
      (2, console.writeLine w (diagnostic command text)) := by
  have hargs := arguments_bracketed h args
  simp [run, status, hargs, Except.bind, herror, diagnostic, Builtin.complain]

theorem test_ok {answer : Bool} (hanswer : evaluate (fileTests w ctx) args = .ok answer) :
    run w ctx console "test" args = (verdict answer, w) := by
  have hrun : run w ctx console "test" (bracketed "test" args) = (verdict answer, w) :=
    run_ok w ctx console (by decide) hanswer
  rwa [bracketed_test] at hrun

theorem test_error {text : String} (herror : evaluate (fileTests w ctx) args = .error text) :
    run w ctx console "test" args = (2, console.writeLine w (diagnostic "test" text)) := by
  have hrun : run w ctx console "test" (bracketed "test" args) =
      (2, console.writeLine w (diagnostic "test" text)) :=
    run_error w ctx console (by decide) herror
  rwa [bracketed_test] at hrun

end

theorem runBuiltin_test {command : String} (h : command ∈ commandNames) (id scope : Nat)
    (settings : ShellSettings) (host : Context) (console : Console) (args : List String)
    (w : World) :
    let outcome := run w (.shell id scope settings host) console command args
    runBuiltin id scope settings host console command args w = (.ok outcome.1, outcome.2) := by
  simp only [commandNames, List.mem_cons, List.not_mem_nil, or_false] at h
  obtain rfl | rfl | rfl := h <;> rfl

/-- Negated any number of times, a condition that makes no sense gets the same diagnostic, and one
that makes sense another status after each negation. Every condition gets the same status from
`test` as from the brackets around it, and the same diagnostic under the name of the command. These
are the statuses and diagnostics of the built-ins of a shell. -/
theorem run_uniform (w : World) (ctx : Context) (console : Console) (args : List String) :
    (∀ n, args ≠ [] → ¬IsHalf args →
      (∃ text, run w ctx console "test" args =
          (2, console.writeLine w (diagnostic "test" text)) ∧
        run w ctx console "test" (List.replicate n "!" ++ args) =
          (2, console.writeLine w (diagnostic "test" text))) ∨
      ∃ code, (code = 0 ∨ code = 1) ∧ run w ctx console "test" args = (code, w) ∧
        run w ctx console "test" (List.replicate n "!" ++ args) = ((1 - ·)^[n] code, w)) ∧
    (∃ (code : Int) (text? : Option String),
      (code = 0 ∨ code = 1 ∨ code = 2) ∧ (code = 2 ↔ text?.isSome) ∧
      ∀ command ∈ commandNames, run w ctx console command (bracketed command args) =
        (code, Builtin.complain w console (text?.map (diagnostic command)))) ∧
    ∀ id scope settings host, ctx = .shell id scope settings host →
      ∀ command ∈ commandNames, ∀ given,
        runBuiltin id scope settings host console command given w =
          (.ok (run w ctx console command given).1, (run w ctx console command given).2) := by
  refine ⟨fun n hne hhalf => ?_, ?_, ?_⟩
  · have hbangs := evaluate_bangs (fileTests w ctx) hne hhalf n
    cases hanswer : evaluate (fileTests w ctx) args with
    | error text =>
      rw [hanswer] at hbangs
      exact .inl ⟨text, test_error w ctx console hanswer, test_error w ctx console hbangs⟩
    | ok answer =>
      rw [hanswer] at hbangs
      refine .inr ⟨verdict answer, ?_, test_ok w ctx console hanswer, ?_⟩
      · cases answer <;> decide
      · rw [test_ok w ctx console hbangs, verdict_iterate]
  · cases hanswer : evaluate (fileTests w ctx) args with
    | error text =>
      exact ⟨2, some text, by decide, by simp, fun command h =>
        run_error w ctx console h hanswer⟩
    | ok answer =>
      refine ⟨verdict answer, none, ?_, ?_, fun command h => run_ok w ctx console h hanswer⟩
      all_goals cases answer <;> decide
  · rintro id scope settings host rfl command h given
    exact runBuiltin_test h id scope settings host console given w

end Condition

namespace Sample

/-- `test ! ! ! -d x` and `[[ -d x ]]` where there are no files, and `test ! ! x -gt 1`. -/
theorem negated_conditions :
    runBuiltin 0 1 ⟨{}, {}, false, .buffer 0⟩ (.standalone "lone" 0 0) (.buffer 0) "test"
      ["!", "!", "!", "-d", "x"] lone = (.ok 0, lone) ∧
    Condition.run lone loneShell (.buffer 0) "[[" ["-d", "x", "]]"] = (1, lone) ∧
    Condition.run lone loneShell (.buffer 0) "test" ["!", "!", "x", "-gt", "1"] =
      (2, (Console.buffer 0).writeLine lone "sh: test: x: integer expression expected") := by
  obtain ⟨hneg, hforms, hbuiltin⟩ :=
    Condition.run_uniform lone loneShell (.buffer 0) ["-d", "x"]
  obtain ⟨hbad, -, -⟩ := Condition.run_uniform lone loneShell (.buffer 0) ["x", "-gt", "1"]
  have hplain : Condition.run lone loneShell (.buffer 0) "test" ["-d", "x"] = (1, lone) := by rfl
  have herror : Condition.run lone loneShell (.buffer 0) "test" ["x", "-gt", "1"] =
      (2, (Console.buffer 0).writeLine lone "sh: test: x: integer expression expected") := by rfl
  refine ⟨?_, ?_, ?_⟩
  · obtain ⟨text, htext, -⟩ | ⟨code, -, hcode, hthrice⟩ := hneg 3 (by decide) (by decide)
    · rw [hplain] at htext
      cases htext
    · rw [hplain] at hcode
      cases hcode
      have hrun := hbuiltin 0 1 _ _ rfl "test" (by decide) ["!", "!", "!", "-d", "x"]
      rwa [show Condition.run lone loneShell (.buffer 0) "test" ["!", "!", "!", "-d", "x"] =
        (0, lone) from hthrice] at hrun
  · obtain ⟨code, text?, -, htext, hall⟩ := hforms
    have hrun := hall "test" (by decide)
    rw [Condition.bracketed_test, hplain] at hrun
    obtain rfl := (Prod.mk.inj hrun).1
    cases text? with
    | none => exact hall "[[" (by decide)
    | some text => exact absurd (htext.2 rfl) (by decide)
  · obtain ⟨text, htext, htwice⟩ | ⟨code, hcode, hrun, -⟩ := hbad 2 (by decide) (by decide)
    · rw [← htext, herror] at htwice
      exact htwice
    · rw [herror] at hrun
      obtain rfl := (Prod.mk.inj hrun).1
      exact absurd hcode (by decide)

end Sample

end ToyUnix
