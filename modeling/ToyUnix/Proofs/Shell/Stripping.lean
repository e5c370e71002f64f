import ToyUnix.Proofs.Shell.Layout
import ToyUnix.Proofs.Shell.Thinning

/-!
Stripping a text that has no comments. White space at the ends of lines and blank lines go even then.
What is left is a thinned text, so it parses like the whole, unless a backslash stood before some of
the white space that goes or a newline in the name of a variable goes with it: see
`parseScript_iff_parse`.
-/

set_option autoImplicit false

namespace ToyUnix

open Segment (advance Proper)
open Token (isPlain isSpace)

/-- No backslash outside quotes stands before white space after which its line has only spaces. -/
def staysClear (state : Option Char × Bool) : List Char → Bool
  | [] => true
  | c :: cs =>
    !(state = (none, true) && isGapChar c && endsLine cs) && staysClear (advance state c) cs

theorem staysClear_append {state : Option Char × Bool} (before : List Char) {cs : List Char}
    (h : staysClear state (before ++ cs) = true) :
    staysClear (before.foldl advance state) cs = true := by
  induction before generalizing state with
  | nil => exact h
  | cons c before ih =>
    rw [List.cons_append, staysClear, Bool.and_eq_true] at h
    exact ih h.2

theorem eq_none_of_staysClear {state : Option Char × Bool} {c : Char} {cs : List Char}
    (h : staysClear state (c :: cs) = true) (hc : isGapChar c = true) (hcs : endsLine cs = true)
    (hquote : state.1 = none) : state = (none, false) := by
  obtain ⟨quote, waits⟩ := state
  obtain rfl : quote = none := hquote
  cases waits with
  | false => rfl
  | true => simp [staysClear, hc, hcs] at h

theorem endsLine_spaces {spaces cs : List Char} (h : ∀ c ∈ spaces, isSpace c = true)
    (hcs : endsLine cs = true) : endsLine (spaces ++ cs) = true := by
  induction spaces with
  | nil => exact hcs
  | cons c spaces ih =>
    obtain ⟨hc, hrest⟩ := List.forall_mem_cons.1 h
    simp [endsLine, hc, ih hrest]

theorem foldl_plain {cs : List Char} (h : ∀ c ∈ cs, isPlain c = true) :
    cs.foldl advance (none, false) = (none, false) := by
  induction cs with
  | nil => rfl
  | cons c cs ih =>
    obtain ⟨hc, hrest⟩ := List.forall_mem_cons.1 h
    rw [List.foldl_cons, advance_plain hc, ih hrest]

namespace Thinned

theorem keep_append {state : Option Char × Bool} {before cs ds : List Char}
    (h : Thinned (before.foldl advance state) cs ds) :
    Thinned state (before ++ cs) (before ++ ds) := by
  induction before generalizing state with
  | nil => exact h
  | cons c before ih => exact keep (ih h)

theorem drop_spaces {spaces cs ds : List Char} (hspaces : ∀ c ∈ spaces, isSpace c = true)
    (hcs : endsLine cs = true) (h : Thinned (none, false) cs ds) :
    Thinned (none, false) (spaces ++ cs) ds := by
  induction spaces with
  | nil => exact h
  | cons c spaces ih =>
    obtain ⟨hc, hrest⟩ := List.forall_mem_cons.1 hspaces
    exact drop (by simp [isGapChar, hc]) (endsLine_spaces hrest hcs) (ih hrest)

end Thinned

namespace Comment

theorem keepLine_of_no_hash (scan : Scan) {line : List Char} (h : '#' ∉ line) :
    (keepLine scan line).1 = line := by
  induction line generalizing scan with
  | nil => rfl
  | cons c cs ih =>
    rw [List.mem_cons, not_or] at h
    simp only [keepLine]
    split
    · rename_i heffect
      unfold Scan.effect at heffect
      split at heffect
      · cases heffect
      · split at heffect
        · split at heffect <;> cases heffect
        · split at heffect
          · cases heffect
          · split at heffect
            · cases heffect
            · split at heffect
              · rename_i hhash
                exact absurd hhash.1.symm h.1
              · cases heffect
    · simp [ih _ h.2]

/-- What is left of a line and of the newline before it. -/
def remains (quote quoteAfter : Option Char) (line : List Char) : List Char :=
  if quote.isSome || quoteAfter.isSome then '\n' :: line
  else if line.all isBlank then [] else '\n' :: trimEnd line

theorem keepLines_cons (quote : Option Char) {line : List Char} (h : '#' ∉ line)
    (lines : List (List Char)) :
    (keepLines quote (line :: lines)).flatMap ('\n' :: ·) =
      remains quote (line.foldl advance (quote, false)).1 line ++
        (keepLines (line.foldl advance (quote, false)).1 lines).flatMap ('\n' :: ·) := by
  have hkept := keepLine_of_no_hash ⟨quote, none, false⟩ h
  have hquote := keepLine_quote ⟨quote, none, false⟩ line
  rw [hkept] at hquote
  simp only [keepLines, remains, hkept, ← hquote]
  split
  · rw [List.flatMap_cons]
  · split
    · rfl
    · rw [List.flatMap_cons]

theorem thinned_trimEnd {line after ds : List Char}
    (hblank : ∀ c ∈ line, isBlank c = true → isSpace c = true) (hafter : endsLine after = true)
    (hclear : staysClear (none, false) (line ++ after) = true)
    (hquote : (line.foldl advance (none, false)).1 = none)
    (hrest : Thinned (line.foldl advance (none, false)) after ds) :
    Thinned (none, false) (line ++ after) (trimEnd line ++ ds) := by
  obtain ⟨tail, hline, htail⟩ := exists_trimEnd line
  have hquoteTrim := trimEnd_quote line
  rw [hquote] at hquoteTrim
  generalize trimEnd line = kept at *
  subst hline
  have hspaces : ∀ c ∈ tail, isSpace c = true := fun c hc =>
    hblank c (List.mem_append_right _ hc) (htail c hc)
  rw [List.append_assoc] at hclear ⊢
  rw [List.foldl_append] at hrest
  refine Thinned.keep_append ?_
  cases tail with
  | nil => exact hrest
  | cons c tail =>
    have hends := endsLine_spaces (List.forall_mem_cons.1 hspaces).2 hafter
    have hgap : isGapChar c = true := by simp [isGapChar, hspaces c List.mem_cons_self]
    have hstate := eq_none_of_staysClear (staysClear_append kept hclear) hgap hends hquoteTrim
    rw [hstate, foldl_plain fun d hd => Token.isPlain_of_isSpace (hspaces d hd)] at hrest
    rw [hstate]
    exact hrest.drop_spaces hspaces hafter

theorem thinned_remains {state : Option Char × Bool} (h : Proper state) {line after ds : List Char}
    (hblank : ∀ c ∈ line, isBlank c = true → isSpace c = true) (hafter : endsLine after = true)
    (hclear : staysClear state ('\n' :: (line ++ after)) = true)
    (hrest : Thinned (line.foldl advance (state.1, false)) after ds) :
    Thinned state ('\n' :: (line ++ after))
      (remains state.1 (line.foldl advance (state.1, false)).1 line ++ ds) := by
  have hnewline : advance state '\n' = (state.1, false) := h.advance_blank (by decide)
  unfold remains
  split
  · rw [← hnewline] at hrest
    exact Thinned.keep hrest.keep_append
  · rename_i hclosed
    simp only [Bool.or_eq_true, not_or, Bool.not_eq_true, Option.isSome_eq_false_iff,
      Option.isNone_iff_eq_none] at hclosed
    obtain ⟨hquote, hquoteAfter⟩ := hclosed
    rw [hquote] at hnewline hquoteAfter hrest
    split
    · rename_i hall
      have hspaces : ∀ c ∈ line, isSpace c = true := fun c hc =>
        hblank c hc (List.all_eq_true.1 hall c hc)
      have hends := endsLine_spaces hspaces hafter
      obtain rfl := eq_none_of_staysClear hclear rfl hends hquote
      rw [foldl_plain fun c hc => Token.isPlain_of_isSpace (hspaces c hc)] at hrest
      exact Thinned.drop rfl hends (hrest.drop_spaces hspaces hafter)
    · have hbehind := staysClear_append ['\n'] hclear
      rw [List.foldl_cons, List.foldl_nil, hnewline] at hbehind
      refine Thinned.keep ?_
      rw [hnewline]
      exact thinned_trimEnd hblank hafter hbehind hquoteAfter hrest

theorem linesFrom_append {line : List Char} (h : '\n' ∉ line) (current rest : List Char) :
    linesFrom current (line ++ rest) = linesFrom (current ++ line) rest := by
  induction line generalizing current with
  | nil => simp
  | cons c line ih =>
    rw [List.mem_cons, not_or] at h
    rw [List.cons_append, linesFrom, ih h.2, List.append_assoc, List.singleton_append]
    exact fun heq => h.1 heq.symm

/-- What is stripped of a text without comments is white space at the ends of its lines. -/
theorem thinned_keepLines {state : Option Char × Bool} (h : Proper state) {cs : List Char}
    (hhash : '#' ∉ cs) (hblank : ∀ c ∈ cs, isBlank c = true → c = ' ' ∨ c = '\t' ∨ c = '\n')
    (hcomplete : cs.foldl advance (advance state '\n') = (none, false))
    (hclear : staysClear state ('\n' :: cs) = true) :
    Thinned state ('\n' :: cs) ((keepLines state.1 (linesFrom [] cs)).flatMap ('\n' :: ·)) := by
  have hnewline : advance state '\n' = (state.1, false) := h.advance_blank (by decide)
  -- On the lines of the text, of which the first one ends before its first newline.
  induction hn : cs.length using Nat.strong_induction_on generalizing state cs with
  | _ n ih =>
  subst hn
  rw [hnewline] at hcomplete
  have hsplit : ∀ {line after}, cs = line ++ after → '\n' ∉ line →
      ∀ c ∈ line, isBlank c = true → isSpace c = true := by
    intro line after heq hline c hc hspace
    obtain rfl | rfl | rfl := hblank c (by simp [heq, hc]) hspace
    · rfl
    · rfl
    · exact absurd hc hline
  by_cases hmem : '\n' ∈ cs
  · obtain ⟨line, rest, hcs, hline⟩ := List.eq_append_cons_of_mem hmem
    have hspaces := hsplit hcs hline
    subst hcs
    rw [List.foldl_append, List.foldl_cons] at hcomplete
    have hstart : Proper (state.1, false) := h
    have hproper := hstart.foldl line
    have hreturn : dropReturn line = line := by
      unfold dropReturn
      split
      · rename_i hlast
        have hreturn : '\r' ∈ line := List.mem_of_getLast? hlast
        obtain heq | heq | heq := hblank '\r' (by simp [hreturn]) (by decide) <;> cases heq
      · rfl
    have hbehind := staysClear_append ('\n' :: line) hclear
    rw [List.foldl_cons, hnewline] at hbehind
    have hrest := ih rest.length (by simp; omega) hproper (fun hmem => hhash (by simp [hmem]))
      (fun c hc => hblank c (by simp [hc])) hcomplete hbehind (hproper.advance_blank (by decide)) rfl
    rw [linesFrom_append hline, List.nil_append, linesFrom, hreturn,
      keepLines_cons _ (fun hmem => hhash (by simp [hmem]))]
    exact thinned_remains h hspaces rfl hclear hrest
  · have hspaces := hsplit (List.append_nil cs).symm hmem
    rw [← List.append_nil cs, linesFrom_append hmem, List.nil_append, linesFrom]
    split
    · rename_i hnil
      subst hnil
      have hquote : state.1 = none := congrArg Prod.fst hcomplete
      obtain rfl := eq_none_of_staysClear hclear rfl rfl hquote
      exact Thinned.drop rfl rfl Thinned.nil
    · rw [keepLines_cons _ hhash]
      rw [← List.append_nil cs] at hclear
      exact thinned_remains h hspaces rfl hclear Thinned.nil

theorem joinLines_cons (line : List Char) (lines : List (List Char)) :
    '\n' :: joinLines (line :: lines) = (line :: lines).flatMap ('\n' :: ·) := by
  induction lines generalizing line with
  | nil => simp [joinLines]
  | cons next lines ih =>
    rw [joinLines, List.flatMap_cons, ← ih next]
    · simp
    · simp

end Comment

theorem mem_of_mem_outline {tokens : List Token} {mark : Mark} (h : mark.1.isGap = false)
    (hmem : mark ∈ Token.outline tokens) : ∃ token ∈ tokens, token.mark = mark := by
  induction tokens with
  | nil => cases hmem
  | cons token tokens ih =>
    rcases (Mark.mem_put h).1 hmem with rfl | hrest
    · exact ⟨token, List.mem_cons_self, rfl⟩
    · obtain ⟨other, hother, hmark⟩ := ih hrest
      exact ⟨other, List.mem_cons_of_mem _ hother, hmark⟩

theorem named_outline {tokens : List Token}
    (h : ∀ token ∈ tokens, token.kind = .variableAccess → ragged token.text.toList = false) :
    Mark.Named (Token.outline tokens) := by
  intro name hmem
  obtain ⟨token, htoken, hmark⟩ := mem_of_mem_outline rfl hmem
  have hkind : token.kind = .variableAccess := congrArg Prod.fst hmark
  have htext : token.text = name := congrArg Prod.snd hmark
  rw [← htext]
  exact h token htoken hkind

theorem dropGap_newline {options : ParseOptions} {cs : List Char} {marks : List Mark}
    (h : Token.outlineFrom options (.plain [] 0) ('\n' :: cs) = some marks) :
    (Token.outlineFrom options (.plain [] 0) cs).map Mark.dropGap = some (Mark.dropGap marks) := by
  have hid : Mark.putWord [] = id := rfl
  rw [Token.outlineFrom_newline, hid, Option.map_eq_some_iff] at h
  obtain ⟨rest, hrest, rfl⟩ := h
  rw [hrest, Option.map_some, id, Mark.dropGap_put _ rfl]

theorem outline_stripComments {options : ParseOptions} {text : String} {tokens : List Token}
    (hread : Token.outlineFrom options (.plain [] 0) text.toList = some (Token.outline tokens))
    (hnames : Mark.Named (Token.outline tokens))
    (hthin : Thinned (none, false) ('\n' :: text.toList)
      ((Comment.keepLines none (linesFrom [] text.toList)).flatMap ('\n' :: ·))) :
    (Token.outlineFrom options (.plain [] 0) (stripComments text).toList).map Mark.dropGap =
      some (Mark.dropGap (Token.outline tokens)) := by
  have hid : Mark.putWord [] = id := rfl
  have hwhole : Token.outlineFrom options (.plain [] 0) ('\n' :: text.toList) =
      some (Mark.put (.newline, "") (Token.outline tokens)) := by
    rw [Token.outlineFrom_newline, hread, hid]
    rfl
  have hleft := hthin.outlineFrom_eq hwhole fun name hmem =>
    hnames name (((Mark.mem_put rfl).1 hmem).resolve_left (by simp))
  rw [stripComments, String.toList_ofList]
  generalize Comment.keepLines none (linesFrom [] text.toList) = lines at *
  rw [← Mark.dropGap_put (.newline, "") rfl (Token.outline tokens)]
  cases lines with
  | nil =>
    rw [List.flatMap_nil] at hleft
    rw [joinLines, hleft, Option.map_some]
  | cons line lines =>
    rw [← Comment.joinLines_cons] at hleft
    exact dropGap_newline hleft

/-- A complete text without comments, all of whose white space is spaces, tabs and newlines, parses
the same stripped or not. That takes two things: what is stripped stands behind no backslash, and no
name of a variable has a newline behind other white space. -/
theorem parseScript_iff_parse (options : ParseOptions) {text : String} {tokens : List Token}
    (hcomplete : tokenize options text = some tokens) (hhash : '#' ∉ text.toList)
    (hblank : ∀ c ∈ text.toList, isBlank c = true → c = ' ' ∨ c = '\t' ∨ c = '\n')
    (hclear : staysClear (none, false) text.toList = true)
    (hnames : ∀ token ∈ tokens, token.kind = .variableAccess →
      ragged token.text.toList = false) (localScope : Bool) (tree : Instruction) :
    parseScript options text localScope = .ok tree ↔ parse tokens localScope = .ok tree := by
  have hread : Token.outlineFrom options (.plain [] 0) text.toList =
      some (Token.outline tokens) := by
    rw [← Token.outline_tokenize, hcomplete, Option.map_some]
  have hclosed : text.toList.foldl advance (none, false) = (none, false) := by
    rw [← resolveQuoting_isSome]
    rw [tokenize, Option.map_eq_some_iff] at hcomplete
    obtain ⟨segments, hsegments, -⟩ := hcomplete
    simp [hsegments]
  have hstart : Proper (none, false) := Segment.proper_none
  have hnewline : staysClear (none, false) ('\n' :: text.toList) = true := by
    simpa [staysClear, advance] using hclear
  have hthin := Comment.thinned_keepLines hstart hhash hblank hclosed hnewline
  have hleft := outline_stripComments hread (named_outline hnames) hthin
  rw [← Token.outline_tokenize, Option.map_map, Option.map_eq_some_iff] at hleft
  obtain ⟨left, hstripped, houtline⟩ := hleft
  rw [parseScript, hstripped]
  exact parse_congr houtline localScope tree

/-- A quoted line end, white space at both ends of a line, and a blank line. -/
theorem parseScript_blank_line :
    tokenize {} "a 'b \n' \n\n\tc\n" =
        some [⟨.text, "a", 0⟩, ⟨.whitespace, " ", 1⟩, ⟨.text, "b \n", 2⟩, ⟨.whitespace, " ", 7⟩,
          ⟨.newline, "\n", 8⟩, ⟨.newline, "\n", 9⟩, ⟨.whitespace, "\t", 10⟩, ⟨.text, "c", 11⟩,
          ⟨.newline, "\n", 12⟩] ∧
      staysClear (none, false) "a 'b \n' \n\n\tc\n".toList = true ∧
      ∀ localScope tree,
        parseScript {} "a 'b \n' \n\n\tc\n" localScope = .ok tree ↔
          parse [⟨.text, "a", 0⟩, ⟨.whitespace, " ", 1⟩, ⟨.text, "b \n", 2⟩, ⟨.whitespace, " ", 7⟩,
            ⟨.newline, "\n", 8⟩, ⟨.newline, "\n", 9⟩, ⟨.whitespace, "\t", 10⟩, ⟨.text, "c", 11⟩,
            ⟨.newline, "\n", 12⟩] localScope = .ok tree := by
  have hcomplete : tokenize {} "a 'b \n' \n\n\tc\n" =
      some [⟨.text, "a", 0⟩, ⟨.whitespace, " ", 1⟩, ⟨.text, "b \n", 2⟩, ⟨.whitespace, " ", 7⟩,
        ⟨.newline, "\n", 8⟩, ⟨.newline, "\n", 9⟩, ⟨.whitespace, "\t", 10⟩, ⟨.text, "c", 11⟩,
        ⟨.newline, "\n", 12⟩] := by decide +kernel
  have hclear : staysClear (none, false) "a 'b \n' \n\n\tc\n".toList = true := by decide
  have hall : "a 'b \n' \n\n\tc\n".toList.all (fun c =>
      !isBlank c || (c = ' ' || (c = '\t' || c = '\n'))) = true := by decide
  have hblank : ∀ c ∈ "a 'b \n' \n\n\tc\n".toList, isBlank c = true →
      c = ' ' ∨ c = '\t' ∨ c = '\n' := by
    intro c hc hblank
    simpa [hblank] using List.all_eq_true.1 hall c hc
  exact ⟨hcomplete, hclear,
    parseScript_iff_parse {} hcomplete (by decide) hblank hclear (by decide)⟩

/-- A blank line behind a line that goes on, an escaped space at the end, and a name with a line end
in it. -/
theorem parseScript_differs :
    (tokenize {} "echo a\\\n\necho b" =
        some [⟨.text, "echo", 0⟩, ⟨.whitespace, " ", 4⟩, ⟨.text, "a", 5⟩, ⟨.newline, "\n", 8⟩,
          ⟨.text, "echo", 9⟩, ⟨.whitespace, " ", 13⟩, ⟨.text, "b", 14⟩] ∧
      parse [⟨.text, "echo", 0⟩, ⟨.whitespace, " ", 4⟩, ⟨.text, "a", 5⟩, ⟨.newline, "\n", 8⟩,
          ⟨.text, "echo", 9⟩, ⟨.whitespace, " ", 13⟩, ⟨.text, "b", 14⟩] false =
        .ok (.sequential (.command [] [.ofText "echo", .ofText "a"])
          (.command [] [.ofText "echo", .ofText "b"])) ∧
      parseScript {} "echo a\\\n\necho b" false =
        .ok (.command [] [.ofText "echo", .ofText "aecho", .ofText "b"])) ∧
    (tokenize {} "echo a\\ " =
        some [⟨.text, "echo", 0⟩, ⟨.whitespace, " ", 4⟩, ⟨.text, "a", 5⟩, ⟨.text, " ", 6⟩] ∧
      parse [⟨.text, "echo", 0⟩, ⟨.whitespace, " ", 4⟩, ⟨.text, "a", 5⟩, ⟨.text, " ", 6⟩] false =
        .ok (.command [] [.ofText "echo", .ofText "a "]) ∧
      parseScript {} "echo a\\ " false = .error (.badSyntax "unexpected end of file")) ∧
    (tokenize {} "echo $\x7ba \n\x7d" =
        some [⟨.text, "echo", 0⟩, ⟨.whitespace, " ", 4⟩, ⟨.variableAccess, "a \n", 5⟩] ∧
      parse [⟨.text, "echo", 0⟩, ⟨.whitespace, " ", 4⟩, ⟨.variableAccess, "a \n", 5⟩] false =
        .ok (.command [] [.ofText "echo", ⟨[.variable "a \n"], false⟩]) ∧
      parseScript {} "echo $\x7ba \n\x7d" false =
        .ok (.command [] [.ofText "echo", ⟨[.variable "a\n"], false⟩])) := by
  decide +kernel

end ToyUnix
