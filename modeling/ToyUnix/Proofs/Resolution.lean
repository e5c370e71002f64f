import ToyUnix.Proofs.Path

/-!
Resolving a path in two steps. What has been resolved can be written out and gone on from, as pieces
are followed one after the other. Only the text `~/` is something else than the home directory once
there is more behind it: the rest then begins with a slash and is taken for an absolute path.
Main statement: `PathText.makeAbsolute_join`.
-/

set_option autoImplicit false

namespace ToyUnix

namespace Path

/-- How many segments the pieces climb above the path that they are followed from. -/
def climb : List (List Char) → Nat
  | [] => 0
  | piece :: pieces =>
    if piece = [] ∨ piece = ['.'] then climb pieces
    else if piece = ['.', '.'] then climb pieces + 1
    else climb pieces - 1

theorem foldl_descend_eq (start : Path) (pieces : List (List Char)) :
    pieces.foldl descend start =
      start.take (start.length - climb pieces) ++ ofPieces pieces := by
  unfold ofPieces
  induction pieces generalizing start with
  | nil => simp [climb]
  | cons piece pieces ih =>
    rw [List.foldl_cons, List.foldl_cons, ih (descend start piece), ih (descend [] piece), climb]
    by_cases hstay : piece = [] ∨ piece = ['.']
    · simp [descend, hstay]
    by_cases hup : piece = ['.', '.']
    · have hstep : ∀ path : Path, path.descend piece = path.take (path.length - 1) := fun path => by
        rw [descend, if_neg hstay, if_pos hup, List.dropLast_eq_take]
      have hlength : min (min (start.length - 1) start.length - climb pieces) (start.length - 1) =
          start.length - (climb pieces + 1) := by omega
      rw [if_neg hstay, if_pos hup, hstep, hstep, List.length_take, List.take_take, hlength,
        List.take_nil, List.take_nil, List.nil_append]
    · have hstep : ∀ path : Path, path.descend piece = path ++ [String.ofList piece] :=
        fun path => by rw [descend, if_neg hstay, if_neg hup]
      have hlength : start.length + 1 - climb pieces - start.length = 1 - climb pieces := by omega
      -- A name that is climbed over again leaves no trace.
      have htake : start.take (start.length + 1 - climb pieces) =
          start.take (start.length - (climb pieces - 1)) := by
        rcases Nat.eq_zero_or_pos (climb pieces) with hzero | hpos
        · rw [hzero, List.take_of_length_le (by omega), List.take_of_length_le (by omega)]
        · congr 1
          omega
      rw [if_neg hstay, if_neg hup, hstep, hstep, List.nil_append, List.length_append,
        List.length_singleton, List.take_append, hlength, htake, List.append_assoc]

/-- The start plays no part just when the pieces climb out of all of it. -/
theorem foldl_descend_eq_ofPieces_iff (start : Path) (pieces : List (List Char)) :
    pieces.foldl descend start = ofPieces pieces ↔ start.length ≤ climb pieces := by
  rw [foldl_descend_eq, List.append_left_eq_self, List.take_eq_nil_iff, ← List.length_eq_zero_iff]
  omega

theorem ofText_slash (front rest : List Char) :
    ofText (String.ofList (front ++ '/' :: rest)) =
      (cut '/' rest).foldl descend (ofText (String.ofList front)) := by
  simp only [ofText, ofPieces, String.toList_ofList, cut_join, List.foldl_append]

end Path

namespace PathText

/-- Such a text is resolved against the working directory: it is no absolute path, and has no tilde
that stands for the home directory. -/
structure IsRelative (text : List Char) : Prop where
  slash : text.head? ≠ some '/'
  tilde : text ≠ ['~']
  home : ¬ ['~', '/'] <+: text

/-- What a typed text stands for, before anything is resolved. -/
def expanded (cwd home : List Char) : List Char → List Char
  | ['~'] => home
  | '~' :: '/' :: '/' :: rest => '/' :: rest
  | '~' :: '/' :: rest => home ++ '/' :: rest
  | '/' :: rest => '/' :: rest
  | name => cwd ++ '/' :: name

theorem expanded_tilde {cwd home rest : List Char} (h : rest.head? ≠ some '/') :
    expanded cwd home ('~' :: '/' :: rest) = home ++ '/' :: rest := by
  cases rest with
  | nil => rfl
  | cons c rest =>
    have hc : c ≠ '/' := fun hslash => h (congrArg some hslash)
    exact expanded.eq_3 cwd home (c :: rest) fun after heq => hc (List.cons.inj heq).1

theorem expanded_name {cwd home name : List Char} (h : IsRelative name) :
    expanded cwd home name = cwd ++ '/' :: name := by
  refine expanded.eq_5 cwd home name h.tilde ?_ ?_ ?_
  · rintro rest rfl
    exact h.home ⟨'/' :: rest, rfl⟩
  · rintro rest rfl
    exact h.home ⟨rest, rfl⟩
  · rintro rest rfl
    exact h.slash rfl

theorem combine_absolute {base rel : String} (h : rel.toList.head? = some '/') :
    combine base rel = normalize rel := by
  obtain ⟨rest, hrest⟩ := List.head?_eq_some_iff.1 h
  simp only [combine, hrest]

theorem combine_relative {base rel : String} (h : rel.toList.head? ≠ some '/') :
    combine base rel = normalize (base ++ "/" ++ rel) := by
  unfold combine
  split
  · rename_i rest hrest
    exact absurd (congrArg List.head? hrest) h
  · rfl

theorem makeAbsolute_eq (cwd input home : String) :
    makeAbsolute cwd input home =
      normalize (String.ofList (expanded cwd.toList home.toList input.toList)) := by
  have hjoin (base : String) (rest : List Char) :
      base ++ "/" ++ String.ofList rest = String.ofList (base.toList ++ '/' :: rest) := by
    refine String.toList_inj.1 ?_
    simp
  unfold makeAbsolute
  split
  · rename_i htilde
    rw [htilde, expanded, String.ofList_toList]
  · rename_i rest hrest
    rw [hrest]
    by_cases hslash : rest.head? = some '/'
    · obtain ⟨after, rfl⟩ := List.head?_eq_some_iff.1 hslash
      rw [combine_absolute (by simp), expanded]
    · rw [combine_relative (by simpa using hslash), expanded_tilde hslash, hjoin]
  · rename_i htilde hhome
    by_cases hslash : input.toList.head? = some '/'
    · obtain ⟨after, hafter⟩ := List.head?_eq_some_iff.1 hslash
      rw [combine_absolute hslash, hafter, expanded, ← hafter, String.ofList_toList]
    · have hname : IsRelative input.toList :=
        ⟨hslash, htilde, fun ⟨rest, hrest⟩ => hhome rest hrest.symm⟩
      rw [combine_relative hslash, expanded_name hname, ← hjoin, String.ofList_toList]

theorem IsRelative.join {name : List Char} (h : IsRelative name) (hne : name ≠ [])
    (rest : List Char) : IsRelative (name ++ '/' :: rest) := by
  obtain ⟨c, name, rfl⟩ := List.exists_cons_of_ne_nil hne
  refine ⟨h.slash, by simp, fun hhome => ?_⟩
  obtain ⟨hc, hrest⟩ := List.cons_prefix_cons.1 hhome
  cases name with
  | nil => exact h.tilde (congrArg (fun c => [c]) hc.symm)
  | cons d name =>
    have hd : '/' = d := (List.cons_prefix_cons.1 hrest).1
    exact h.home ⟨name, by rw [hc, hd]; rfl⟩

theorem expanded_join {cwd home front rest : List Char} (hne : front ≠ [])
    (hhome : front ≠ ['~', '/']) (hrest : rest.head? ≠ some '/') :
    expanded cwd home (front ++ '/' :: rest) = expanded cwd home front ++ '/' :: rest := by
  obtain ⟨c, front, rfl⟩ := List.exists_cons_of_ne_nil hne
  by_cases hslash : c = '/'
  · subst hslash
    rfl
  by_cases htilde : c = '~' ∧ front.head? = some '/'
  · obtain ⟨rfl, hfront⟩ := htilde
    obtain ⟨front, rfl⟩ := List.head?_eq_some_iff.1 hfront
    cases front with
    | nil => exact absurd rfl hhome
    | cons d front =>
      by_cases hd : d = '/'
      · subst hd
        rfl
      · rw [List.cons_append, List.cons_append, expanded_tilde (by simpa using hd),
          expanded_tilde (by simpa using hd)]
        simp
  by_cases halone : c = '~' ∧ front = []
  · obtain ⟨rfl, rfl⟩ := halone
    exact expanded_tilde hrest
  · have hname : IsRelative (c :: front) := by
      refine ⟨by simpa using hslash, by simpa using halone, fun hprefix => htilde ?_⟩
      obtain ⟨after, hafter⟩ := hprefix
      obtain ⟨hc, hfront⟩ := List.cons.inj hafter
      exact ⟨hc.symm, by rw [← hfront]; rfl⟩
    rw [expanded_name (hname.join hne rest), expanded_name hname]
    simp

theorem makeAbsolute_relative {b : String} (cwd home : String) (h : IsRelative b.toList) :
    makeAbsolute cwd b home = ((cut '/' b.toList).foldl Path.descend (Path.ofText cwd)).text := by
  rw [makeAbsolute_eq, expanded_name h, normalize_eq, Path.ofText_slash, String.ofList_toList]

theorem ofText_makeAbsolute (cwd input home : String) :
    Path.ofText (makeAbsolute cwd input home) =
      Path.ofText (String.ofList (expanded cwd.toList home.toList input.toList)) := by
  rw [makeAbsolute_eq, normalize_eq, Path.ofText_text (Path.canonical_ofText _)]

/-- To resolve a path and to go on from there is to resolve both written together. Only after `~/`
it is not, unless what follows leaves all of the home directory behind. -/
theorem makeAbsolute_join (cwd home : String) {a b : String} (ha : a ≠ "")
    (hb : IsRelative b.toList) :
    makeAbsolute (makeAbsolute cwd a home) b home = makeAbsolute cwd (a ++ "/" ++ b) home ↔
      (a = "~/" → (Path.ofText home).length ≤ Path.climb (cut '/' b.toList)) := by
  have hjoin : (a ++ "/" ++ b).toList = a.toList ++ '/' :: b.toList := by simp
  rw [makeAbsolute_relative _ home hb, ofText_makeAbsolute, makeAbsolute_eq cwd, hjoin,
    normalize_eq]
  by_cases hhome : a = "~/"
  · subst hhome
    have hstart : Path.ofText (String.ofList (expanded cwd.toList home.toList "~/".toList)) =
        Path.ofText home := by
      rw [show "~/".toList = ['~', '/'] from rfl, expanded_tilde (by simp), Path.ofText_slash,
        String.ofList_toList]
      rfl
    have hdrop : Path.ofText (String.ofList
        (expanded cwd.toList home.toList ("~/".toList ++ '/' :: b.toList))) =
          Path.ofPieces (cut '/' b.toList) :=
      Path.ofText_slash [] b.toList
    rw [hstart, hdrop, ← Path.foldl_descend_eq_ofPieces_iff]
    refine ⟨fun htext _ => Path.text_injective ?_ ?_ htext, fun h => congrArg _ (h rfl)⟩
    · rw [← String.ofList_toList (s := home), ← Path.ofText_slash]
      exact Path.canonical_ofText _
    · rw [← hdrop]
      exact Path.canonical_ofText _
  · refine iff_of_true ?_ fun h => absurd h hhome
    have hne : a.toList ≠ [] := by simpa using ha
    have htilde : a.toList ≠ ['~', '/'] := fun h => hhome (String.toList_inj.1 h)
    rw [expanded_join hne htilde hb.slash, Path.ofText_slash]

/-- From the home directory of kim two steps lead up to `etc`, and so does the whole at once. -/
theorem makeAbsolute_join_out :
    makeAbsolute (makeAbsolute "/tmp" "~/" "/home/kim") "../../etc" "/home/kim" =
      makeAbsolute "/tmp" ("~/" ++ "/" ++ "../../etc") "/home/kim" :=
  (makeAbsolute_join "/tmp" "/home/kim" (by decide) ⟨by decide, by decide, by decide⟩).2
    fun _ => by decide

/-- A file that is looked for under `~/` is looked for at the root when it follows a slash. -/
theorem tilde_slash_dropped :
    (makeAbsolute (makeAbsolute "/tmp" "~/" "/home/kim") "x" "/home/kim" = "/home/kim/x" ∧
      makeAbsolute "/tmp" ("~/" ++ "/" ++ "x") "/home/kim" = "/x") ∧
    ¬ ∀ (cwd home a b : String), a ≠ "" → IsRelative b.toList →
      makeAbsolute (makeAbsolute cwd a home) b home = makeAbsolute cwd (a ++ "/" ++ b) home := by
  refine ⟨by decide, fun hall => ?_⟩
  have h := hall "/tmp" "/home/kim" "~/" "x" (by decide) ⟨by decide, by decide, by decide⟩
  exact absurd h (by decide)

end PathText

end ToyUnix
