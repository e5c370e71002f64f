import ToyUnix.Proofs.Resolution

/-!
Canonical texts. Normalizing a path text follows its pieces from the root down and writes out the
names that are left, one after each slash. A text that is written so already is kept, which makes no
difference: these are the texts that rebuilding does not change. Main statement:
`PathText.normalize_canonical`.
-/

set_option autoImplicit false

namespace ToyUnix

theorem cut_eq_splitOn (sep : Char) (cs : List Char) : cut sep cs = cs.splitOn sep := by
  induction cs with
  | nil => rfl
  | cons c cs ih =>
    rw [List.splitOn_cons_eq_if_modifyHead, ← ih, cut]
    by_cases hc : c = sep
    · simp [hc]
    · obtain ⟨piece, pieces, hcut⟩ := List.exists_cons_of_ne_nil (cut_ne_nil sep cs)
      simp [hc, hcut]

namespace PathText

/-- Takes one piece of a path text: an empty one and `.` stay, `..` leaves what was entered last if
anything was, and any other piece is entered. -/
def enter (names : List String) : String → List String
  | "" | "." => names
  | ".." => names.dropLast
  | name => names ++ [name]

def pieces (text : String) : List String := (text.toList.splitOn '/').map String.ofList

def components (text : String) : List String := (pieces text).filter (· ≠ "")

theorem enter_eq (path : Path) (piece : List Char) :
    enter path (String.ofList piece) = path.descend piece := by
  have hpiece (chars : List Char) : String.ofList piece = String.ofList chars ↔ piece = chars :=
    String.ofList_inj
  unfold enter Path.descend
  split
  · rename_i hempty
    rw [if_pos (.inl ((hpiece []).1 hempty))]
  · rename_i hdot
    rw [if_pos (.inr ((hpiece ['.']).1 hdot))]
  · rename_i hdots
    obtain rfl := (hpiece ['.', '.']).1 hdots
    rfl
  · rename_i hempty hdot hdots
    rw [if_neg (not_or.2 ⟨fun h => hempty ((hpiece []).2 h), fun h => hdot ((hpiece ['.']).2 h)⟩),
      if_neg fun h => hdots ((hpiece ['.', '.']).2 h)]

theorem ofText_eq_foldl (text : String) : Path.ofText text = (pieces text).foldl enter [] := by
  rw [Path.ofText, Path.ofPieces, pieces, List.foldl_map, ← cut_eq_splitOn]
  simp only [enter_eq]

theorem components_text {path : Path} (h : path.Canonical) : components path.text = path := by
  cases path with
  | nil => decide
  | cons segment rest =>
    have hpieces : pieces (Path.text (segment :: rest)) = "" :: segment :: rest := by
      rw [pieces, ← cut_eq_splitOn, Path.text_cons, String.toList_ofList, cut, if_pos rfl,
        Path.cut_chars h]
      simp
    have hnames : ∀ name ∈ segment :: rest, decide (name ≠ "") = true := by
      intro name hname
      have hsegment := (h name hname).1
      rw [decide_eq_true_eq]
      rintro rfl
      exact absurd hsegment (by decide)
    rw [components, hpieces, List.filter_cons_of_neg (by simp), List.filter_eq_self.2 hnames]

theorem text_eq_join (path : Path) :
    path.text = if path = [] then "/" else String.join (path.map ("/" ++ ·)) := by
  cases path with
  | nil => rfl
  | cons segment rest =>
    refine String.toList_inj.1 ?_
    rw [if_neg (by simp), String.toList_join, Path.toList_text (by simp), List.flatMap_map]
    simp [Path.chars]

theorem isCanonical_iff (text : String) : isCanonical text = true ↔ rebuild text = text := by
  constructor
  · exact Path.text_ofText
  · intro hkept
    rw [← hkept]
    exact Path.isCanonical_text (Path.canonical_ofText text)

theorem ofText_append (front rest : String) :
    Path.ofText (front ++ "/" ++ rest) =
      (cut '/' rest.toList).foldl Path.descend (Path.ofText front) := by
  have hjoin : front ++ "/" ++ rest = String.ofList (front.toList ++ '/' :: rest.toList) := by
    refine String.toList_inj.1 ?_
    simp
  rw [hjoin, Path.ofText_slash, String.ofList_toList]

/-- A normalized text is `/`, or has a slash before each of its components, which are the names that
the pieces of the text lead to. It does not matter whether a canonical text is kept or rebuilt, nor
whether a text is normalized before it is gone on from. -/
theorem normalize_canonical (text rest : String) :
    components (normalize text) = (pieces text).foldl enter [] ∧
    (∀ name ∈ components (normalize text),
      name ≠ "" ∧ name ≠ "." ∧ name ≠ ".." ∧ '/' ∉ name.toList) ∧
    normalize text = (if components (normalize text) = [] then "/"
      else String.join ((components (normalize text)).map ("/" ++ ·))) ∧
    rebuild text = normalize text ∧ (isCanonical text = true ↔ rebuild text = text) ∧
    normalize (normalize text) = normalize text ∧
    normalize (normalize text ++ "/" ++ rest) = normalize (text ++ "/" ++ rest) ∧
    combine (normalize text) rest = combine text rest := by
  have hcanonical := Path.canonical_ofText text
  have hread : Path.ofText (normalize text) = Path.ofText text := by
    rw [normalize_eq, Path.ofText_text hcanonical]
  have hcomponents : components (normalize text) = Path.ofText text := by
    rw [normalize_eq, components_text hcanonical]
  have hjoin : normalize (normalize text ++ "/" ++ rest) = normalize (text ++ "/" ++ rest) := by
    rw [normalize_eq, normalize_eq (text ++ "/" ++ rest), ofText_append, ofText_append, hread]
  rw [hcomponents]
  refine ⟨ofText_eq_foldl text, fun name hname => ?_, ?_, (normalize_eq text).symm,
    isCanonical_iff text, ?_, hjoin, ?_⟩
  · have hsegment := hcanonical name hname
    refine ⟨?_, ?_, ?_, hsegment.2⟩
    all_goals
      rintro rfl
      exact absurd hsegment.1 (by decide)
  · rw [normalize_eq, text_eq_join]
  · rw [normalize_eq (normalize text), hread, ← normalize_eq]
  · by_cases hslash : rest.toList.head? = some '/'
    · rw [combine_absolute hslash, combine_absolute hslash]
    · rw [combine_relative hslash, combine_relative hslash, hjoin]

example : normalize "//a/./b/../../../c d/" = "/c d" := by decide

end PathText

end ToyUnix
