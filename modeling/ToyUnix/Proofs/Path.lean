import ToyUnix.Path

/-!
Canonical paths and their texts. Whatever is read from a text is canonical, a canonical path is read
back from its text, and the operations on canonical texts are those on paths.
-/

set_option autoImplicit false

namespace ToyUnix

theorem not_mem_of_mem_cut {sep : Char} {cs piece : List Char} (h : piece ∈ cut sep cs) :
    sep ∉ piece := by
  induction cs generalizing piece with
  | nil =>
    simp only [cut, List.mem_singleton] at h
    simp [h]
  | cons c cs ih =>
    simp only [cut] at h
    split at h
    · rcases List.mem_cons.1 h with rfl | h
      · simp
      · exact ih h
    · rename_i hc
      split at h
      · rename_i hnil
        exact absurd hnil (cut_ne_nil sep cs)
      · rename_i first rest hcut
        rcases List.mem_cons.1 h with rfl | h
        · have := ih (hcut ▸ List.mem_cons_self)
          simp [this, Ne.symm hc]
        · exact ih (hcut ▸ List.mem_cons_of_mem _ h)

theorem cut_of_not_mem {sep : Char} {piece : List Char} (h : sep ∉ piece) :
    cut sep piece = [piece] := by
  induction piece with
  | nil => rfl
  | cons c cs ih =>
    simp only [List.mem_cons, not_or] at h
    simp only [cut, if_neg (Ne.symm h.1), ih h.2]

theorem cut_join (sep : Char) (as bs : List Char) :
    cut sep (as ++ sep :: bs) = cut sep as ++ cut sep bs := by
  induction as with
  | nil => simp [cut]
  | cons c as ih =>
    rw [List.cons_append, cut, cut, ih]
    split
    · rfl
    · cases hcut : cut sep as with
      | nil => exact absurd hcut (cut_ne_nil sep as)
      | cons piece pieces => rfl

theorem cut_append {sep : Char} {piece : List Char} (h : sep ∉ piece) (cs : List Char) :
    cut sep (piece ++ sep :: cs) = piece :: cut sep cs := by
  rw [cut_join, cut_of_not_mem h]
  rfl

theorem flatMap_cut (sep : Char) (cs : List Char) :
    (cut sep cs).flatMap (sep :: ·) = sep :: cs := by
  induction cs with
  | nil => rfl
  | cons c cs ih =>
    simp only [cut]
    split
    · rename_i hc
      rw [List.flatMap_cons, ih, hc]
      rfl
    · split
      · rename_i hnil
        exact absurd hnil (cut_ne_nil sep cs)
      · rename_i first rest hcut
        rw [hcut, List.flatMap_cons] at ih
        simpa using ih

theorem prefix_getElem?_iff {α : Type} {front entries : List α} {entry : α} :
    front <+: entries ∧ entries[front.length]? = some entry ↔
      ∃ rest, entries = front ++ entry :: rest := by
  constructor
  · rintro ⟨⟨rest, rfl⟩, hentry⟩
    rw [List.getElem?_append_right (Nat.le_refl _), Nat.sub_self,
      ← List.head?_eq_getElem?] at hentry
    obtain ⟨after, rfl⟩ := List.head?_eq_some_iff.1 hentry
    exact ⟨after, rfl⟩
  · rintro ⟨rest, rfl⟩
    exact ⟨List.prefix_append _ _, by simp⟩

namespace PathText

theorem isWithin_iff {path ancestor : String} :
    isWithin path ancestor = true ↔
      ancestor = "/" ∨ path = ancestor ∨ ∃ rest, path.toList = ancestor.toList ++ '/' :: rest := by
  simp only [isWithin, Bool.or_eq_true, decide_eq_true_eq, Bool.and_eq_true,
    List.isPrefixOf_iff_prefix, List.head?_drop, ← String.length_toList, prefix_getElem?_iff,
    or_assoc]

end PathText

namespace Path

theorem parent_above (path : Path) : path.parent <+: path :=
  List.dropLast_prefix path

theorem prefix_parent {point path : Path} (h : point <+: path) (hne : point ≠ path) :
    point <+: path.parent := by
  rcases List.eq_nil_or_concat path with rfl | ⟨init, segment, rfl⟩
  · exact absurd (List.prefix_nil.1 h) hne
  · rw [List.concat_eq_append] at h hne ⊢
    rw [Path.parent, List.dropLast_concat]
    rcases List.prefix_concat_iff.1 h with heq | hupper
    · exact absurd heq hne
    · exact hupper

theorem not_prefix_parent {path : Path} (h : path ≠ []) : ¬ path <+: path.parent := by
  intro hupper
  have hle := hupper.length_le
  have hpos := List.length_pos_iff.2 h
  simp only [Path.parent, List.length_dropLast] at hle
  omega

def IsName (segment : String) : Prop :=
  PathText.isSegment segment.toList = true ∧ '/' ∉ segment.toList

def Canonical (path : Path) : Prop := ∀ segment ∈ path, IsName segment

theorem canonical_nil : Canonical [] := by simp [Canonical]

theorem Canonical.dropLast {path : Path} (h : path.Canonical) : Canonical path.dropLast :=
  fun segment hsegment => h segment (List.dropLast_subset path hsegment)

theorem Canonical.above {path other : Path} (h : path.Canonical) (hother : other <+: path) :
    other.Canonical :=
  fun segment hsegment => h segment (hother.subset hsegment)

theorem Canonical.drop {path : Path} (h : path.Canonical) (n : Nat) : Canonical (path.drop n) :=
  fun segment hsegment => h segment (List.mem_of_mem_drop hsegment)

theorem Canonical.append {path inner : Path} (h : path.Canonical) (hinner : inner.Canonical) :
    Canonical (path ++ inner) :=
  fun segment hsegment => (List.mem_append.1 hsegment).elim (h segment) (hinner segment)

theorem Canonical.descend {path : Path} (h : path.Canonical) {piece : List Char}
    (hpiece : '/' ∉ piece) : Canonical (path.descend piece) := by
  unfold Path.descend
  split
  · exact h
  · rename_i hstay
    split
    · exact h.dropLast
    · rename_i hup
      refine h.append fun segment hsegment => ?_
      rw [List.mem_singleton.1 hsegment]
      simp only [not_or] at hstay
      refine ⟨?_, by simpa using hpiece⟩
      simp [PathText.isSegment, hstay.1, hstay.2, hup]

theorem canonical_ofText (text : String) : Canonical (ofText text) := by
  unfold ofText ofPieces
  have hpieces : ∀ piece ∈ cut '/' text.toList, '/' ∉ piece := fun _ => not_mem_of_mem_cut
  generalize cut '/' text.toList = pieces at hpieces
  suffices ∀ start : Path, start.Canonical → Canonical (pieces.foldl descend start) from
    this [] canonical_nil
  induction pieces with
  | nil => exact fun start hstart => hstart
  | cons piece rest ih =>
    intro start hstart
    exact ih (fun other hother => hpieces other (List.mem_cons_of_mem _ hother)) _
      (hstart.descend (hpieces piece List.mem_cons_self))

theorem descend_name {path : Path} {segment : String} (h : IsName segment) :
    path.descend segment.toList = path ++ [segment] := by
  simp only [IsName, PathText.isSegment, Bool.and_eq_true, decide_eq_true_eq] at h
  obtain ⟨⟨⟨hempty, hdot⟩, hdots⟩, -⟩ := h
  unfold descend
  rw [if_neg (by simp [hempty, hdot]), if_neg hdots, String.ofList_toList]

theorem foldl_descend {start inner : Path} (h : inner.Canonical) :
    (inner.map String.toList).foldl descend start = start ++ inner := by
  induction inner generalizing start with
  | nil => simp
  | cons segment rest ih =>
    rw [List.map_cons, List.foldl_cons, descend_name (h segment List.mem_cons_self),
      ih fun other hother => h other (List.mem_cons_of_mem _ hother)]
    simp

theorem cut_chars {segment : String} {rest : Path} (h : Canonical (segment :: rest)) :
    cut '/' (segment.toList ++ chars rest) = (segment :: rest).map String.toList := by
  have hsegment : '/' ∉ segment.toList := (h segment List.mem_cons_self).2
  induction rest generalizing segment with
  | nil => simpa [chars] using cut_of_not_mem hsegment
  | cons next rest ih =>
    have hrest : Canonical (next :: rest) :=
      fun other hother => h other (List.mem_cons_of_mem _ hother)
    have hchars : chars (next :: rest) = '/' :: (next.toList ++ chars rest) := rfl
    rw [hchars, cut_append hsegment, ih hrest (hrest next List.mem_cons_self).2]
    rfl

theorem text_cons (segment : String) (rest : Path) :
    text (segment :: rest) = String.ofList ('/' :: (segment.toList ++ chars rest)) := rfl

theorem chars_ne_nil {path : Path} (hne : path ≠ []) : path.chars ≠ [] := by
  cases path with
  | nil => exact absurd rfl hne
  | cons segment rest => simp [chars]

theorem toList_text {path : Path} (hne : path ≠ []) : path.text.toList = path.chars := by
  cases path with
  | nil => exact absurd rfl hne
  | cons segment rest => exact String.toList_ofList

theorem ofText_text {path : Path} (h : path.Canonical) : ofText path.text = path := by
  cases path with
  | nil => decide
  | cons segment rest =>
    rw [text_cons, ofText, ofPieces, String.toList_ofList, cut, if_pos rfl, cut_chars h,
      List.foldl_cons]
    exact foldl_descend h

theorem text_injective {a b : Path} (ha : a.Canonical) (hb : b.Canonical)
    (h : a.text = b.text) : a = b := by
  rw [← ofText_text ha, ← ofText_text hb, h]

theorem text_ne_root {path : Path} (h : path.Canonical) (hne : path ≠ []) : path.text ≠ "/" :=
  fun htext => hne (text_injective h canonical_nil htext)

theorem flatMap_slash (path : Path) :
    (path.map String.toList).flatMap ('/' :: ·) = chars path := by
  simp [chars, List.flatMap_map]

theorem text_ofText {text : String} (h : PathText.isCanonical text = true) :
    (ofText text).text = text := by
  unfold PathText.isCanonical at h
  split at h
  · rename_i hroot
    rw [show text = "/" from String.toList_inj.1 (by rw [hroot]; rfl)]
    decide
  · rename_i rest hrest hslash
    obtain ⟨pieces, hpieces, hcanonical⟩ : ∃ pieces : Path,
        cut '/' rest = pieces.map String.toList ∧ pieces.Canonical := by
      refine ⟨(cut '/' rest).map String.ofList, by simp, fun segment hsegment => ?_⟩
      obtain ⟨piece, hpiece, rfl⟩ := List.mem_map.1 hsegment
      rw [IsName, String.toList_ofList]
      exact ⟨List.all_eq_true.1 h piece hpiece, not_mem_of_mem_cut hpiece⟩
    have hread : ofText text = pieces := by
      rw [ofText, ofPieces, hslash, cut, if_pos rfl, hpieces, List.foldl_cons]
      exact foldl_descend hcanonical
    have hchars : chars pieces = '/' :: rest := by
      rw [← flatMap_slash, ← hpieces, flatMap_cut]
    rw [hread]
    cases pieces with
    | nil => cases hchars
    | cons segment others =>
      refine String.toList_inj.1 ?_
      rw [hslash, ← hchars]
      exact String.toList_ofList
  · cases h

theorem isCanonical_text {path : Path} (h : path.Canonical) :
    PathText.isCanonical path.text = true := by
  cases path with
  | nil => decide
  | cons segment rest =>
    have hslash : (text (segment :: rest)).toList = '/' :: (segment.toList ++ chars rest) := by
      rw [text_cons, String.toList_ofList]
    have hpieces : (cut '/' (segment.toList ++ chars rest)).all PathText.isSegment = true := by
      rw [cut_chars h, List.all_map, List.all_eq_true]
      exact fun other hother => (h other hother).1
    unfold PathText.isCanonical
    rw [hslash]
    split
    · rfl
    · rename_i hrest
      cases hrest
      exact hpieces
    · rename_i hother
      exact absurd rfl (hother _)

/-! The operations on canonical texts. -/

theorem dropWhile_reverse_chars (path : Path) {segment : String} (h : '/' ∉ segment.toList) :
    (chars (path ++ [segment])).reverse.dropWhile (· ≠ '/') = '/' :: (chars path).reverse := by
  have hchars : (chars (path ++ [segment])).reverse =
      segment.toList.reverse ++ '/' :: (chars path).reverse := by
    simp [chars]
  rw [hchars, List.dropWhile_append_of_pos]
  · simp
  · intro c hc
    simp only [decide_eq_true_eq]
    rintro rfl
    exact h (List.mem_reverse.1 hc)

theorem parent_text {path : Path} (h : path.Canonical) :
    PathText.parent path.text = text path.parent := by
  rcases List.eq_nil_or_concat path with rfl | ⟨init, segment, rfl⟩
  · decide
  · have hslash : '/' ∉ segment.toList := (h segment (by simp)).2
    have htext : (text (init ++ [segment])).toList = chars (init ++ [segment]) :=
      toList_text (by simp)
    unfold PathText.parent Path.parent
    rw [List.concat_eq_append, htext, dropWhile_reverse_chars init hslash, List.dropLast_concat]
    cases init with
    | nil => rfl
    | cons first rest =>
      obtain ⟨c, cs, hcs⟩ : ∃ c cs, (chars (first :: rest)).reverse = c :: cs :=
        List.exists_cons_of_ne_nil (by simp [chars])
      have hback : (c :: cs).reverse = chars (first :: rest) := by
        rw [← hcs, List.reverse_reverse]
      rw [hcs]
      exact congrArg String.ofList hback

theorem chars_append (a b : Path) : chars (a ++ b) = chars a ++ chars b := by
  simp [chars]

theorem last_slash {a b c d : List Char} (hb : '/' ∉ b) (hd : '/' ∉ d)
    (h : a ++ '/' :: b = c ++ '/' :: d) : a = c ∧ b = d := by
  rcases List.append_eq_append_iff.1 h with ⟨e, hc, he⟩ | ⟨e, ha, he⟩
  · cases e with
    | nil => exact ⟨by simpa using hc.symm, by simpa using he⟩
    | cons x e =>
      obtain ⟨rfl, rfl⟩ := List.cons.inj he
      simp at hb
  · cases e with
    | nil => exact ⟨by simpa using ha, by simpa using he.symm⟩
    | cons x e =>
      obtain ⟨rfl, rfl⟩ := List.cons.inj he
      simp at hd

theorem chars_injective {a b : Path} (ha : a.Canonical) (hb : b.Canonical)
    (h : a.chars = b.chars) : a = b := by
  refine text_injective ha hb ?_
  cases a <;> cases b <;> simp_all [text, chars]

/-- The paths right below a path are those whose texts have one name after its stem. -/
theorem text_below_iff {path other : Path} (hpath : path.Canonical) (hother : other.Canonical) :
    (∃ rest, (rest ≠ [] ∧ '/' ∉ rest) ∧ other.text.toList = path.stem ++ rest) ↔
      other ≠ [] ∧ other.parent = path := by
  rcases List.eq_nil_or_concat other with rfl | ⟨init, segment, rfl⟩
  · refine iff_of_false ?_ fun h => h.1 rfl
    rintro ⟨rest, ⟨hne, -⟩, htext⟩
    have hlength := congrArg List.length htext
    have hpos := List.length_pos_iff.2 hne
    simp [text, stem] at hlength
    omega
  · rw [List.concat_eq_append] at hother ⊢
    have hname : IsName segment := hother segment (by simp)
    have hinit : Canonical init := by simpa using hother.dropLast
    have htext : (text (init ++ [segment])).toList = chars init ++ '/' :: segment.toList := by
      rw [toList_text (by simp), chars_append]
      simp [chars]
    simp only [htext, stem, List.append_assoc, List.singleton_append, Path.parent,
      List.dropLast_concat]
    constructor
    · rintro ⟨rest, ⟨-, hslash⟩, heq⟩
      exact ⟨by simp, chars_injective hinit hpath (last_slash hname.2 hslash heq).1⟩
    · rintro ⟨-, rfl⟩
      refine ⟨segment.toList, ⟨?_, hname.2⟩, rfl⟩
      intro hempty
      simp [IsName, PathText.isSegment, hempty] at hname

theorem above_of_chars {path above : Path} (hpath : path.Canonical) (habove : above.Canonical)
    {rest : List Char} (h : path.chars = above.chars ++ '/' :: rest) : above <+: path := by
  cases above with
  | nil => exact List.nil_prefix
  | cons first others =>
    cases path with
    | nil => simp [chars] at h
    | cons segment path =>
      have htail : segment.toList ++ chars path =
          (first.toList ++ chars others) ++ '/' :: rest := by
        simpa [chars] using h
      have hpieces : (segment :: path).map String.toList =
          (first :: others).map String.toList ++ cut '/' rest := by
        rw [← cut_chars hpath, htail, cut_join, cut_chars habove]
      have hread := congrArg (List.map String.ofList) hpieces
      rw [List.map_append, List.map_map, List.map_map] at hread
      exact ⟨(cut '/' rest).map String.ofList, by simpa [Function.comp_def] using hread.symm⟩

theorem isWithin_text {path above : Path} (hpath : path.Canonical) (habove : above.Canonical) :
    PathText.isWithin path.text above.text = true ↔ above <+: path := by
  rw [PathText.isWithin_iff]
  by_cases hroot : above = []
  · subst hroot
    exact iff_of_true (.inl rfl) List.nil_prefix
  rw [or_iff_right (text_ne_root habove hroot), toList_text hroot]
  constructor
  · rintro (heq | ⟨rest, hrest⟩)
    · exact text_injective hpath habove heq ▸ List.prefix_refl _
    · have hne : path ≠ [] := by
        rintro rfl
        have hpos := List.length_pos_iff.2 (chars_ne_nil hroot)
        have hlength := congrArg List.length hrest
        simp [text] at hlength
        omega
      rw [toList_text hne] at hrest
      exact above_of_chars hpath habove hrest
  · rintro ⟨inner, rfl⟩
    cases inner with
    | nil => exact .inl (by rw [List.append_nil])
    | cons segment others =>
      refine .inr ⟨segment.toList ++ chars others, ?_⟩
      rw [toList_text (by simp), chars_append]
      rfl

theorem rebase_text {base inner : Path} (hbase : base.Canonical) (hinner : inner.Canonical) :
    PathText.rebase base.text inner.text = text (base ++ inner) := by
  unfold PathText.rebase
  cases base with
  | nil => rfl
  | cons first rest =>
    rw [if_neg (text_ne_root hbase (by simp))]
    cases inner with
    | nil => simp [text]
    | cons second others =>
      rw [if_neg (text_ne_root hinner (by simp))]
      refine String.toList_inj.1 ?_
      simp only [text, String.toList_append, String.toList_ofList, List.cons_append, ← chars_append]

theorem text_append {base inner : Path} (hbase : base ≠ []) :
    text (base ++ inner) = base.text ++ String.ofList (chars inner) := by
  refine String.toList_inj.1 ?_
  rw [toList_text (by simp [hbase]), String.toList_append, String.toList_ofList,
    toList_text hbase, chars_append]

theorem size_lt_iff {path a b : Path} (ha : a <+: path) (hb : b <+: path) (hane : a ≠ [])
    (hbne : b ≠ []) : a.text.utf8ByteSize < b.text.utf8ByteSize ↔ a.length < b.length := by
  rcases Nat.lt_or_ge a.length b.length with hlt | hge
  · obtain ⟨rest, rfl⟩ := List.prefix_of_prefix_length_le ha hb (Nat.le_of_lt hlt)
    have hrest : rest ≠ [] := by
      rintro rfl
      simp at hlt
    have hpos : 0 < (String.ofList (chars rest)).utf8ByteSize := by
      refine Nat.pos_of_ne_zero fun hzero => chars_ne_nil hrest ?_
      have hempty := String.utf8ByteSize_eq_zero_iff.1 hzero
      simpa using congrArg String.toList hempty
    rw [text_append hane, String.utf8ByteSize_append]
    exact iff_of_true (by omega) hlt
  · obtain ⟨rest, rfl⟩ := List.prefix_of_prefix_length_le hb ha hge
    rw [text_append hbne, String.utf8ByteSize_append]
    exact iff_of_false (by omega) (Nat.not_lt.2 hge)

theorem below?_text {above inner : Path} (hpath : Canonical (above ++ inner)) :
    PathText.below? (text (above ++ inner)) above.text = some inner.text := by
  have habove : above.Canonical := hpath.above (List.prefix_append _ _)
  have hwithin : PathText.isWithin (text (above ++ inner)) above.text = true :=
    (isWithin_text hpath habove).2 (List.prefix_append _ _)
  by_cases hne : above = []
  · subst hne
    rw [PathText.below?, hwithin]
    rfl
  have hrest : (text (above ++ inner)).toList.drop above.text.length = chars inner := by
    rw [text_append hne, String.toList_append, String.toList_ofList, ← String.length_toList,
      List.drop_left]
  simp only [PathText.below?, hwithin, Bool.not_true, Bool.false_eq_true, if_false,
    text_ne_root habove hne, hrest]
  cases inner with
  | nil => rfl
  | cons segment others => rfl

end Path

namespace PathText

theorem normalize_eq (text : String) : normalize text = (Path.ofText text).text := by
  unfold normalize
  split
  · rename_i hcanonical
    exact (Path.text_ofText hcanonical).symm
  · rfl

theorem append_ne_root {a b : String} (ha : a ≠ "/") (hb : b ≠ "/") : a ++ b ≠ "/" := by
  intro heq
  have hchars : a.toList ++ b.toList = ['/'] := by rw [← String.toList_append, heq]; rfl
  rcases List.append_eq_singleton_iff.1 hchars with ⟨-, hroot⟩ | ⟨hroot, -⟩
  · exact hb (String.toList_inj.1 hroot)
  · exact ha (String.toList_inj.1 hroot)

@[simp] theorem rebase_root (base : String) : rebase base "/" = base := by
  by_cases hbase : base = "/" <;> simp [rebase, hbase]

theorem rebase_eq_append {base inner : String} (hbase : base ≠ "/") (hinner : inner ≠ "/") :
    rebase base inner = base ++ inner := by
  rw [rebase, if_neg hbase, if_neg hinner]

theorem rebase_assoc (outer base inner : String) :
    rebase outer (rebase base inner) = rebase (rebase outer base) inner := by
  by_cases houter : outer = "/"
  · rw [houter]
    rfl
  by_cases hbase : base = "/"
  · rw [hbase, rebase_root]
    rfl
  by_cases hinner : inner = "/"
  · rw [hinner, rebase_root, rebase_root]
  rw [rebase_eq_append hbase hinner, rebase_eq_append houter hbase,
    rebase_eq_append houter (append_ne_root hbase hinner),
    rebase_eq_append (append_ne_root houter hbase) hinner, String.append_assoc]

end PathText

end ToyUnix
