import ToyUnix.Proofs.Canonical
import ToyUnix.Proofs.Text.Order

/-!
Prefixes of path texts. One canonical text is within another just when the names of the one go on
from those of the other; what is left of it below there and what is put there again undo each other.
Whether the characters of two texts are compared or their bytes does not matter, and a text is only
ever divided between two characters. Main statement: `PathText.prefix_laws`.
-/

set_option autoImplicit false

namespace ToyUnix

theorem exists_append_of_prefix {front text : String} (h : front.toList <+: text.toList) :
    ∃ rest, text = front ++ rest := by
  obtain ⟨rest, hrest⟩ := h
  exact ⟨String.ofList rest, String.toList_inj.1 (by simp [hrest])⟩

namespace PathText

theorem exists_append_of_isWithin {path ancestor : String} (h : isWithin path ancestor = true)
    (hroot : ancestor ≠ "/") : ∃ rest, path = ancestor ++ rest := by
  obtain hslash | rfl | ⟨rest, hrest⟩ := isWithin_iff.1 h
  · exact absurd hslash hroot
  · exact ⟨"", by simp⟩
  · exact exists_append_of_prefix ⟨'/' :: rest, hrest.symm⟩

theorem isSome_below? (path ancestor : String) :
    (below? path ancestor).isSome = isWithin path ancestor := by
  unfold below?
  cases isWithin path ancestor with
  | false => rfl
  | true => by_cases hroot : ancestor = "/" <;> simp [hroot]

theorem exists_path {text : String} (h : isCanonical text = true) :
    ∃ path : Path, path.Canonical ∧ path.text = text :=
  ⟨Path.ofText text, Path.canonical_ofText text, Path.text_ofText h⟩

end PathText

namespace Utf8

def slash : UInt8 := 0x2F

/-- Compares bytes: those of `path` are those of `ancestor`, or continue them with a slash. -/
def isWithin (path ancestor : Bytes) : Bool :=
  ancestor = [slash] || path = ancestor
    || (ancestor.isPrefixOf path && path[ancestor.length]? = some slash)

/-- The bytes of `path` from where those of `ancestor` end. -/
def below? (path ancestor : Bytes) : Option Bytes :=
  if !isWithin path ancestor then none
  else if ancestor = [slash] then some path
  else
    let rest := path.drop ancestor.length
    some (if rest = [] then [slash] else rest)

theorem encode_root : encode "/" = [slash] := by decide

theorem encode_eq_root_iff {text : String} : encode text = [slash] ↔ text = "/" := by
  rw [← encode_root, encode_injective.eq_iff]

/-- Encoded characters begin with others only if they do so themselves: no character's bytes begin
with those of another one. -/
theorem prefix_of_encoded {cs ds : List Char}
    (h : cs.flatMap String.utf8EncodeChar <+: ds.flatMap String.utf8EncodeChar) : cs <+: ds := by
  induction cs generalizing ds with
  | nil => exact List.nil_prefix
  | cons c cs ih =>
    cases ds with
    | nil =>
      have hnil := List.append_eq_nil_iff.1 (List.prefix_nil.1 h)
      exact absurd hnil.1 String.utf8EncodeChar_ne_nil
    | cons d ds =>
      obtain ⟨rest, hrest⟩ := h
      rw [List.flatMap_cons, List.flatMap_cons, List.append_assoc] at hrest
      -- The bytes of a lesser character are less, whatever stands behind them.
      rcases lt_trichotomy c d with hlt | rfl | hlt
      · exact absurd (hrest ▸ encodeChar_lt hlt _ _) (List.lt_irrefl _)
      · exact List.cons_prefix_cons.2 ⟨rfl, ih ⟨rest, List.append_cancel_left hrest⟩⟩
      · exact absurd (hrest ▸ encodeChar_lt hlt _ _) (List.lt_irrefl _)

theorem encode_prefix_iff {a b : String} : encode a <+: encode b ↔ a.toList <+: b.toList := by
  refine ⟨prefix_of_encoded, fun h => ?_⟩
  obtain ⟨rest, rfl⟩ := exists_append_of_prefix h
  rw [encode_append]
  exact List.prefix_append _ _

theorem isWithin_encode (path ancestor : String) :
    isWithin (encode path) (encode ancestor) = PathText.isWithin path ancestor := by
  have hslash : encode (ancestor ++ "/") = encode ancestor ++ [slash] := by
    rw [encode_append, encode_root]
  have hcontinues : (∃ rest, encode path = encode ancestor ++ slash :: rest) ↔
      ∃ rest, path.toList = ancestor.toList ++ '/' :: rest := by
    have hprefix := encode_prefix_iff (a := ancestor ++ "/") (b := path)
    rw [hslash, String.toList_append] at hprefix
    simpa [List.IsPrefix, eq_comm] using hprefix
  rw [Bool.eq_iff_iff, PathText.isWithin_iff, ← hcontinues, ← prefix_getElem?_iff]
  simp only [isWithin, Bool.or_eq_true, decide_eq_true_eq, Bool.and_eq_true,
    List.isPrefixOf_iff_prefix, encode_eq_root_iff, encode_injective.eq_iff, or_assoc]

theorem below?_encode (path ancestor : String) :
    below? (encode path) (encode ancestor) = (PathText.below? path ancestor).map encode := by
  simp only [below?, PathText.below?, isWithin_encode, encode_eq_root_iff]
  cases hwithin : PathText.isWithin path ancestor with
  | false => rfl
  | true =>
    by_cases hroot : ancestor = "/"
    · simp [hroot]
    · obtain ⟨rest, rfl⟩ := PathText.exists_append_of_isWithin hwithin hroot
      have hrest : (ancestor ++ rest).toList.drop ancestor.length = rest.toList := by
        rw [String.toList_append, ← String.length_toList, List.drop_left]
      rw [encode_append, List.drop_left, hrest]
      by_cases hempty : rest = ""
      · have hnil : encode "" = [] := rfl
        simp [hroot, hempty, hnil, encode_root]
      · have hbytes : encode rest ≠ [] := fun h => hempty (encode_injective h)
        have hchars : rest.toList ≠ [] := by simpa using hempty
        simp [hroot, hbytes, hchars]

end Utf8

namespace PathText

variable {p q x y : String}

theorem isWithin_iff_components (hp : isCanonical p = true) (hq : isCanonical q = true) :
    isWithin p q = true ↔ components q <+: components p := by
  obtain ⟨path, hpath, rfl⟩ := exists_path hp
  obtain ⟨above, habove, rfl⟩ := exists_path hq
  rw [components_text hpath, components_text habove, Path.isWithin_text hpath habove]

theorem below?_rebase (hq : isCanonical q = true) (hx : isCanonical x = true) :
    below? (rebase q x) q = some x := by
  obtain ⟨above, habove, rfl⟩ := exists_path hq
  obtain ⟨inner, hinner, rfl⟩ := exists_path hx
  rw [Path.rebase_text habove hinner, Path.below?_text (habove.append hinner)]

theorem below?_eq_some_iff (hp : isCanonical p = true) (hq : isCanonical q = true) :
    below? p q = some x ↔ isCanonical x = true ∧ rebase q x = p := by
  constructor
  · intro hbelow
    have hwithin : isWithin p q = true := by rw [← isSome_below?, hbelow, Option.isSome_some]
    obtain ⟨path, hpath, rfl⟩ := exists_path hp
    obtain ⟨above, habove, rfl⟩ := exists_path hq
    obtain ⟨inner, rfl⟩ := (Path.isWithin_text hpath habove).1 hwithin
    have hinner : Path.Canonical inner := by simpa using Path.Canonical.drop hpath above.length
    rw [Path.below?_text hpath, Option.some.injEq] at hbelow
    rw [← hbelow]
    exact ⟨Path.isCanonical_text hinner, Path.rebase_text habove hinner⟩
  · rintro ⟨hx, rfl⟩
    exact below?_rebase hq hx

theorem rebase_injective (hq : isCanonical q = true) (hx : isCanonical x = true)
    (hy : isCanonical y = true) (h : rebase q x = rebase q y) : x = y := by
  have hleft : below? (rebase q x) q = some x := below?_rebase hq hx
  have hright : below? (rebase q y) q = some y := below?_rebase hq hy
  rw [h, hright] at hleft
  exact (Option.some.inj hleft).symm

theorem parent_rebase (hq : isCanonical q = true) (hx : isCanonical x = true) (hne : x ≠ "/") :
    parent (rebase q x) = rebase q (parent x) := by
  obtain ⟨above, habove, rfl⟩ := exists_path hq
  obtain ⟨inner, hinner, rfl⟩ := exists_path hx
  have hinnerne : inner ≠ [] := by
    rintro rfl
    exact hne rfl
  have hparent : inner.parent.Canonical := hinner.dropLast
  rw [Path.rebase_text habove hinner, Path.parent_text (habove.append hinner),
    Path.parent_text hinner, Path.rebase_text habove hparent, Path.parent, Path.parent,
    List.dropLast_append_of_ne_nil hinnerne]

/-- One canonical text is within another just when its components begin with those of the other, and
only then something is left of it below there. What is left and what is put in its place again undo
each other; to put things in their places can be done in any order, loses nothing and takes the
parent along. The bytes of the texts say the same. -/
theorem prefix_laws (hp : isCanonical p = true) (hq : isCanonical q = true)
    (hx : isCanonical x = true) :
    (isWithin p q = true ↔ components q <+: components p) ∧
    ((below? p q).isSome = true ↔ components q <+: components p) ∧
    (∀ inner, below? p q = some inner → isCanonical inner = true ∧ rebase q inner = p) ∧
    below? (rebase q x) q = some x ∧
    rebase p (rebase q x) = rebase (rebase p q) x ∧
    (∀ y, isCanonical y = true → rebase q x = rebase q y → x = y) ∧
    (x ≠ "/" → parent (rebase q x) = rebase q (parent x)) ∧
    Utf8.isWithin (Utf8.encode p) (Utf8.encode q) = isWithin p q ∧
    Utf8.below? (Utf8.encode p) (Utf8.encode q) = (below? p q).map Utf8.encode := by
  have hwithin := isWithin_iff_components hp hq
  refine ⟨hwithin, ?_, fun inner => (below?_eq_some_iff hp hq).1, below?_rebase hq hx,
    rebase_assoc p q x, fun y hy => rebase_injective hq hx hy, parent_rebase hq hx,
    Utf8.isWithin_encode p q, Utf8.below?_encode p q⟩
  rw [isSome_below?, hwithin]

/-- `bä` begins with `b` and is another name; `ä` takes two bytes and is one name. -/
theorem prefix_laws_accented :
    isWithin "/ä/bä" "/ä/b" = false ∧ below? "/ä/b/x/y" "/ä/b" = some "/x/y" ∧
    rebase "/ä/bä" "/ä/b/x/y" = "/ä/bä/ä/b/x/y" ∧ parent "/ä/b/x/y" = rebase "/ä/b" "/x" := by
  obtain ⟨hwithin, -, -, hbelow, hassoc, -, hparent, -⟩ :=
    prefix_laws (show isCanonical "/ä/bä" = true by decide)
      (show isCanonical "/ä/b" = true by decide) (show isCanonical "/x/y" = true by decide)
  refine ⟨?_, hbelow, hassoc, hparent (by decide)⟩
  have hnames : ¬ components "/ä/b" <+: components "/ä/bä" := by decide
  rwa [← hwithin, Bool.not_eq_true] at hnames

end PathText

end ToyUnix
