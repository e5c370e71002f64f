import Mathlib.Data.List.Infix
import Mathlib.Data.String.Basic
import ToyUnix.Text.Utf8

/-!
The order of texts. Texts are compared character by character; their UTF-8 bytes compare the same
way. The texts with one stem have no other text between them, so a scan over texts in order finds
them all in one stretch.
-/

set_option autoImplicit false

namespace ToyUnix

namespace Utf8

theorem ofNat_cons_lt {m n : Nat} (hm : m < 256) (hn : n < 256) {s t : Bytes} :
    UInt8.ofNat m :: s < UInt8.ofNat n :: t ↔ m < n ∨ m = n ∧ s < t := by
  rw [List.cons_lt_cons_iff, UInt8.lt_iff_toNat_lt, ← UInt8.toNat_inj,
    UInt8.toNat_ofNat_of_lt' hm, UInt8.toNat_ofNat_of_lt' hn]

/-- The lesser of two numbers is less at its first digit, to the base 64, that is not the same. -/
theorem digit_lt {m n : Nat} (h : m < n) :
    m / 64 < n / 64 ∨ m / 64 = n / 64 ∧ m % 64 < n % 64 := by
  omega

/-- No byte sequence of a character goes on where that of a greater one ends. -/
theorem encodeChar_lt {c d : Char} (h : c < d) (s t : Bytes) :
    String.utf8EncodeChar c ++ s < String.utf8EncodeChar d ++ t := by
  have hlt : c.val.toNat < d.val.toNat := h
  have hd : d.val.toNat < 0x110000 := by
    have hvalid : d.val.toNat < 0xd800 ∨ 0xdfff < d.val.toNat ∧ d.val.toNat < 0x110000 := d.valid
    omega
  unfold String.utf8EncodeChar
  dsimp only
  generalize c.val.toNat = m at *
  generalize d.val.toNat = n at *
  have hm₂ : m / 4096 = m / 64 / 64 := by omega
  have hm₃ : m / 262144 % 8 = m / 64 / 64 / 64 := by omega
  have hn₂ : n / 4096 = n / 64 / 64 := by omega
  have hn₃ : n / 262144 % 8 = n / 64 / 64 / 64 := by omega
  simp only [hm₂, hm₃, hn₂, hn₃]
  have hdigits : m / 64 / 64 / 64 < n / 64 / 64 / 64 ∨ m / 64 / 64 / 64 = n / 64 / 64 / 64 ∧
      (m / 64 / 64 % 64 < n / 64 / 64 % 64 ∨ m / 64 / 64 % 64 = n / 64 / 64 % 64 ∧
        (m / 64 % 64 < n / 64 % 64 ∨ m / 64 % 64 = n / 64 % 64 ∧ m % 64 < n % 64)) := by
    rcases digit_lt hlt with h₁ | ⟨h₁, h₀⟩
    · rcases digit_lt h₁ with h₂ | ⟨h₂, h₁⟩
      · rcases digit_lt h₂ with h₃ | ⟨h₃, h₂⟩ <;> omega
      · omega
    · omega
  -- One case for each pair of lengths; a longer sequence has the greater first byte.
  split_ifs <;>
    simp (disch := omega) only [List.cons_append, List.nil_append, ofNat_cons_lt] <;> omega

theorem encode_lt {a b : String} (h : a < b) : encode a < encode b := by
  rw [String.lt_iff_toList_lt] at h
  unfold encode
  generalize a.toList = cs at *
  generalize b.toList = ds at *
  induction h with
  | nil =>
    rw [List.flatMap_cons]
    obtain ⟨byte, bytes, hbytes⟩ := List.exists_cons_of_ne_nil String.utf8EncodeChar_ne_nil
    rw [hbytes]
    exact List.nil_lt_cons _ _
  | cons _ ih => exact List.append_left_lt ih
  | rel h => exact encodeChar_lt h _ _

theorem encode_injective : Function.Injective encode := by
  intro a b h
  rcases lt_trichotomy a b with hlt | heq | hlt
  · exact absurd (h ▸ encode_lt hlt) (List.lt_irrefl _)
  · exact heq
  · exact absurd (h ▸ encode_lt hlt) (List.lt_irrefl _)

theorem encode_append (a b : String) : encode (a ++ b) = encode a ++ encode b := by
  rw [encode, String.toList_append, List.flatMap_append]
  rfl

end Utf8

/-! Stems. -/

section

variable {stem a b : List Char}

theorem not_lt_stem (h : stem <+: a) : ¬ a < stem := by
  obtain ⟨rest, rfl⟩ := h
  induction stem with
  | nil => exact List.not_lt_nil _
  | cons c stem ih => simpa [List.cons_lt_cons_iff] using ih

theorem stem_of_between (hb : stem <+: b) (ha : ¬ a < stem) (hab : ¬ b < a) : stem <+: a := by
  induction stem generalizing a b with
  | nil => exact List.nil_prefix
  | cons c stem ih =>
    obtain ⟨rest, rfl⟩ := hb
    cases a with
    | nil => exact absurd (List.nil_lt_cons c stem) ha
    | cons d a =>
      rw [List.cons_append] at hab
      rw [List.cons_lt_cons_iff, not_or, not_and] at ha hab
      obtain rfl : c = d := le_antisymm (not_lt.1 ha.1) (not_lt.1 hab.1)
      exact List.cons_prefix_cons.2 ⟨rfl, ih ⟨rest, rfl⟩ (ha.2 rfl) (hab.2 rfl)⟩

variable {α : Type} {l : List α} {key : α → List Char}

theorem mem_takeWhile_stem (hordered : l.Pairwise fun x y => ¬ key y < key x)
    (hfrom : ∀ y ∈ l, ¬ key y < stem) {x : α} :
    x ∈ l.takeWhile (fun y => stem.isPrefixOf (key y)) ↔ x ∈ l ∧ stem <+: key x := by
  induction l with
  | nil => simp
  | cons y l ih =>
    obtain ⟨hleast, hrest⟩ := List.pairwise_cons.1 hordered
    have hlater := ih hrest fun z hz => hfrom z (List.mem_cons_of_mem y hz)
    rw [List.takeWhile_cons]
    by_cases hy : stem <+: key y
    · rw [if_pos (List.isPrefixOf_iff_prefix.2 hy), List.mem_cons, hlater, List.mem_cons]
      constructor
      · rintro (rfl | ⟨hx, hstem⟩)
        · exact ⟨Or.inl rfl, hy⟩
        · exact ⟨Or.inr hx, hstem⟩
      · rintro ⟨rfl | hx, hstem⟩
        · exact Or.inl rfl
        · exact Or.inr ⟨hx, hstem⟩
    · rw [if_neg (mt List.isPrefixOf_iff_prefix.1 hy)]
      refine iff_of_false (List.not_mem_nil) fun ⟨hx, hstem⟩ => ?_
      rcases List.mem_cons.1 hx with rfl | hx
      · exact hy hstem
      · exact hy (stem_of_between hstem (hfrom y List.mem_cons_self) (hleast x hx))

/-- The scan of a list in order finds all entries whose texts begin with the stem. -/
theorem mem_scan (hordered : l.Pairwise fun x y => ¬ key y < key x) {x : α} :
    x ∈ (l.dropWhile fun y => decide (key y < stem)).takeWhile
      (fun y => stem.isPrefixOf (key y)) ↔ x ∈ l ∧ stem <+: key x := by
  induction l with
  | nil => simp
  | cons y l ih =>
    obtain ⟨hleast, hrest⟩ := List.pairwise_cons.1 hordered
    by_cases hbefore : key y < stem
    · rw [List.dropWhile_cons_of_pos (by simpa using hbefore), ih hrest, List.mem_cons]
      constructor
      · exact fun ⟨hx, hstem⟩ => ⟨Or.inr hx, hstem⟩
      · rintro ⟨rfl | hx, hstem⟩
        · exact absurd hbefore (not_lt_stem hstem)
        · exact ⟨hx, hstem⟩
    · rw [List.dropWhile_cons_of_neg (by simpa using hbefore)]
      refine mem_takeWhile_stem hordered fun z hz hless => ?_
      rcases List.mem_cons.1 hz with rfl | hz
      · exact hbefore hless
      · exact hleast z hz (lt_of_lt_of_le hless (not_lt.1 hbefore))

end

end ToyUnix
