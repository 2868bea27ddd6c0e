import Mathlib.Data.String.Basic

/-!
# Lower case

`unicode.ToLower`, one rune for one rune, by the simple case mappings of the Unicode tables. Besides
the capitals of ASCII two runes have a lower-case form in ASCII: U+0130 and U+212A.
-/

namespace Trove.Lib.Unicode

open List

/-- Runs of capitals with a run of lower-case forms: the first capital, how many follow it, and the
first form. -/
def runs : List (ℕ × ℕ × ℕ) :=
  [(0xc0, 22, 0xe0), (0xd8, 6, 0xf8), (0x130, 0, 0x69), (0x178, 0, 0xff), (0x181, 0, 0x253),
   (0x186, 0, 0x254), (0x189, 1, 0x256), (0x18e, 0, 0x1dd), (0x18f, 0, 0x259), (0x190, 0, 0x25b),
   (0x193, 0, 0x260), (0x194, 0, 0x263), (0x196, 0, 0x269), (0x197, 0, 0x268), (0x19c, 0, 0x26f),
   (0x19d, 0, 0x272), (0x19f, 0, 0x275), (0x1a6, 0, 0x280), (0x1a9, 0, 0x283), (0x1ae, 0, 0x288),
   (0x1b1, 1, 0x28a), (0x1b7, 0, 0x292), (0x1c4, 0, 0x1c6), (0x1c7, 0, 0x1c9), (0x1ca, 0, 0x1cc),
   (0x1f1, 0, 0x1f3), (0x1f6, 0, 0x195), (0x1f7, 0, 0x1bf), (0x220, 0, 0x19e), (0x23a, 0, 0x2c65),
   (0x23d, 0, 0x19a), (0x23e, 0, 0x2c66), (0x243, 0, 0x180), (0x244, 0, 0x289), (0x245, 0, 0x28c),
   (0x37f, 0, 0x3f3), (0x386, 0, 0x3ac), (0x388, 2, 0x3ad), (0x38c, 0, 0x3cc), (0x38e, 1, 0x3cd),
   (0x391, 16, 0x3b1), (0x3a3, 8, 0x3c3), (0x3cf, 0, 0x3d7), (0x3f4, 0, 0x3b8), (0x3f9, 0, 0x3f2),
   (0x3fd, 2, 0x37b), (0x400, 15, 0x450), (0x410, 31, 0x430), (0x4c0, 0, 0x4cf),
   (0x531, 37, 0x561), (0x10a0, 37, 0x2d00), (0x10c7, 0, 0x2d27), (0x10cd, 0, 0x2d2d),
   (0x13a0, 79, 0xab70), (0x13f0, 5, 0x13f8), (0x1c90, 42, 0x10d0), (0x1cbd, 2, 0x10fd),
   (0x1e9e, 0, 0xdf), (0x1f08, 7, 0x1f00), (0x1f18, 5, 0x1f10), (0x1f28, 7, 0x1f20),
   (0x1f38, 7, 0x1f30), (0x1f48, 5, 0x1f40), (0x1f59, 0, 0x1f51), (0x1f5b, 0, 0x1f53),
   (0x1f5d, 0, 0x1f55), (0x1f5f, 0, 0x1f57), (0x1f68, 7, 0x1f60), (0x1f88, 7, 0x1f80),
   (0x1f98, 7, 0x1f90), (0x1fa8, 7, 0x1fa0), (0x1fb8, 1, 0x1fb0), (0x1fba, 1, 0x1f70),
   (0x1fbc, 0, 0x1fb3), (0x1fc8, 3, 0x1f72), (0x1fcc, 0, 0x1fc3), (0x1fd8, 1, 0x1fd0),
   (0x1fda, 1, 0x1f76), (0x1fe8, 1, 0x1fe0), (0x1fea, 1, 0x1f7a), (0x1fec, 0, 0x1fe5),
   (0x1ff8, 1, 0x1f78), (0x1ffa, 1, 0x1f7c), (0x1ffc, 0, 0x1ff3), (0x2126, 0, 0x3c9),
   (0x212a, 0, 0x6b), (0x212b, 0, 0xe5), (0x2132, 0, 0x214e), (0x2160, 15, 0x2170),
   (0x24b6, 25, 0x24d0), (0x2c00, 47, 0x2c30), (0x2c62, 0, 0x26b), (0x2c63, 0, 0x1d7d),
   (0x2c64, 0, 0x27d), (0x2c6d, 0, 0x251), (0x2c6e, 0, 0x271), (0x2c6f, 0, 0x250),
   (0x2c70, 0, 0x252), (0x2c7e, 1, 0x23f), (0xa77d, 0, 0x1d79), (0xa78d, 0, 0x265),
   (0xa7aa, 0, 0x266), (0xa7ab, 0, 0x25c), (0xa7ac, 0, 0x261), (0xa7ad, 0, 0x26c),
   (0xa7ae, 0, 0x26a), (0xa7b0, 0, 0x29e), (0xa7b1, 0, 0x287), (0xa7b2, 0, 0x29d),
   (0xa7b3, 0, 0xab53), (0xa7c4, 0, 0xa794), (0xa7c5, 0, 0x282), (0xa7c6, 0, 0x1d8e),
   (0xff21, 25, 0xff41), (0x10400, 39, 0x10428), (0x104b0, 35, 0x104d8), (0x10570, 10, 0x10597),
   (0x1057c, 14, 0x105a3), (0x1058c, 6, 0x105b3), (0x10594, 1, 0x105bb), (0x10c80, 50, 0x10cc0),
   (0x118a0, 31, 0x118c0), (0x16e40, 31, 0x16e60), (0x1e900, 33, 0x1e922)]

/-- Runs in which every other rune is a capital and the next one its lower-case form. -/
def alternating : List (ℕ × ℕ) :=
  [(0x100, 0x12e), (0x132, 0x136), (0x139, 0x147), (0x14a, 0x176), (0x179, 0x17d), (0x182, 0x184),
   (0x187, 0x187), (0x18b, 0x18b), (0x191, 0x191), (0x198, 0x198), (0x1a0, 0x1a4), (0x1a7, 0x1a7),
   (0x1ac, 0x1ac), (0x1af, 0x1af), (0x1b3, 0x1b5), (0x1b8, 0x1b8), (0x1bc, 0x1bc), (0x1c5, 0x1c5),
   (0x1c8, 0x1c8), (0x1cb, 0x1db), (0x1de, 0x1ee), (0x1f2, 0x1f4), (0x1f8, 0x21e), (0x222, 0x232),
   (0x23b, 0x23b), (0x241, 0x241), (0x246, 0x24e), (0x370, 0x372), (0x376, 0x376), (0x3d8, 0x3ee),
   (0x3f7, 0x3f7), (0x3fa, 0x3fa), (0x460, 0x480), (0x48a, 0x4be), (0x4c1, 0x4cd), (0x4d0, 0x52e),
   (0x1e00, 0x1e94), (0x1ea0, 0x1efe), (0x2183, 0x2183), (0x2c60, 0x2c60), (0x2c67, 0x2c6b),
   (0x2c72, 0x2c72), (0x2c75, 0x2c75), (0x2c80, 0x2ce2), (0x2ceb, 0x2ced), (0x2cf2, 0x2cf2),
   (0xa640, 0xa66c), (0xa680, 0xa69a), (0xa722, 0xa72e), (0xa732, 0xa76e), (0xa779, 0xa77b),
   (0xa77e, 0xa786), (0xa78b, 0xa78b), (0xa790, 0xa792), (0xa796, 0xa7a8), (0xa7b4, 0xa7c2),
   (0xa7c7, 0xa7c9), (0xa7d0, 0xa7d0), (0xa7d6, 0xa7d8), (0xa7f5, 0xa7f5)]

def toLower (c : Char) : Char :=
  if c.toNat < 128 then c.toLower
  else if alternating.any fun (first, last) =>
      first ≤ c.toNat && c.toNat ≤ last && (c.toNat - first) % 2 == 0 then
    Char.ofNat (c.toNat + 1)
  else
    match runs.find? fun (first, more, _) => first ≤ c.toNat && c.toNat ≤ first + more with
    | some (first, _, lower) => Char.ofNat (lower + (c.toNat - first))
    | none => c

theorem toNat_ofNat {n : ℕ} (h : n.isValidChar) : (Char.ofNat n).toNat = n := by
  rw [Char.ofNat, dif_pos h]
  rfl

/-- The runes from `first` to `last` are no surrogates. -/
def Valid (first last : ℕ) : Prop := last < 0xd800 ∨ 0xdfff < first ∧ last < 0x110000

instance (first last : ℕ) : Decidable (Valid first last) :=
  inferInstanceAs (Decidable (_ ∨ _))

theorem Valid.isValidChar {first last n : ℕ} (h : Valid first last) (hfirst : first ≤ n)
    (hlast : n ≤ last) : n.isValidChar := by
  unfold Valid at h
  omega

theorem alternating_valid : ∀ r ∈ alternating, Valid (r.1 + 1) (r.2 + 1) := by
  decide +kernel

theorem runs_valid : ∀ r ∈ runs, Valid r.2.2 (r.2.2 + r.2.1) ∧
    (128 ≤ r.2.2 ∨ r ∈ [(0x130, 0, 0x69), (0x212a, 0, 0x6b)]) := by
  decide +kernel

variable {c d : Char}

theorem toLower_of_ascii (h : c.toNat < 128) : toLower c = c.toLower := if_pos h

theorem ascii_of_toLower (h : (toLower c).toNat < 128) :
    c.toNat < 128 ∨ c = '\u0130' ∨ c = '\u212a' := by
  unfold toLower at h
  split_ifs at h with has hal
  · exact .inl has
  · obtain ⟨r, hr, hin⟩ := any_eq_true.mp hal
    simp only [Bool.and_eq_true, decide_eq_true_eq] at hin
    rw [toNat_ofNat ((alternating_valid r hr).isValidChar (by omega) (by omega))] at h
    omega
  · split at h
    · rename_i first more lower hfind
      have hin := List.find?_some hfind
      simp only [Bool.and_eq_true, decide_eq_true_eq] at hin
      obtain ⟨hvalid, hlow⟩ := runs_valid _ (mem_of_find?_eq_some hfind)
      rw [toNat_ofNat (hvalid.isValidChar (by dsimp only; omega) (by dsimp only; omega))] at h
      simp only [mem_cons, Prod.mk.injEq, not_mem_nil, or_false] at hlow
      have hc : c.toNat = 0x130 ∨ c.toNat = 0x212a := by omega
      exact .inr (hc.imp (fun h => Char.toNat_inj.mp h) fun h => Char.toNat_inj.mp h)
    · exact absurd h has

/-- A lower-case form in ASCII that is no letter is the rune itself. -/
theorem eq_of_toLower_eq (h : toLower c = d) (hd : d.toNat < 128) (hlt : ¬ ('a' ≤ d ∧ d ≤ 'z')) :
    c = d := by
  subst h
  rcases ascii_of_toLower hd with has | rfl | rfl
  · rw [toLower_of_ascii has] at hlt ⊢
    unfold Char.toLower at hlt ⊢
    split
    · rename_i hup
      refine absurd ?_ hlt
      rw [dif_pos hup]
      simp only [Char.le_def, UInt32.le_iff_toNat_le, UInt32.toNat_add] at hup ⊢
      simp at hup ⊢
      omega
    · rfl
  · exact absurd (by decide +kernel) hlt
  · exact absurd (by decide +kernel) hlt

end Trove.Lib.Unicode
