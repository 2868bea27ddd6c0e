import Mathlib.Algebra.Group.Int.Defs
import Mathlib.Data.List.TakeWhile
import Trove.Lib.Unicode

/-!
# String operations

The operations of Go's `strings` package on Lean strings, through their characters. Byte and
character prefixes agree on valid UTF-8 (`bytes_prefix_iff`), so cutting at characters is cutting at
bytes; only `len` and slices count bytes.
-/

namespace Trove.Lib.Strings

open List

/-- `len(s)`: the number of bytes. -/
def len (s : String) : ℕ := s.utf8ByteSize

def hasPrefix (s p : String) : Bool := p.toList.isPrefixOf s.toList

/-- `strings.Cut` at one character: the part before the first, and the part after it when there is
one. -/
def cut (s : String) (sep : Char) : String × Option String :=
  (String.ofList (s.toList.takeWhile (· ≠ sep)),
    match s.toList.dropWhile (· ≠ sep) with
    | [] => none
    | _ :: rest => some (String.ofList rest))

def cutPrefix (s p : String) : Option String :=
  if hasPrefix s p then some (String.ofList (s.toList.drop p.toList.length)) else none

def trimPrefix (s p : String) : String := (cutPrefix s p).getD s

def cutSuffix (s suffix : String) : Option String :=
  if suffix.toList.isSuffixOf s.toList then
    some (String.ofList (s.toList.take (s.toList.length - suffix.toList.length)))
  else none

def contains (s : String) (c : Char) : Bool := s.toList.contains c

def hasSuffix (s suffix : String) : Bool := suffix.toList.isSuffixOf s.toList

def IsAscii (s : String) : Prop := ∀ c ∈ s.toList, c.toNat < 128

instance (s : String) : Decidable (IsAscii s) :=
  List.decidableBAll (fun c : Char => c.toNat < 128) s.toList

/-- `strings.ToLower`. -/
def toLower (s : String) : String := String.ofList (s.toList.map Unicode.toLower)

/-- The ASCII letter that folds to the same as `c`: U+017F is an s and U+212A a k. -/
def fold (c : Char) : Char :=
  if c = '\u017f' then 's' else if c = '\u212a' then 'k' else c.toLower

/-- `strings.EqualFold` with a word of ASCII. -/
def equalFold (s word : String) : Bool := s.toList.map fold = word.toList.map Char.toLower

def trimLeft (s : String) (cutset : List Char) : String :=
  String.ofList (s.toList.dropWhile (cutset.contains ·))

/-- `unicode.IsSpace`. -/
def isSpace (c : Char) : Bool :=
  c.toNat ∈ [0x09, 0x0a, 0x0b, 0x0c, 0x0d, 0x20, 0x85, 0xa0, 0x1680, 0x2028, 0x2029, 0x202f, 0x205f,
    0x3000] || decide (0x2000 ≤ c.toNat ∧ c.toNat ≤ 0x200a)

/-- `strings.TrimSpace`. -/
def trimSpace (s : String) : String :=
  String.ofList ((s.toList.dropWhile isSpace).reverse.dropWhile isSpace).reverse

def fields (s : String) : List String :=
  ((s.toList.splitOnP isSpace).filter (· ≠ [])).map String.ofList

def split (s : String) (sep : Char) : List String := (s.toList.splitOn sep).map String.ofList

def join (parts : List String) (sep : Char) : String :=
  String.ofList ([sep].intercalate (parts.map String.toList))

/-- `strings.SplitN` at one character: at most `n` pieces, the last of them uncut. -/
def splitN (sep : Char) : ℕ → String → List String
  | 0, _ => []
  | 1, s => [s]
  | n + 2, s =>
    match cut s sep with
    | (_, none) => [s]
    | (before, some rest) => before :: splitN sep (n + 1) rest

/-- `strconv.ParseInt(s, 10, 64)`. -/
def parseInt (s : String) : Option ℤ :=
  let (negative, digits) := match s.toList with
    | '-' :: ds => (true, ds)
    | '+' :: ds | ds => (false, ds)
  if digits = [] ∨ digits.all Char.isDigit = false then none
  else
    let n := digits.foldl (fun (acc : ℕ) d => 10 * acc + (d.toNat - '0'.toNat)) 0
    let n : ℤ := if negative then -n else n
    if -2 ^ 63 ≤ n ∧ n < 2 ^ 63 then some n else none

variable {sep : Char} {s p : String} {α : Type}

theorem head_dropWhile_ne {l rest : List Char} {c : Char} (h : l.dropWhile (· ≠ sep) = c :: rest) :
    c = sep := by
  have hne : l.dropWhile (· ≠ sep) ≠ [] := by
    rw [h]
    exact cons_ne_nil c rest
  have hhd := head_dropWhile_not (· ≠ sep) hne
  simpa only [h, head_cons, decide_eq_false_iff_not, not_not] using hhd

theorem cut_fst_eq_iff {e : String} (he : sep ∉ e.toList) :
    (cut s sep).1 = e ↔ s = e ∨ (e ++ String.singleton sep).toList <+: s.toList := by
  have hls : (cut s sep).1 = e ↔ s.toList.takeWhile (· ≠ sep) = e.toList := by
    rw [← String.toList_inj]
    simp [cut]
  rw [hls]
  constructor
  · intro h
    have hsp := takeWhile_append_dropWhile (p := (· ≠ sep)) (l := s.toList)
    rw [h] at hsp
    cases hdr : s.toList.dropWhile (· ≠ sep) with
    | nil =>
      rw [hdr, append_nil] at hsp
      exact .inl (String.toList_inj.mp hsp.symm)
    | cons c rest =>
      rw [hdr, head_dropWhile_ne hdr] at hsp
      exact .inr ⟨rest, by simpa using hsp⟩
  · have hbf : ∀ c ∈ e.toList, decide (c ≠ sep) = true := fun c hc =>
      decide_eq_true fun heq => he (heq ▸ hc)
    rintro (rfl | ⟨rest, h⟩)
    · exact takeWhile_eq_self_iff.mpr hbf
    · rw [← h, String.toList_append, append_assoc, takeWhile_append_of_pos hbf]
      simp

theorem cut_eq_some {before rest : String} :
    cut s sep = (before, some rest) ↔
      s = before ++ String.singleton sep ++ rest ∧ sep ∉ before.toList := by
  have hsp := takeWhile_append_dropWhile (p := (· ≠ sep)) (l := s.toList)
  have hbf : ∀ c ∈ s.toList.takeWhile (· ≠ sep), c ≠ sep := fun c hc => by
    simpa using mem_takeWhile_imp hc
  unfold cut
  constructor
  · intro h
    obtain ⟨hfst, hsnd⟩ := Prod.mk.inj h
    split at hsnd
    · cases hsnd
    · rename_i c tail htl
      rw [htl, head_dropWhile_ne htl] at hsp
      refine ⟨?_, fun hmem => ?_⟩
      · rw [← String.toList_inj, ← hfst, ← Option.some.inj hsnd]
        simpa using hsp.symm
      · rw [← hfst, String.toList_ofList] at hmem
        exact hbf sep hmem rfl
  · rintro ⟨rfl, hsep⟩
    have hpos : ∀ c ∈ before.toList, decide (c ≠ sep) = true := fun c hc =>
      decide_eq_true fun heq => hsep (heq ▸ hc)
    have htk : (before ++ String.singleton sep ++ rest).toList.takeWhile (· ≠ sep) =
        before.toList := by
      simp only [String.toList_append, append_assoc]
      rw [takeWhile_append_of_pos hpos]
      simp
    have hdr : (before ++ String.singleton sep ++ rest).toList.dropWhile (· ≠ sep) =
        sep :: rest.toList := by
      simp only [String.toList_append, append_assoc]
      rw [dropWhile_append_of_pos hpos]
      simp
    rw [htk, hdr, String.ofList_toList]
    simp only [String.ofList_toList]

theorem cut_fst_of_none (h : (cut s sep).2 = none) : (cut s sep).1 = s := by
  have hsp := takeWhile_append_dropWhile (p := (· ≠ sep)) (l := s.toList)
  unfold cut at h ⊢
  split at h
  · rename_i hdr
    rw [hdr, append_nil] at hsp
    rw [hsp, String.ofList_toList]
  · cases h

theorem splitN_three {a b c : String} :
    splitN sep 3 s = [a, b, c] ↔
      s = a ++ String.singleton sep ++ b ++ String.singleton sep ++ c ∧ sep ∉ a.toList ∧
        sep ∉ b.toList := by
  have htwo : ∀ t : String, splitN sep 2 t = [b, c] ↔ cut t sep = (b, some c) := by
    intro t
    rw [splitN]
    rcases cut t sep with ⟨before, _ | rest⟩ <;> simp [splitN]
  have hth : splitN sep 3 s = [a, b, c] ↔
      ∃ t, cut s sep = (a, some t) ∧ splitN sep 2 t = [b, c] := by
    rw [splitN]
    rcases cut s sep with ⟨before, _ | rest⟩
    · simp
    · simp [and_assoc]
  rw [hth]
  constructor
  · rintro ⟨t, hs, ht⟩
    obtain ⟨rfl, ha⟩ := cut_eq_some.mp hs
    obtain ⟨rfl, hb⟩ := cut_eq_some.mp ((htwo t).mp ht)
    exact ⟨by simp only [String.append_assoc], ha, hb⟩
  · rintro ⟨rfl, ha, hb⟩
    refine ⟨b ++ String.singleton sep ++ c, cut_eq_some.mpr ⟨?_, ha⟩,
      (htwo _).mpr (cut_eq_some.mpr ⟨rfl, hb⟩)⟩
    simp only [String.append_assoc]

theorem toLower_of_ascii (h : IsAscii s) : toLower s = s.toLower := by
  have hmap : s.toLower = s.map Char.toLower := rfl
  rw [toLower, map_congr_left fun c hc => Unicode.toLower_of_ascii (h c hc), ← String.toList_inj,
    String.toList_ofList, hmap, String.toList_map]

theorem isSpace_of_graphic {c : Char} (h : 0x21 ≤ c.toNat ∧ c.toNat < 0x7f) :
    isSpace c = false := by
  simp only [isSpace, Bool.or_eq_false_iff, decide_eq_false_iff_not, mem_cons,
    not_mem_nil, or_false]
  omega

theorem trimSpace_eq_self (h : ∀ c ∈ s.toList, isSpace c = false) : trimSpace s = s := by
  have hdr : ∀ l : List Char, (∀ c ∈ l, isSpace c = false) → l.dropWhile isSpace = l := by
    intro l hl
    cases l with
    | nil => rfl
    | cons c l => exact dropWhile_cons_of_neg (by simp [hl c])
  rw [trimSpace, hdr _ h, hdr _ (by simpa using h), reverse_reverse, String.ofList_toList]

theorem cutSuffix_eq_some {suffix r : String} : cutSuffix s suffix = some r ↔ s = r ++ suffix := by
  rw [cutSuffix, ← String.toList_inj, String.toList_append]
  split_ifs with h
  · obtain ⟨front, hfr⟩ := isSuffixOf_iff_suffix.mp h
    rw [Option.some.injEq, ← hfr, append_left_inj, length_append,
      Nat.add_sub_cancel, take_left', ← String.toList_inj, String.toList_ofList]
    rfl
  · simp only [false_iff]
    intro heq
    exact h (isSuffixOf_iff_suffix.mpr ⟨_, heq.symm⟩)

theorem cutPrefix_eq_some {r : String} : cutPrefix s p = some r ↔ s = p ++ r := by
  rw [cutPrefix, hasPrefix, ← String.toList_inj, String.toList_append]
  split_ifs with h
  · obtain ⟨rest, hrs⟩ := isPrefixOf_iff_prefix.mp h
    rw [Option.some.injEq, ← hrs, append_right_inj, drop_left', ← String.toList_inj,
      String.toList_ofList]
    rfl
  · simp only [false_iff]
    intro heq
    exact h (List.isPrefixOf_iff_prefix.mpr ⟨_, heq.symm⟩)

/-! ## Bytes -/

def bytes (s : String) : List UInt8 := s.toByteArray.data.toList

/-- `s[:n]` for an `n` within the string. -/
def sliceTo (s : String) (n : ℕ) : List UInt8 := (bytes s).take n

theorem bytes_eq (s : String) : bytes s = s.toList.flatMap String.utf8EncodeChar := by
  rw [bytes, ← String.utf8Encode_toList, List.utf8Encode, toList_data_toByteArray]

theorem bytes_append (a b : String) : bytes (a ++ b) = bytes a ++ bytes b := by
  rw [bytes_eq, String.toList_append, flatMap_append, ← bytes_eq, ← bytes_eq]

theorem bytes_of_ascii (h : IsAscii s) :
    bytes s = s.toList.map fun c => UInt8.ofNat c.toNat := by
  rw [bytes_eq]
  unfold IsAscii at h
  revert h
  induction s.toList with
  | nil => exact fun _ => rfl
  | cons c l ih =>
    intro h
    have hc : String.utf8EncodeChar c = [UInt8.ofNat c.toNat] :=
      if_pos (Nat.le_of_lt_succ (h c mem_cons_self))
    rw [flatMap_cons, hc, ih fun d hd => h d (mem_cons_of_mem c hd)]
    rfl

theorem mem_bytes_of_mem {c : Char} (hc : c ∈ s.toList) : String.utf8EncodeChar c ⊆ bytes s := by
  rw [bytes_eq]
  exact fun b hb => mem_flatMap.mpr ⟨c, hc, hb⟩

theorem length_bytes (s : String) : (bytes s).length = len s := rfl

theorem prefix_of_flatMap_utf8EncodeChar {p s : List Char}
    (h : p.flatMap String.utf8EncodeChar <+: s.flatMap String.utf8EncodeChar) : p <+: s := by
  induction p generalizing s with
  | nil => exact nil_prefix
  | cons c p ih =>
    obtain ⟨rest, hrs⟩ := h
    cases s with
    | nil =>
      rw [flatMap_cons, append_assoc] at hrs
      exact absurd (append_eq_nil_iff.mp hrs).1 String.utf8EncodeChar_ne_nil
    | cons d s =>
      rw [flatMap_cons, flatMap_cons, append_assoc] at hrs
      have hby := congrArg List.toByteArray hrs
      rw [toByteArray_append, toByteArray_append (l := String.utf8EncodeChar d),
        ← List.utf8Encode_singleton, ← List.utf8Encode_singleton] at hby
      have hdc := congrArg (ByteArray.utf8DecodeChar? · 0) hby
      simp only [List.utf8DecodeChar?_utf8Encode_singleton_append, Option.some.injEq] at hdc
      subst hdc
      exact cons_prefix_cons.mpr ⟨rfl, ih ⟨rest, append_cancel_left hrs⟩⟩

theorem bytes_prefix_iff : bytes p <+: bytes s ↔ p.toList <+: s.toList := by
  rw [bytes_eq, bytes_eq]
  constructor
  · exact prefix_of_flatMap_utf8EncodeChar
  · rintro ⟨rest, hrs⟩
    rw [← hrs, flatMap_append]
    exact prefix_append _ _

theorem bytes_injective : Function.Injective bytes := by
  intro s t h
  have hst : s.toList <+: t.toList := bytes_prefix_iff.mp (h ▸ prefix_refl (bytes s))
  have hts : t.toList <+: s.toList := bytes_prefix_iff.mp (h ▸ prefix_refl (bytes s))
  exact String.toList_inj.mp (hst.eq_of_length (le_antisymm hst.length_le hts.length_le))

theorem hasPrefix_iff : hasPrefix s p ↔ p.toList <+: s.toList :=
  isPrefixOf_iff_prefix

theorem len_lt_iff_of_prefix (h : p.toList <+: s.toList) :
    len p < len s ↔ p.toList.length < s.toList.length := by
  obtain ⟨rest, hrs⟩ := h
  have hby : bytes s = bytes p ++ rest.flatMap String.utf8EncodeChar := by
    rw [bytes_eq, bytes_eq, ← hrs, flatMap_append]
  rw [← length_bytes, ← length_bytes, hby, ← hrs, length_append, length_append]
  cases rest with
  | nil => simp
  | cons c rest =>
    have hpos := length_pos_iff.mpr (String.utf8EncodeChar_ne_nil (c := c))
    rw [flatMap_cons, length_append, length_cons]
    omega

theorem take_eq_iff_sliceTo_eq :
    String.ofList (s.toList.take p.toList.length) = p ↔ sliceTo s (len p) = bytes p := by
  rw [sliceTo, ← length_bytes, eq_comm (b := bytes p), ← prefix_iff_eq_take,
    bytes_prefix_iff, prefix_iff_eq_take, ← String.toList_inj, String.toList_ofList, eq_comm]

theorem sliceTo_eq_iff : sliceTo s (len p) = bytes p ↔ hasPrefix s p := by
  rw [sliceTo, ← length_bytes, eq_comm, ← prefix_iff_eq_take, bytes_prefix_iff, hasPrefix_iff]

/-! ## Splitting at a separator -/

theorem intercalate_append {sep : List α} {xs ys : List (List α)} (hxs : xs ≠ []) (hys : ys ≠ []) :
    sep.intercalate (xs ++ ys) = sep.intercalate xs ++ (sep ++ sep.intercalate ys) := by
  induction xs with
  | nil => exact absurd rfl hxs
  | cons x xs ih =>
    rcases eq_or_ne xs [] with rfl | hne
    · rw [singleton_append, intercalate_cons_of_ne_nil hys, intercalate_singleton,
        append_assoc]
    · rw [cons_append, intercalate_cons_of_ne_nil (by simp [hne]), ih hne,
        intercalate_cons_of_ne_nil hne]
      simp only [append_assoc]

theorem splitOn_prefix_iff [DecidableEq α] {a : α} {p n : List α} :
    p.splitOn a <+: n.splitOn a ∧ p.splitOn a ≠ n.splitOn a ↔ p ++ [a] <+: n := by
  constructor
  · rintro ⟨⟨pieces, hpc⟩, hne⟩
    have hnil : pieces ≠ [] := by
      rintro rfl
      exact hne (by simpa using hpc)
    have hn : [a].intercalate (p.splitOn a ++ pieces) = n := by
      rw [hpc, intercalate_splitOn]
    rw [intercalate_append (splitOn_ne_nil a p) hnil, intercalate_splitOn] at hn
    rw [← hn, ← append_assoc]
    exact prefix_append _ _
  · rintro ⟨rest, rfl⟩
    rw [append_assoc, singleton_append, splitOn_append_cons_self]
    refine ⟨prefix_append _ _, fun h => ?_⟩
    simp at h

theorem not_mem_of_mem_splitOn [DecidableEq α] {a : α} {l piece : List α}
    (h : piece ∈ l.splitOn a) :
    a ∉ piece := by
  induction l generalizing piece with
  | nil =>
    rw [splitOn_nil, mem_singleton] at h
    simp [h]
  | cons x l ih =>
    rw [splitOn_cons_eq_if_modifyHead] at h
    split_ifs at h with hx
    · rcases mem_cons.mp h with rfl | h
      · exact not_mem_nil
      · exact ih h
    · cases hsp : l.splitOn a with
      | nil => exact absurd hsp (splitOn_ne_nil a l)
      | cons first rest =>
        rw [hsp, modifyHead_cons] at h
        rcases mem_cons.mp h with rfl | h
        · have hfr := ih (hsp ▸ mem_cons_self)
          have hne : a ≠ x := fun heq => hx (by simp [heq])
          simp [hfr, hne]
        · exact ih (hsp ▸ mem_cons_of_mem first h)

theorem mem_splitOn_of_mem [DecidableEq α] {a x : α} {l : List α} (h : x ∈ l) (hx : x ≠ a) :
    ∃ piece ∈ l.splitOn a, x ∈ piece := by
  induction l with
  | nil => cases h
  | cons y l ih =>
    rw [splitOn_cons_eq_if_modifyHead]
    split_ifs with hy
    · rcases mem_cons.mp h with rfl | h
      · exact absurd (eq_of_beq hy) hx
      · obtain ⟨piece, hpc, hmem⟩ := ih h
        exact ⟨piece, mem_cons_of_mem _ hpc, hmem⟩
    · cases hsp : l.splitOn a with
      | nil => exact absurd hsp (splitOn_ne_nil a l)
      | cons first rest =>
        rw [hsp] at ih
        rcases mem_cons.mp h with rfl | h
        · exact ⟨_, mem_cons_self, mem_cons_self⟩
        · obtain ⟨piece, hpc, hmem⟩ := ih h
          rcases mem_cons.mp hpc with rfl | hpc
          · exact ⟨_, mem_cons_self, mem_cons_of_mem y hmem⟩
          · exact ⟨piece, mem_cons_of_mem _ hpc, hmem⟩

theorem splitOn_map {β : Type} [DecidableEq α] [DecidableEq β] {f : α → β} {a : α} {l : List α}
    (h : ∀ x ∈ l, f x = f a → x = a) :
    (l.map f).splitOn (f a) = (l.splitOn a).map (List.map f) := by
  induction l with
  | nil => rfl
  | cons x l ih =>
    have ih := ih fun y hy => h y (mem_cons_of_mem x hy)
    rw [map_cons, splitOn_cons_eq_if_modifyHead, splitOn_cons_eq_if_modifyHead, ih]
    by_cases hx : x = a
    · simp [hx]
    · have hfx : f x ≠ f a := fun heq => hx (h x mem_cons_self heq)
      cases hsp : l.splitOn a <;> simp [hx, hfx]

section Split

variable {sep : Char}

theorem split_append (sep : Char) (a b : String) :
    split (a ++ String.singleton sep ++ b) sep = split a sep ++ split b sep := by
  simp only [split, String.toList_append, String.toList_singleton, append_assoc,
    singleton_append, splitOn_append_cons_self, map_append]

theorem split_ne_nil (s : String) (sep : Char) : split s sep ≠ [] := by
  simp [split, splitOn_ne_nil]

theorem join_split (s : String) (sep : Char) : join (split s sep) sep = s := by
  rw [join, split, map_map, String.toList_comp_ofList, map_id, intercalate_splitOn,
    String.ofList_toList]

theorem join_append {xs ys : List String} (hxs : xs ≠ []) (hys : ys ≠ []) :
    join (xs ++ ys) sep = join xs sep ++ String.singleton sep ++ join ys sep := by
  rw [← String.toList_inj]
  simp only [join, map_append, String.toList_append, String.toList_ofList,
    String.toList_singleton]
  rw [intercalate_append (by simpa using hxs) (by simpa using hys), append_assoc]

theorem join_singleton (s : String) : join [s] sep = s := by
  simp [join]

theorem join_cons_cons (a b : String) (rest : List String) :
    join (a :: b :: rest) sep = a ++ (String.singleton sep ++ join (b :: rest) sep) := by
  rw [← singleton_append, join_append (cons_ne_nil a []) (cons_ne_nil b rest),
    join_singleton, String.append_assoc]

theorem split_join {parts : List String} (hne : parts ≠ [])
    (h : ∀ part ∈ parts, sep ∉ part.toList) : split (join parts sep) sep = parts := by
  rw [split, join, String.toList_ofList, splitOn_intercalate]
  · simp [map_map, Function.comp_def]
  · simpa using h
  · simpa using hne

theorem split_eq_singleton {s : String} (h : sep ∉ s.toList) : split s sep = [s] := by
  have hjn := split_join (cons_ne_nil s []) (by simpa using h)
  rwa [join_singleton] at hjn

theorem mem_split_of_mem {s : String} {c : Char} (h : c ∈ s.toList) (hc : c ≠ sep) :
    ∃ part ∈ split s sep, c ∈ part.toList := by
  obtain ⟨piece, hpc, hmem⟩ := mem_splitOn_of_mem h hc
  exact ⟨String.ofList piece, mem_map_of_mem hpc, by simpa using hmem⟩

theorem not_mem_of_mem_split {s part : String} (h : part ∈ split s sep) : sep ∉ part.toList := by
  obtain ⟨piece, hpc, rfl⟩ := mem_map.mp h
  rw [String.toList_ofList]
  exact not_mem_of_mem_splitOn hpc

end Split

end Trove.Lib.Strings
