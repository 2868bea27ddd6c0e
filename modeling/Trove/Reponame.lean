import Mathlib.Computability.RegularExpressions
import Trove.Lib.Strings

/-!
# The repository-name grammar

`validate` is `reponame.Validate`, and `valid` the condition under which it accepts. The grammar's
pattern is a regular expression over the classes its characters fall into: every class but `alnum`
is one character. `strings.ToLower` is read on ASCII; a name with an upper-case letter beyond ASCII
is refused by the pattern instead, with the pattern's reason.
-/

namespace Trove.Reponame

open Lib List Strings

def maxLength : ℕ := 255

inductive CharClass
  | alnum
  | dot
  | underscore
  | dash
  | slash
  | other
  deriving DecidableEq

/-- The class of a character; `alnum` is `[a-z0-9]`. -/
def classOf (c : Char) : CharClass :=
  if ('a' ≤ c ∧ c ≤ 'z') ∨ ('0' ≤ c ∧ c ≤ '9') then .alnum
  else if c = '.' then .dot
  else if c = '_' then .underscore
  else if c = '-' then .dash
  else if c = '/' then .slash
  else .other

def cls (c : CharClass) : RegularExpression CharClass := RegularExpression.char c

def plusOf (r : RegularExpression CharClass) : RegularExpression CharClass := r * r.star

/-- `(?:[._]|__|[-]+)`. -/
def separator : RegularExpression CharClass :=
  cls .dot + cls .underscore + cls .underscore * cls .underscore + plusOf (cls .dash)

/-- `[a-z0-9]+(?:(?:[._]|__|[-]+)[a-z0-9]+)*`. -/
def component : RegularExpression CharClass :=
  plusOf (cls .alnum) * (separator * plusOf (cls .alnum)).star

/-- Components separated by slashes, anchored at both ends. -/
def pattern : RegularExpression CharClass := component * (cls .slash * component).star

/-- `reponame.Validate` accepts the name. -/
def valid (name : String) : Bool :=
  name ≠ "" && decide (Strings.len name ≤ maxLength) &&
    Strings.toLower name == name && pattern.rmatch (name.toList.map classOf)

inductive Reason
  | empty
  | tooLong (got : ℕ)
  | notLowercase
  | notComponents
  deriving DecidableEq

def Reason.text : Reason → String
  | .empty => "must not be empty"
  | .tooLong got =>
    "must be at most " ++ toString maxLength ++ " characters, got " ++ toString got
  | .notLowercase => "must be lowercase: one repository has one name"
  | .notComponents =>
    "must be path components of [a-z0-9] separated by '.', '_', '__' or '-'"

structure InvalidError where
  name : String
  reason : Reason
  deriving DecidableEq

def InvalidError.message (quote : String → String) (e : InvalidError) : String :=
  "invalid repository name " ++ quote e.name ++ ": " ++ e.reason.text

def validate (name : String) : Except InvalidError Unit :=
  if name = "" then .error ⟨name, .empty⟩
  else if Strings.len name > maxLength then .error ⟨name, .tooLong (Strings.len name)⟩
  else if Strings.toLower name ≠ name then .error ⟨name, .notLowercase⟩
  else if !pattern.rmatch (name.toList.map classOf) then .error ⟨name, .notComponents⟩
  else .ok ()

@[ext] structure Name where
  text : String
  isValid : valid text
  deriving DecidableEq

/-- `reponame.Prefix`: the first path component. -/
def prefixOf (name : String) : String := (Strings.cut name '/').1

def segments (name : String) : List String := (name.toList.splitOn '/').map String.ofList

variable {name : String} {w : List CharClass}

theorem validate_eq_ok : validate name = .ok () ↔ valid name := by
  simp only [validate, valid]
  split_ifs <;> simp_all

def parseName (name : String) : Except InvalidError Name :=
  match h : validate name with
  | .error err => .error err
  | .ok () => .ok ⟨name, validate_eq_ok.mp h⟩

/-! ## The grammar -/

/-- Words of `R` with words of `S` between them. -/
inductive Joined {α : Type} (R S : List α → Prop) : List α → Prop
  | one {w : List α} : R w → Joined R S w
  | more {w sep t : List α} : Joined R S w → S sep → R t → Joined R S (w ++ sep ++ t)

section Joined

variable {α : Type} [DecidableEq α] {r q : RegularExpression α} {R S : List α → Prop}

theorem joined_rmatch (hR : ∀ w, r.rmatch w ↔ R w) (hS : ∀ w, q.rmatch w ↔ S w)
    (hne : ∀ w, R w → w ≠ []) (w : List α) : (r * (q * r).star).rmatch w ↔ Joined R S w := by
  simp only [RegularExpression.star_rmatch_iff, RegularExpression.mul_rmatch_iff, hR, hS]
  constructor
  · rintro ⟨t, u, rfl, ht, words, rfl, hwr⟩
    induction words using List.reverseRecOn with
    | nil => simpa using Joined.one ht
    | append_singleton words v ih =>
      obtain ⟨-, sep, t', rfl, hsep, ht'⟩ := hwr v (by simp)
      rw [flatten_concat, ← append_assoc, ← append_assoc]
      exact (ih fun v hv => hwr v (by simp [hv])).more hsep ht'
  · intro h
    induction h with
    | one hw => exact ⟨_, [], by simp, hw, [], rfl, by simp⟩
    | more _ hsep ht ih =>
      rename_i w sep t _
      obtain ⟨first, u, rfl, hfr, words, rfl, hwr⟩ := ih
      refine ⟨first, (words ++ [sep ++ t]).flatten, by simp, hfr, _, rfl, ?_⟩
      intro v hv
      rcases mem_append.mp hv with hv | hv
      · exact hwr v hv
      · obtain rfl := mem_singleton.mp hv
        exact ⟨by simp [hne t ht], sep, t, rfl, hsep, ht⟩

theorem joined_iff_splitOn {a : α} (h : ∀ w, R w → a ∉ w) (w : List α) :
    Joined R (· = [a]) w ↔ ∀ piece ∈ w.splitOn a, R piece := by
  have hpc : ∀ (pieces : List (List α)), pieces ≠ [] → (∀ piece ∈ pieces, R piece) →
      Joined R (· = [a]) ([a].intercalate pieces) := by
    intro pieces
    induction pieces using List.reverseRecOn with
    | nil => exact fun hne => absurd rfl hne
    | append_singleton pieces piece ih =>
      intro _ hR
      have hls := hR piece (by simp)
      rcases eq_or_ne pieces [] with rfl | hne
      · simpa using Joined.one hls
      · rw [intercalate_append hne (by simp), intercalate_singleton,
          ← append_assoc]
        exact (ih hne fun p hp => hR p (by simp [hp])).more rfl hls
  have hone : ∀ w, R w → w.splitOn a = [w] := by
    intro w hw
    have hsp := @splitOn_intercalate _ [w] _ _ a (by simpa using h w hw) (by simp)
    rwa [intercalate_singleton] at hsp
  constructor
  · intro hw
    induction hw with
    | one hw =>
      simpa [hone _ hw] using hw
    | more _ hsep ht ih =>
      rw [hsep, append_assoc, singleton_append, splitOn_append_cons_self, hone _ ht]
      simpa [or_imp, forall_and] using ⟨ih, ht⟩
  · intro hw
    have hjn := hpc _ (splitOn_ne_nil a w) hw
    rwa [intercalate_splitOn] at hjn

omit [DecidableEq α] in
theorem Joined.getLast? {a : α} (h : ∀ w, R w → w.getLast? = some a) {w : List α}
    (hw : Joined R S w) : w.getLast? = some a := by
  cases hw with
  | one hw => exact h _ hw
  | more _ _ ht => rw [List.getLast?_append, h _ ht, Option.some_or]

end Joined

def IsRun (c : CharClass) (w : List CharClass) : Prop := ∃ n, w = List.replicate (n + 1) c

/-- One dot, one or two underscores, or one or more hyphens. -/
def IsSeparator (w : List CharClass) : Prop :=
  w = [.dot] ∨ w = [.underscore] ∨ w = [.underscore, .underscore] ∨ IsRun .dash w

/-- Runs of letters and digits joined by single separators. -/
def IsComponent : List CharClass → Prop := Joined (IsRun .alnum) IsSeparator

theorem plusOf_rmatch (c : CharClass) (w : List CharClass) :
    (plusOf (cls c)).rmatch w ↔ IsRun c w := by
  rw [plusOf, cls, RegularExpression.mul_rmatch_iff]
  simp only [RegularExpression.star_rmatch_iff, RegularExpression.char_rmatch_iff]
  constructor
  · rintro ⟨t, u, rfl, rfl, words, rfl, hwr⟩
    obtain ⟨n, rfl⟩ : ∃ n, words = List.replicate n [c] :=
      ⟨_, eq_replicate_of_mem fun v hv => (hwr v hv).2⟩
    exact ⟨n, by simp [replicate_succ]⟩
  · rintro ⟨n, rfl⟩
    refine ⟨[c], List.replicate n c, rfl, rfl, List.replicate n [c], by simp, ?_⟩
    intro v hv
    simp [eq_of_mem_replicate hv]

theorem separator_rmatch (w : List CharClass) : separator.rmatch w ↔ IsSeparator w := by
  have hcls : ∀ c w, (cls c).rmatch w ↔ w = [c] := RegularExpression.char_rmatch_iff
  simp only [separator, RegularExpression.add_rmatch_iff, plusOf_rmatch, IsSeparator,
    RegularExpression.mul_rmatch_iff, hcls, or_assoc]
  refine or_congr_right (or_congr_right (or_congr_left ⟨?_, ?_⟩))
  · rintro ⟨t, u, rfl, rfl, rfl⟩
    rfl
  · rintro rfl
    exact ⟨_, _, rfl, rfl, rfl⟩

theorem component_rmatch (w : List CharClass) : component.rmatch w ↔ IsComponent w :=
  joined_rmatch (plusOf_rmatch .alnum) separator_rmatch
    (by rintro w ⟨n, rfl⟩; simp) w

theorem class_of_mem (h : IsComponent w) {c : CharClass} (hc : c ∈ w) :
    c ≠ .slash ∧ c ≠ .other := by
  have hrun : ∀ {d : CharClass} {w}, d ≠ .slash ∧ d ≠ .other → IsRun d w → c ∈ w →
      c ≠ .slash ∧ c ≠ .other := by
    rintro d w hd ⟨n, rfl⟩ hmem
    rwa [eq_of_mem_replicate hmem]
  induction h with
  | one hw => exact hrun (by decide) hw hc
  | more _ hsep ht ih =>
    rcases mem_append.mp hc with hc | hc
    · rcases mem_append.mp hc with hc | hc
      · exact ih hc
      · rcases hsep with rfl | rfl | rfl | hds
        · exact hrun (by decide) ⟨0, rfl⟩ hc
        · exact hrun (by decide) ⟨0, rfl⟩ hc
        · exact hrun (by decide) ⟨1, rfl⟩ hc
        · exact hrun (by decide) hds hc
    · exact hrun (by decide) ht hc

theorem component_getLast? (h : IsComponent w) : w.getLast? = some .alnum :=
  h.getLast? fun w hw => by
    obtain ⟨n, rfl⟩ := hw
    simp [List.getLast?_replicate]

theorem pattern_rmatch_joined (w : List CharClass) :
    pattern.rmatch w ↔ Joined IsComponent (· = [.slash]) w := by
  refine joined_rmatch component_rmatch (RegularExpression.char_rmatch_iff _) ?_ w
  rintro w hw rfl
  cases component_getLast? hw

theorem pattern_rmatch (w : List CharClass) :
    pattern.rmatch w ↔ ∀ piece ∈ w.splitOn .slash, IsComponent piece := by
  rw [pattern_rmatch_joined, joined_iff_splitOn fun _ hw hmem => (class_of_mem hw hmem).1 rfl]

theorem alnum_getLast (h : valid name) : name.toList.getLast?.map classOf = some .alnum := by
  simp only [valid, Bool.and_eq_true] at h
  rw [← List.getLast?_map]
  exact ((pattern_rmatch_joined _).mp h.2).getLast? fun _ => component_getLast?

theorem eq_slash {c : Char} (h : classOf c = .slash) : c = '/' := by
  unfold classOf at h
  split_ifs at h
  assumption

theorem ascii_of_class {c : Char} (h : classOf c ≠ .other) : c.toNat < 128 ∧ c.toLower = c := by
  unfold classOf at h
  split_ifs at h with hal hdot hun hds hsl
  · have hlw : ('a' ≤ c ∧ c ≤ 'z') ↔ 97 ≤ c.toNat ∧ c.toNat ≤ 122 := Iff.rfl
    have hdg : ('0' ≤ c ∧ c ≤ '9') ↔ 48 ≤ c.toNat ∧ c.toNat ≤ 57 := Iff.rfl
    rw [hlw, hdg] at hal
    have hup : ¬(c.val ≥ ('A').val ∧ c.val ≤ ('Z').val) := by
      change ¬(65 ≤ c.toNat ∧ c.toNat ≤ 90)
      omega
    exact ⟨by omega, dif_neg hup⟩
  · subst hdot; decide
  · subst hun; decide
  · subst hds; decide
  · subst hsl; decide
  · exact absurd rfl h

theorem pattern_rmatch_map {α : Type} [DecidableEq α] {f : α → CharClass} {a : α}
    (ha : f a = .slash) (h : ∀ x, f x = .slash → x = a) (l : List α) :
    pattern.rmatch (l.map f) ↔ ∀ piece ∈ l.splitOn a, IsComponent (piece.map f) := by
  rw [pattern_rmatch, ← ha, splitOn_map fun x _ hx => h x (hx.trans ha), forall_mem_map]

theorem class_of_rmatch (h : pattern.rmatch w) {c : CharClass} (hc : c ∈ w) : c ≠ .other := by
  rintro rfl
  obtain ⟨piece, hpc, hmem⟩ := mem_splitOn_of_mem (a := .slash) hc (by decide)
  exact (class_of_mem ((pattern_rmatch _).mp h piece hpc) hmem).2 rfl

theorem valid_iff_rmatch : valid name = true ↔ name ≠ "" ∧
    Strings.len name ≤ maxLength ∧ pattern.rmatch (name.toList.map classOf) = true := by
  simp only [valid, Bool.and_eq_true, decide_eq_true_eq, beq_iff_eq]
  refine ⟨fun h => ⟨h.1.1.1, h.1.1.2, h.2⟩, fun h => ⟨⟨⟨h.1, h.2.1⟩, ?_⟩, h.2.2⟩⟩
  rw [Strings.toLower, map_congr_left fun c hc => ?_, map_id', String.ofList_toList]
  obtain ⟨has, hlw⟩ := ascii_of_class (class_of_rmatch h.2.2 (mem_map_of_mem hc))
  exact (Unicode.toLower_of_ascii has).trans hlw

theorem not_mem_of_valid (h : valid name) {c : Char} (hc : classOf c = .other) :
    c ∉ name.toList := fun hmem =>
  class_of_rmatch (valid_iff_rmatch.mp h).2.2 (mem_map_of_mem hmem) hc

/-! ## Names as bytes -/

/-- The class of a byte; bytes beyond ASCII are in no class of the grammar. -/
def byteClass (b : UInt8) : CharClass := classOf (Char.ofNat b.toNat)

/-- `validate` accepts the bytes. Bytes that are no text are refused: folding and matching both
replace them. -/
def Accepts (name : List UInt8) : Prop :=
  ∃ text, Strings.bytes text = name ∧ validate text = .ok ()

theorem map_byteClass_bytes (h : ∀ c ∈ name.toList, c.toNat < 128) :
    (Strings.bytes name).map byteClass = name.toList.map classOf := by
  rw [bytes_of_ascii h, map_map]
  refine map_congr_left fun c hc => ?_
  have hlt := h c hc
  rw [Function.comp_apply, byteClass, UInt8.toNat_ofNat', Nat.mod_eq_of_lt (by omega),
    Char.ofNat_toNat]

theorem bytes_ofList_map {name : List UInt8} (h : ∀ b ∈ name, byteClass b ≠ .other) :
    Strings.bytes (String.ofList (name.map fun b => Char.ofNat b.toNat)) = name := by
  rw [bytes_of_ascii, String.toList_ofList, map_map]
  · refine (map_congr_left fun b _ => ?_).trans (map_id name)
    have hb := b.toNat_lt
    rw [Function.comp_apply, Unicode.toNat_ofNat (.inl (by omega)), UInt8.ofNat_toNat, id]
  · intro c hc
    rw [String.toList_ofList] at hc
    obtain ⟨b, hb, rfl⟩ := mem_map.mp hc
    exact (ascii_of_class (h b hb)).1

theorem accepts_iff (name : List UInt8) :
    Accepts name ↔ 1 ≤ name.length ∧ name.length ≤ maxLength ∧
      ∀ piece ∈ name.splitOn 0x2f, IsComponent (piece.map byteClass) := by
  have hsl : ∀ b : UInt8, byteClass b = .slash → b = 0x2f := by
    intro b hb
    have hlt := b.toNat_lt
    have htn := congrArg Char.toNat (eq_slash hb)
    rw [Unicode.toNat_ofNat (.inl (by omega))] at htn
    exact UInt8.toNat_inj.mp htn
  rw [← pattern_rmatch_map rfl hsl]
  constructor
  · rintro ⟨text, rfl, hvl⟩
    obtain ⟨hne, hlen, hmt⟩ := valid_iff_rmatch.mp (validate_eq_ok.mp hvl)
    have hac : ∀ c ∈ text.toList, c.toNat < 128 := fun c hc =>
      (ascii_of_class (class_of_rmatch hmt (mem_map_of_mem hc))).1
    rw [map_byteClass_bytes hac, length_bytes]
    exact ⟨Nat.one_le_iff_ne_zero.mpr (by simpa [Strings.len] using hne), hlen, hmt⟩
  · rintro ⟨hpos, hlen, hmt⟩
    have hby := bytes_ofList_map fun b hb => class_of_rmatch hmt (mem_map_of_mem hb)
    refine ⟨_, hby, validate_eq_ok.mpr (valid_iff_rmatch.mpr ⟨?_, ?_, ?_⟩)⟩
    · rintro hem
      rw [hem] at hby
      rw [← hby] at hpos
      exact absurd hpos (by decide)
    · rwa [← length_bytes, hby]
    · rw [String.toList_ofList, map_map]
      exact hmt

/-! ## Path segments -/

/-- **Path-segment prefixes.** Under a valid name, starting with `p/` and going on is having `p`'s
segments as a proper prefix of one's own. -/
theorem segments_prefix_iff (h : valid name) (p : String) :
    segments p <+: segments name ∧ segments p ≠ segments name ↔
      Strings.hasPrefix name (p ++ "/") ∧ Strings.len (p ++ "/") < Strings.len name := by
  have hinj : Function.Injective String.ofList := fun _ _ => String.ofList_injective
  rw [segments, segments, prefix_map_iff_of_injective hinj, Ne, hinj.list_map.eq_iff,
    splitOn_prefix_iff, hasPrefix_iff, String.toList_append]
  refine ⟨fun hp => ⟨hp, ?_⟩, fun hp => hp.1⟩
  rw [Strings.len_lt_iff_of_prefix (by rwa [String.toList_append])]
  obtain ⟨rest, hrs⟩ := hp
  have hls := alnum_getLast h
  rw [← hrs] at hls ⊢
  cases rest with
  | nil => simp [classOf] at hls
  | cons c rest => simp

example : valid "team-a/api__v2" = true := by decide
example : valid "a__b/../c" = false := by decide
example : prefixOf "team-a/api" = "team-a" := by decide

end Trove.Reponame
