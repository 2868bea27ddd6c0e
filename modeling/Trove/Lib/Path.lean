import Mathlib.Data.List.Induction
import Trove.Lib.Strings

/-!
# Slash-separated paths

`clean`, `joinPath` and `rel` are what Go's `path/filepath` computes on paths with forward slashes.
A clean rooted path is the list of its names (`Rooted`): joining plain names to one appends them
(`joinPath_text`).
-/

namespace Trove.Lib.Path

open Strings List

/-- The names of a path after `.` and `..` are followed. -/
def cleanParts (rooted : Bool) (parts : List String) : List String :=
  parts.foldl (fun out part =>
    if part = "" ∨ part = "." then out
    else if part = ".." then
      if out ≠ [] ∧ out.getLast? ≠ some ".." then out.dropLast
      else if rooted then out
      else out ++ [".."]
    else out ++ [part]) []

/-- `filepath.Clean`. -/
def clean (path : String) : String :=
  let rooted := hasPrefix path "/"
  let text := join (cleanParts rooted (split path '/')) '/'
  if rooted then "/" ++ text else if text = "" then "." else text

/-- `filepath.Join`. -/
def joinPath (elems : List String) : String :=
  match elems.dropWhile (· = "") with
  | [] => ""
  | elems => clean (join elems '/')

def names (path : String) : List String :=
  (split path '/').filter fun part => part ≠ "" ∧ part ≠ "."

/-- What is left of two lists behind the names they begin with together. -/
def dropCommon : List String → List String → List String × List String
  | b :: bs, t :: ts => if b = t then dropCommon bs ts else (b :: bs, t :: ts)
  | bs, ts => (bs, ts)

/-- `filepath.Rel`. -/
def rel (base target : String) : Option String :=
  let base := clean base
  let target := clean target
  if target = base then some "."
  else if hasPrefix base "/" ≠ hasPrefix target "/" then none
  else
    let (up, down) := dropCommon (names base) (names target)
    if up.head? = some ".." then none
    else some (join (List.replicate up.length ".." ++ down) '/')

/-! ## Rooted paths -/

def IsPlain (name : String) : Prop :=
  name ≠ "" ∧ name ≠ "." ∧ name ≠ ".." ∧ '/' ∉ name.toList

instance (name : String) : Decidable (IsPlain name) := inferInstanceAs (Decidable (_ ∧ _))

structure Rooted where
  parts : List String
  plain : ∀ part ∈ parts, IsPlain part

def textOf (parts : List String) : String := "/" ++ join parts '/'

def Rooted.text (p : Rooted) : String := textOf p.parts

variable {parts bs ts : List String}

theorem split_textOf (h : ∀ part ∈ parts, IsPlain part) :
    (split (textOf parts) '/').filter (· ≠ "") = parts := by
  have hsp : split (textOf parts) '/' = "" :: split (join parts '/') '/' := by
    have hap := split_append '/' "" (join parts '/')
    rwa [String.empty_append] at hap
  have hpr : ∀ part ∈ parts, decide (part ≠ "") = true := fun part hpt =>
    decide_eq_true (h part hpt).1
  rw [hsp, filter_cons_of_neg (by simp)]
  rcases eq_or_ne parts [] with rfl | hne
  · rfl
  · rw [split_join hne fun part hpt => (h part hpt).2.2.2, filter_eq_self.mpr hpr]

theorem textOf_injective (hb : ∀ part ∈ bs, IsPlain part) (ht : ∀ part ∈ ts, IsPlain part)
    (h : textOf bs = textOf ts) : bs = ts := by
  rw [← split_textOf hb, h, split_textOf ht]

theorem cleanParts_eq (rooted : Bool) (h : ∀ part ∈ parts, part = "" ∨ IsPlain part) :
    cleanParts rooted parts = parts.filter (· ≠ "") := by
  induction parts using List.reverseRecOn with
  | nil => rfl
  | append_singleton parts part ih =>
    have hin := ih fun part hpr => h part (mem_append_left _ hpr)
    rw [cleanParts, foldl_append, ← cleanParts, hin, filter_append]
    rcases h part (by simp) with rfl | ⟨hem, hdot, hdt, -⟩
    · simp
    · simp [hem, hdot, hdt]

theorem clean_eq_textOf {path : String} (hrt : hasPrefix path "/" = true)
    (h : (split path '/').filter (· ≠ "") = parts) (hpr : ∀ part ∈ parts, IsPlain part) :
    clean path = textOf parts := by
  have hcl : cleanParts true (split path '/') = parts := by
    rw [cleanParts_eq, h]
    intro part hpt
    by_cases hem : part = ""
    · exact .inl hem
    · exact .inr (hpr part (h ▸ mem_filter.mpr ⟨hpt, by simpa using hem⟩))
  simp only [clean, hrt, hcl, if_true, textOf]

theorem hasPrefix_textOf (parts : List String) : hasPrefix (textOf parts) "/" = true := by
  rw [hasPrefix_iff, textOf, String.toList_append]
  exact prefix_append _ _

theorem clean_text (p : Rooted) : clean p.text = p.text :=
  clean_eq_textOf (hasPrefix_textOf _) (split_textOf p.plain) p.plain

theorem names_text (p : Rooted) : names p.text = p.parts := by
  have hfl : names p.text = ((split p.text '/').filter (· ≠ "")).filter (· ≠ ".") := by
    rw [names, filter_filter]
    refine filter_congr fun part _ => ?_
    rw [Bool.eq_iff_iff]
    simp [and_comm]
  rw [hfl, Rooted.text, split_textOf p.plain]
  exact filter_eq_self.mpr fun part hpr => by simpa using (p.plain part hpr).2.1

def Rooted.append (p : Rooted) (parts : List String) (h : ∀ part ∈ parts, IsPlain part) : Rooted :=
  ⟨p.parts ++ parts, fun part hpart => (mem_append.mp hpart).elim (p.plain part) (h part)⟩

theorem joinPath_text (p : Rooted) (hne : parts ≠ []) (h : ∀ part ∈ parts, IsPlain part) :
    joinPath (p.text :: parts) = (p.append parts h).text := by
  have htx : p.text ≠ "" := by simp [Rooted.text, textOf]
  have hjn : join (p.text :: parts) '/' = p.text ++ String.singleton '/' ++ join parts '/' := by
    rw [← singleton_append, join_append (cons_ne_nil _ _) hne, join_singleton]
  rw [joinPath, dropWhile_cons_of_neg (by simpa using htx)]
  refine clean_eq_textOf ?_ ?_ (p.append parts h).plain
  · rw [hjn, hasPrefix_iff, String.append_assoc, String.toList_append]
    exact (hasPrefix_iff.mp (hasPrefix_textOf p.parts)).trans (prefix_append _ _)
  · rw [hjn, split_append, filter_append, Rooted.text, split_textOf p.plain,
      split_join hne fun part hpr => (h part hpr).2.2.2]
    refine congrArg _ (filter_eq_self.mpr fun part hpr => ?_)
    simpa using (h part hpr).1

theorem dropCommon_append (bs rest : List String) : dropCommon bs (bs ++ rest) = ([], rest) := by
  induction bs with
  | nil => cases rest <;> rfl
  | cons b bs ih => rw [cons_append, dropCommon, if_pos rfl, ih]

theorem dropCommon_spec (bs ts : List String) :
    ∃ common, bs = common ++ (dropCommon bs ts).1 ∧ ts = common ++ (dropCommon bs ts).2 := by
  induction bs generalizing ts with
  | nil => exact ⟨[], by cases ts <;> exact ⟨rfl, rfl⟩⟩
  | cons b bs ih =>
    cases ts with
    | nil => exact ⟨[], rfl, rfl⟩
    | cons t ts =>
      rw [dropCommon]
      split_ifs with heq
      · obtain ⟨common, hbs, hts⟩ := ih ts
        exact ⟨b :: common, by rw [cons_append, ← hbs], by rw [cons_append, ← hts, heq]⟩
      · exact ⟨[], rfl, rfl⟩

theorem rel_text (b t : Rooted) :
    rel b.text t.text = some (if t.text = b.text then "." else
      join (List.replicate (dropCommon b.parts t.parts).1.length ".." ++
        (dropCommon b.parts t.parts).2) '/') := by
  have hup : (dropCommon b.parts t.parts).1.head? ≠ some ".." := by
    intro hhd
    obtain ⟨common, hbs, -⟩ := dropCommon_spec b.parts t.parts
    have hmem : ".." ∈ b.parts := by
      rw [hbs]
      exact mem_append_right _ (mem_of_mem_head? hhd)
    exact (b.plain _ hmem).2.2.1 rfl
  have hrt : ∀ p : Rooted, hasPrefix p.text "/" = true := fun p => hasPrefix_textOf p.parts
  simp only [rel, clean_text, names_text, hrt, ne_eq, not_true_eq_false, if_false, if_neg hup]
  split_ifs <;> rfl

end Trove.Lib.Path
