import Trove.Lib.RegexpAnchored
import Trove.Policy.Order

/-!
# Tag patterns

A pattern is compiled as the text `\A(?:` … `)\z`, so that it matches whole tag names only. The text
is pasted together before it is read: a pattern whose parentheses are balanced only together with
the pasted ones, such as `a)|(?:b`, is accepted as well.
-/

namespace Trove.Policy

open Lib Regexp List

/-- The regular expressions of the rules. An error cites a piece of the text. -/
def compileRegexp (u : Unicode) (excerpt : ParseError → String → String) (text : String) :
    Except String (String → Bool) :=
  match parse u text.toList with
  | .error e => .error ("error parsing regexp: " ++ e.text ++ ": `" ++ excerpt e text ++ "`")
  | .ok r => .ok fun name => r.search name.toList

/-- The pattern by itself is well formed, and the predicate holds of the names it matches from
beginning to end. -/
def WholeNames (u : Unicode) (pattern : String) (re : String → Bool) : Prop :=
  ∃ r, parse u pattern.toList = .ok r ∧ ∀ name : String, re name = true ↔ r.MatchesWhole name.toList

/-- Every closing parenthesis of the pattern closes a group of the pattern. -/
def ClosesOwnGroups (u : Unicode) (pattern : String) : Prop :=
  parse u pattern.toList ≠ .error .unexpectedParen

section Compiled

variable {u : Unicode} {excerpt : ParseError → String → String} {quote : String → String}

variable {rule field : String} {patterns : List String} {res : List (String → Bool)}

theorem wholeNames_of_compilePattern {pattern : String} {re : String → Bool}
    (h : compilePattern quote (compileRegexp u excerpt) rule field pattern = .ok re)
    (hcl : ClosesOwnGroups u pattern) : WholeNames u pattern re := by
  unfold compilePattern at h
  split_ifs at h
  cases hpr : parse u ("\\A(?:" ++ pattern ++ ")\\z").toList with
  | error e =>
    simp only [compileRegexp, hpr] at h
    cases h
  | ok r =>
    simp only [compileRegexp, hpr] at h
    obtain rfl := Except.ok.inj h
    rw [String.toList_append, String.toList_append] at hpr
    obtain ⟨e, he, rfl⟩ := parse_anchored hpr hcl
    exact ⟨e, he, fun _ => search_anchored⟩

theorem wholeNames_of_compilePatterns
    (h : compilePatterns quote (compileRegexp u excerpt) rule field patterns = .ok res)
    (hcl : ∀ pattern ∈ patterns, ClosesOwnGroups u pattern) :
    List.Forall₂ (WholeNames u) patterns res := by
  have hpt := mapM_eq_ok.mp h
  induction hpt with
  | nil => exact .nil
  | cons hre hres ih =>
    rw [forall_mem_cons] at hcl
    exact .cons (wholeNames_of_compilePattern hre hcl.1) (ih (mapM_eq_ok.mpr hres) hcl.2)

theorem closesOwnGroups_of_wholeNames (h : List.Forall₂ (WholeNames u) patterns res) :
    ∀ pattern ∈ patterns, ClosesOwnGroups u pattern := by
  induction h with
  | nil => exact nofun
  | cons hwhole _ ih =>
    obtain ⟨r, hr, -⟩ := hwhole
    exact forall_mem_cons.mpr ⟨fun hno => (nomatch hr.symm.trans hno), ih⟩

theorem patterns_of_compileRule {compile : String → Except String (String → Bool)} {rule : Rule}
    {c : CompiledRule} (h : compileRule quote compile rule = .ok c) :
    compilePatterns quote compile rule.name "include_tags" rule.includeTags = .ok c.includes ∧
      compilePatterns quote compile rule.name "exclude_tags" rule.excludeTags = .ok c.excludes := by
  unfold compileRule at h
  split_ifs at h
  obtain ⟨_, -, h⟩ := bind_eq_ok.mp h
  obtain ⟨includes, hin, h⟩ := bind_eq_ok.mp h
  obtain ⟨excludes, hec, h⟩ := bind_eq_ok.mp h
  obtain rfl := Except.ok.inj h
  exact ⟨hin, hec⟩

/-- **Whole names.** The patterns of the rules that are accepted are well formed by themselves and
match whole tag names, exactly if none of them closes a group that it did not open. -/
theorem patterns_match_whole_names {rules : List Rule} {set : List CompiledRule}
    (h : compileRules quote (compileRegexp u excerpt) rules = .ok set) :
    (∀ rule ∈ rules, ∀ pattern ∈ rule.includeTags ++ rule.excludeTags, ClosesOwnGroups u pattern) ↔
    List.Forall₂ (fun rule c => List.Forall₂ (WholeNames u) rule.includeTags c.includes ∧
      List.Forall₂ (WholeNames u) rule.excludeTags c.excludes) rules set := by
  obtain ⟨-, -, hrl⟩ := compileRulesFrom_eq_ok.mp h
  clear h
  induction hrl with
  | nil => simp
  | cons hc _ ih =>
    obtain ⟨hin, hec⟩ := patterns_of_compileRule hc
    rw [forall_mem_cons, List.forall₂_cons, ← ih]
    refine and_congr_left fun _ => ?_
    rw [forall_mem_append]
    exact and_congr ⟨wholeNames_of_compilePatterns hin, closesOwnGroups_of_wholeNames⟩
      ⟨wholeNames_of_compilePatterns hec, closesOwnGroups_of_wholeNames⟩

end Compiled

/-! ## Two patterns -/

def ascii : Unicode := ⟨fun _ => none, fun c => [c.toLower, c.toUpper]⟩

def selecting (pattern : String) : Rule :=
  ⟨"select", 1, .selectMatched, 0, 0, .anyTags, [pattern], []⟩

theorem patterns_match_whole_names_alternatives :
    ∃ set, compileRules id (compileRegexp ascii fun _ text => text) [selecting "v(1|2)"] = .ok set ∧
      List.Forall₂ (fun rule c => List.Forall₂ (WholeNames ascii) rule.includeTags c.includes ∧
        List.Forall₂ (WholeNames ascii) rule.excludeTags c.excludes) [selecting "v(1|2)"] set := by
  obtain ⟨set, hset⟩ := isOk_iff.mp (by decide :
    (compileRules id (compileRegexp ascii fun _ text => text) [selecting "v(1|2)"]).isOk)
  refine ⟨set, hset, (patterns_match_whole_names hset).mp ?_⟩
  intro rule hrl pattern hpt
  obtain rfl := mem_singleton.mp hrl
  obtain rfl := mem_singleton.mp hpt
  nofun

/-- The pattern is refused by itself. Pasted between the anchors it is accepted, and it then matches
every name that begins with `a` or ends with `b`. -/
theorem unbalanced_pattern_accepted :
    ∃ set, compileRules id (compileRegexp ascii fun _ text => text) [selecting "a)|(?:b"] =
      .ok set ∧
      parse ascii "a)|(?:b".toList = .error .unexpectedParen ∧
      (set.map fun c => c.includes.map fun re => ["alpha", "b", "web", "bar"].map re) =
        [[[true, true, true, false]]] ∧
      ¬List.Forall₂ (fun rule c => List.Forall₂ (WholeNames ascii) rule.includeTags c.includes ∧
        List.Forall₂ (WholeNames ascii) rule.excludeTags c.excludes) [selecting "a)|(?:b"] set := by
  have hmt : (compileRules id (compileRegexp ascii fun _ text => text)
      [selecting "a)|(?:b"]).map (fun set => set.map fun c => c.includes.map fun re =>
        ["alpha", "b", "web", "bar"].map re) = .ok [[[true, true, true, false]]] := by decide
  obtain ⟨set, hset, hmt⟩ := map_eq_ok.mp hmt
  have hpr : parse ascii "a)|(?:b".toList = .error .unexpectedParen := rfl
  refine ⟨set, hset, hpr, hmt, fun h => ?_⟩
  obtain ⟨c, -, ⟨hin, -⟩, -⟩ := List.forall₂_cons_left_iff.mp h
  obtain ⟨re, -, ⟨r, hr, -⟩, -⟩ := List.forall₂_cons_left_iff.mp hin
  cases hr

end Trove.Policy
