import Trove.Lib.Map
import Trove.Lib.Strings

/-!
# WWW-Authenticate challenges

`parseChallenge` takes the first bearer challenge among the header values, or else the first basic
one. The parameters are read by a scanner, since a quoted value may hold a comma.
-/

namespace Trove.Proxy

open Lib List

def maxChallengeParams : ℕ := 32

/-- How a challenge asks to be answered. -/
inductive AuthScheme
  | bearer
  | basic
  deriving DecidableEq

/-- A parsed WWW-Authenticate header. -/
structure Challenge where
  scheme : AuthScheme
  params : GoMap String String

/-- Empty when it is missing. -/
def Challenge.param (ch : Challenge) (key : String) : String := (ch.params.lookup key).getD ""

/-- The value past the opening quote, and what follows the closing one. Without one it goes to the
end. -/
def scanQuoted : List Char → List Char × List Char
  | [] => ([], [])
  | '"' :: rest => ([], rest)
  | '\\' :: c :: rest => (c :: (scanQuoted rest).1, (scanQuoted rest).2)
  | ['\\'] => ([], [])
  | c :: rest => (c :: (scanQuoted rest).1, (scanQuoted rest).2)

def nextParam (s : String) : Option ((String × String) × String) :=
  match Strings.cut (Strings.trimLeft s [' ', '\t', ',']) '=' with
  | (_, none) => none
  | (key, some rest) =>
    let key := Strings.toLower (Strings.trimSpace key)
    match (Strings.trimLeft rest [' ', '\t']).toList with
    | '"' :: quoted =>
      let (value, rest) := scanQuoted quoted
      some ((key, String.ofList value), String.ofList rest)
    | unquoted =>
      let (value, rest) := Strings.cut (String.ofList unquoted) ','
      some ((key, Strings.trimSpace value), rest.getD "")

/-- The loop of `parseChallengeParams`. A pass cuts at least one character off, so as many passes as
the string has characters are enough. -/
def scanParams : ℕ → String → GoMap String String → GoMap String String
  | 0, _, params => params
  | passes + 1, s, params =>
    if params.keys.length < maxChallengeParams then
      match nextParam s with
      | none => params
      | some ((key, value), rest) =>
        -- a key with a space in it is the leading word of a second challenge
        if key ≠ "" ∧ Strings.contains key ' ' = false ∧ Strings.contains key '\t' = false then
          scanParams passes rest (params.insert key value)
        else scanParams passes rest params
    else params

/-- The parameters of a challenge. -/
def parseChallengeParams (s : String) : GoMap String String :=
  scanParams s.toList.length s ∅

def parseChallenge (values : List String) : Option Challenge :=
  let schemed := values.map fun value =>
    let (scheme, rest) := Strings.cut (Strings.trimSpace value) ' '
    (Strings.toLower scheme, rest.getD "")
  let first (scheme : String) : Option String := (schemed.find? (·.1 = scheme)).map (·.2)
  match first "bearer" with
  | some rest => some ⟨.bearer, parseChallengeParams rest⟩
  | none => (first "basic").map fun rest => ⟨.basic, parseChallengeParams rest⟩

/-! ## The scanner ends -/

theorem length_scanQuoted_le (s : List Char) : (scanQuoted s).2.length ≤ s.length := by
  fun_induction scanQuoted s <;> simp_all <;> omega

theorem length_trimLeft_le (s : String) (cutset : List Char) :
    (Strings.trimLeft s cutset).toList.length ≤ s.toList.length := by
  rw [Strings.trimLeft, String.toList_ofList]
  exact (dropWhile_sublist _).length_le

theorem length_cut_lt {s : String} {sep : Char} {before after : String}
    (h : Strings.cut s sep = (before, some after)) : after.toList.length < s.toList.length := by
  have hle := (dropWhile_sublist (l := s.toList) (· ≠ sep)).length_le
  unfold Strings.cut at h
  cases hdr : s.toList.dropWhile (· ≠ sep) with
  | nil =>
    rw [hdr] at h
    cases (Prod.mk.inj h).2
  | cons c rest =>
    rw [hdr] at h hle
    obtain rfl : String.ofList rest = after := Option.some.inj (Prod.mk.inj h).2
    rw [String.toList_ofList]
    exact hle

theorem length_cut_le {s : String} {sep : Char} :
    ((Strings.cut s sep).2.getD "").toList.length ≤ s.toList.length := by
  cases h : (Strings.cut s sep).2 with
  | none => simp
  | some after => exact (length_cut_lt (Prod.ext rfl h)).le

theorem length_nextParam_lt {s rest : String} {param : String × String}
    (h : nextParam s = some (param, rest)) : rest.toList.length < s.toList.length := by
  unfold nextParam at h
  split at h
  · cases h
  · rename_i key value hcut
    have hvl := (length_cut_lt hcut).trans_le (length_trimLeft_le s _)
    have htr := length_trimLeft_le value [' ', '\t']
    split at h
    · rename_i quoted hqt
      simp only [Option.some.injEq, Prod.mk.injEq] at h
      obtain ⟨-, rfl⟩ := h
      rw [hqt, length_cons] at htr
      rw [String.toList_ofList]
      have := length_scanQuoted_le quoted
      omega
    · simp only [Option.some.injEq, Prod.mk.injEq] at h
      obtain ⟨-, rfl⟩ := h
      refine (length_cut_le.trans ?_).trans_lt hvl
      rw [String.toList_ofList]
      exact htr

theorem nextParam_of_toList_eq_nil {s : String} (h : s.toList = []) : nextParam s = none := by
  cases hnx : nextParam s with
  | none => rfl
  | some next =>
    have := length_nextParam_lt hnx
    rw [h] at this
    exact absurd this (Nat.not_lt_zero _)

theorem scanParams_succ {passes : ℕ} {s : String} {params : GoMap String String}
    (h : s.toList.length ≤ passes) :
    scanParams (passes + 1) s params = scanParams passes s params := by
  induction passes generalizing s params with
  | zero =>
    have hnil := length_eq_zero_iff.mp (Nat.le_zero.mp h)
    simp [scanParams, nextParam_of_toList_eq_nil hnil]
  | succ passes ih =>
    rw [scanParams, scanParams]
    cases hnx : nextParam s with
    | none => rfl
    | some next =>
      obtain ⟨⟨key, value⟩, rest⟩ := next
      have hlen := length_nextParam_lt hnx
      have hrs : rest.toList.length ≤ passes := by omega
      simp only [ih hrs]

example : ((parseChallenge ["Basic realm=x",
    "Bearer realm=\"https://auth.example/t?a=\\\"b,c\", Service = s"]).map fun ch =>
      (ch.scheme, ch.param "realm", ch.param "service")) =
    some (.bearer, "https://auth.example/t?a=\"b,c", "s") := by decide +kernel

/-! ## Parameters as they are written -/

def tokenChars : List Char := "!#$%&'*+-.^_`|~0123456789abcdefghijklmnopqrstuvwxyz".toList

/-- A parameter as an upstream writes it, and the blanks around the comma behind it. -/
structure WrittenParam where
  (key value : String)
  (before after : List Char)
  token : key ≠ "" ∧ key.toList.all (tokenChars.contains ·) = true
  blank : (before ++ after).all ([' ', '\t'].contains ·) = true

def escape (value : List Char) : List Char :=
  value.flatMap fun c => if c = '"' ∨ c = '\\' then ['\\', c] else [c]

def WrittenParam.text (p : WrittenParam) : List Char :=
  p.key.toList ++ '=' :: '"' :: (escape p.value.toList ++ ['"'])

/-- The parameters between commas. -/
def render : List WrittenParam → List Char
  | [] => []
  | [p] => p.text
  | p :: ps => p.text ++ (p.before ++ ',' :: p.after) ++ render ps

theorem scanQuoted_escape (value rest : List Char) :
    scanQuoted (escape value ++ '"' :: rest) = (value, rest) := by
  induction value with
  | nil => simp [escape, scanQuoted]
  | cons c value ih =>
    unfold escape at ih ⊢
    rw [flatMap_cons, append_assoc]
    split_ifs with hc
    · rw [cons_append, cons_append, nil_append, scanQuoted, ih]
    · rw [not_or] at hc
      rw [cons_append, nil_append, scanQuoted, ih] <;> simp_all

theorem dropWhile_append_of_all {p : Char → Bool} {junk l : List Char} (hjn : junk.all p = true)
    (hl : ∀ c ∈ l.head?, p c = false) : (junk ++ l).dropWhile p = l := by
  rw [dropWhile_append_of_pos (all_eq_true.mp hjn)]
  cases l with
  | nil => rfl
  | cons c l => exact dropWhile_cons_of_neg (by simp [hl c rfl])

theorem tokenChars_plain {c : Char} (h : tokenChars.contains c = true) :
    c ≠ '=' ∧ c ∉ [' ', '\t', ','] ∧ Strings.isSpace c = false ∧ Unicode.toLower c = c := by
  have hall : tokenChars.all (fun c => decide (c ≠ '=') && !([' ', '\t', ','].contains c) &&
      !Strings.isSpace c && decide (Unicode.toLower c = c)) = true := by decide
  have hc := all_eq_true.mp hall c (contains_iff_mem.mp h)
  simpa [and_assoc] using hc

theorem nextParam_text (p : WrittenParam) {s : String} {junk rest : List Char}
    (hjn : junk.all ([' ', '\t', ','].contains ·) = true)
      (h : s.toList = junk ++ (p.text ++ rest)) :
    nextParam s = some ((p.key, p.value), String.ofList rest) := by
  have hkey := fun c hc => tokenChars_plain (all_eq_true.mp p.token.2 c hc)
  have hcut : Strings.cut (Strings.trimLeft s [' ', '\t', ',']) '=' =
      (p.key, some (String.ofList ('"' :: (escape p.value.toList ++ '"' :: rest)))) := by
    have hhd : ∀ c ∈ (p.text ++ rest).head?, [' ', '\t', ','].contains c = false := by
      intro c hc
      have hmem : c ∈ p.key.toList := by
        rw [WrittenParam.text, append_assoc,
          List.head?_append_of_ne_nil _ (by simpa using p.token.1)] at hc
        exact mem_of_mem_head? hc
      simpa using (hkey c hmem).2.1
    rw [Strings.trimLeft, h, dropWhile_append_of_all hjn hhd, Strings.cut_eq_some]
    refine ⟨String.toList_inj.mp ?_, fun hmem => (hkey '=' hmem).1 rfl⟩
    simp [WrittenParam.text]
  have hlw : Strings.toLower (Strings.trimSpace p.key) = p.key := by
    rw [Strings.trimSpace_eq_self fun c hc => (hkey c hc).2.2.1, Strings.toLower,
      map_congr_left fun c hc => (hkey c hc).2.2.2, map_id', String.ofList_toList]
  simp only [nextParam, hcut, hlw]
  simp [Strings.trimLeft, scanQuoted_escape]

theorem render_cons (p : WrittenParam) (ps : List WrittenParam) :
    ∃ junk, junk.all ([' ', '\t', ','].contains ·) = true ∧
      render (p :: ps) = p.text ++ (junk ++ render ps) := by
  cases ps with
  | nil => exact ⟨[], rfl, by simp [render]⟩
  | cons q ps =>
    refine ⟨p.before ++ ',' :: p.after, ?_, by simp [render]⟩
    have hbl := p.blank
    simp only [all_append, all_cons, Bool.and_eq_true, all_eq_true,
      contains_iff_mem] at hbl ⊢
    refine ⟨fun c hc => ?_, by decide, fun c hc => ?_⟩
    · exact mem_append_left [','] (hbl.1 c hc)
    · exact mem_append_left [','] (hbl.2 c hc)

def IsParamKey (key : String) : Prop :=
  key ≠ "" ∧ Strings.contains key ' ' = false ∧ Strings.contains key '\t' = false

theorem WrittenParam.isParamKey (p : WrittenParam) : IsParamKey p.key := by
  have hkey := fun c hc => tokenChars_plain (all_eq_true.mp p.token.2 c hc)
  refine ⟨p.token.1, ?_, ?_⟩
  all_goals
    rw [Strings.contains, ← Bool.not_eq_true, contains_iff_mem]
    exact fun hmem => (hkey _ hmem).2.1 (by decide)

theorem scanParams_render {ps : List WrittenParam} {passes : ℕ} {s : String} {junk : List Char}
    {params : GoMap String String} (hjn : junk.all ([' ', '\t', ','].contains ·) = true)
    (hs : s.toList = junk ++ render ps) (hps : s.toList.length ≤ passes)
    (hky : (ps.map WrittenParam.key).Nodup) (hnew : ∀ p ∈ ps, p.key ∉ params)
    (hfit : params.keys.length + ps.length ≤ maxChallengeParams) (k : String) :
    (scanParams passes s params).lookup k =
      ((ps.find? (·.key = k)).map WrittenParam.value).or (params.lookup k) := by
  induction ps generalizing passes s junk params with
  | nil =>
    have hend : nextParam s = none := by
      have htr := dropWhile_append_of_all (l := []) hjn (by simp)
      rw [nextParam, Strings.trimLeft, hs, render, htr]
      rfl
    cases passes with
    | zero => rfl
    | succ passes => simp [scanParams, hend]
  | cons p ps ih =>
    obtain ⟨junk', hjn', hrn⟩ := render_cons p ps
    rw [hrn] at hs
    have hnx := nextParam_text p hjn hs
    have hsh := length_nextParam_lt hnx
    rw [length_cons] at hfit
    obtain ⟨hfr, hky⟩ := nodup_cons.mp hky
    have hnot : p.key ∉ params := hnew p mem_cons_self
    cases passes with
    | zero => omega
    | succ passes =>
      rw [scanParams, if_pos (by omega), hnx]
      dsimp only
      obtain ⟨hne, hsp, htab⟩ := p.isParamKey
      rw [if_pos ⟨hne, hsp, htab⟩, ih hjn' (String.toList_ofList ..) (by omega) hky]
      · rcases eq_or_ne p.key k with rfl | hne
        · have hnn : ps.find? (·.key = p.key) = none := by
            refine List.find?_eq_none.mpr fun q hq heq => hfr ?_
            exact mem_map.mpr ⟨q, hq, by simpa using heq⟩
          simp [hnn]
        · simp [hne, AList.lookup_insert_ne hne.symm]
      · intro q hq hmem
        rcases AList.mem_insert _ |>.mp hmem with heq | hmem
        · exact hfr (heq ▸ mem_map_of_mem hq)
        · exact hnew q (mem_cons_of_mem _ hq) hmem
      · simp [AList.keys_insert, erase_of_not_mem hnot]
        omega

theorem scanParams_bounded (passes : ℕ) (s : String) {params : GoMap String String}
    (hky : ∀ key ∈ params, IsParamKey key) (hln : params.keys.length ≤ maxChallengeParams) :
    (∀ key ∈ scanParams passes s params, IsParamKey key) ∧
      (scanParams passes s params).keys.length ≤ maxChallengeParams := by
  induction passes generalizing s params with
  | zero => exact ⟨hky, hln⟩
  | succ passes ih =>
    rw [scanParams]
    split_ifs with hrm
    · split
      · exact ⟨hky, hln⟩
      · split_ifs with hkey
        · refine ih _ (fun key hmem => ?_) ?_
          · rcases AList.mem_insert _ |>.mp hmem with rfl | hmem
            · exact hkey
            · exact hky key hmem
          · rw [AList.keys_insert, length_cons]
            exact Nat.succ_le_of_lt (erase_sublist.length_le.trans_lt hrm)
        · exact ih _ hky hln
    · exact ⟨hky, hln⟩

/-- **Challenge parameters.** Up to 32 parameters with distinct keys are read back as the map they
are; and whatever is read, the scanner ends with at most 32 entries, none of them under an empty key
or one with a blank. -/
theorem parseChallengeParams_render (ps : List WrittenParam)
    (hkeys : (ps.map WrittenParam.key).Nodup) (hfit : ps.length ≤ 32) :
    (∀ k, (parseChallengeParams (String.ofList (render ps))).lookup k =
      (ps.find? (·.key = k)).map WrittenParam.value) ∧
    ∀ s : String,
      (∀ passes, s.toList.length ≤ passes → scanParams passes s ∅ = parseChallengeParams s) ∧
        (parseChallengeParams s).keys.length ≤ 32 ∧
        ∀ key ∈ parseChallengeParams s, key ≠ "" ∧ ' ' ∉ key.toList ∧ '\t' ∉ key.toList := by
  refine ⟨fun k => ?_, fun s => ⟨fun passes hps => ?_, ?_⟩⟩
  · have hs : (String.ofList (render ps)).toList = [] ++ render ps := String.toList_ofList ..
    rw [parseChallengeParams, scanParams_render (all_nil ..) hs le_rfl hkeys
      (fun _ _ => AList.notMem_empty _) (by simpa [maxChallengeParams] using hfit)]
    simp
  · induction passes, hps using Nat.le_induction with
    | base => rfl
    | succ passes hle ih => rw [scanParams_succ hle, ih]
  · obtain ⟨hall, hln⟩ := @scanParams_bounded s.toList.length s ∅
      (fun key hmem => absurd hmem (AList.notMem_empty key)) (by decide)
    refine ⟨hln, fun key hmem => ?_⟩
    simpa [IsParamKey, Strings.contains] using hall key hmem

def realmParam : WrittenParam := ⟨"realm", "a\\b\",c=", [' '], ['\t', ' '], by decide, by decide⟩

def serviceParam : WrittenParam := ⟨"service", "", [], [], by decide, by decide⟩

theorem parseChallengeParams_render_realm :
    (parseChallengeParams (String.ofList (render [realmParam, serviceParam]))).lookup "realm" =
      some "a\\b\",c=" :=
  (parseChallengeParams_render [realmParam, serviceParam] (by decide) (by decide)).1 "realm"

end Trove.Proxy
