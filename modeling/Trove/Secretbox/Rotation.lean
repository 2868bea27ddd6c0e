import Trove.Secretbox.Sealed

/-!
# Rotation

A keyring is rotated to a new active key, written to its keyfile and read back, any number of times.
No step drops a key (`history_spec`).
-/

namespace Trove.Secretbox

open Lib Lib.Strings List

variable {C : Crypto}

/-- A rotation, or a keyfile written and read. -/
inductive Step (C : Crypto)
  | rotate (key : Key C)
  | reload

/-- The keyring held after a step. One that fails leaves the keyring that was held. -/
def advance (r : Keyring C) : Step C → Keyring C
  | .rotate key => (rotate (some r) key).toOption.getD r
  | .reload => (parseKeyring (encode (some r))).toOption.getD r

/-- The ring after the steps. -/
def history (r : Keyring C) (steps : List (Step C)) : Keyring C := steps.foldl advance r

/-! ## What a history keeps -/

/-- It came out of `newKeyring`. -/
def Built (r : Keyring C) : Prop := newKeyring r.entries = .ok r

variable {r : Keyring C} {k : Key C}

theorem built_of_newKeyring {keys : List (Key C)} (h : newKeyring keys = .ok r) : Built r := by
  rw [Built, (entries_of_newKeyring h).1, h]

theorem Built.valid (h : Built r) : r.Valid := (entries_of_newKeyring h).2.2

theorem advance_spec (h : Built r) (s : Step C) :
    Built (advance r s) ∧ r.entries <:+ (advance r s).entries := by
  cases s with
  | rotate key =>
    cases hrt : rotate (some r) key with
    | error err => exact ⟨by rwa [advance, hrt], by rw [advance, hrt]; exact suffix_rfl⟩
    | ok r' =>
      rw [advance, hrt]
      refine ⟨built_of_newKeyring hrt, ?_⟩
      show r.entries <:+ r'.entries
      rw [(entries_of_newKeyring hrt).1]
      exact suffix_cons key r.entries
  | reload =>
    rw [advance, parseKeyring_encode h]
    exact ⟨h, suffix_rfl⟩

theorem history_spec (h : Built r) (steps : List (Step C)) :
    Built (history r steps) ∧ r.entries <:+ (history r steps).entries := by
  induction steps generalizing r with
  | nil => exact ⟨h, suffix_rfl⟩
  | cons s steps ih =>
    obtain ⟨hbl, hsf⟩ := advance_spec h s
    obtain ⟨hbl', hsf'⟩ := ih hbl
    exact ⟨hbl', hsf.trans hsf'⟩

theorem Keyring.Valid.eq_of_id (h : r.Valid) {k' : Key C} (hk : k ∈ r.entries)
    (hk' : k' ∈ r.entries) (hid : k.id = k'.id) : k = k' :=
  inj_on_of_nodup_map h.nodup hk hk' hid

theorem Keyring.Valid.activeKeyID_eq_iff (h : r.Valid) (hk : k ∈ r.entries) :
    k.id = activeKeyID (some r) ↔ r.entries.head? = some k := by
  obtain ⟨active, keys, hen⟩ := exists_cons_of_ne_nil (ne_nil_of_mem hk)
  have hac : activeKeyID (some r) = active.id := by rw [activeKeyID, hen]
  rw [hac, hen, List.head?_cons, Option.some.injEq]
  constructor
  · intro hid
    exact (h.eq_of_id hk (hen ▸ mem_cons_self) hid).symm
  · rintro rfl
    rfl

theorem not_mem_map_id (hk : k ∉ r.entries) (hds : ∀ k' ∈ r.entries, k'.id = k.id → k' = k) :
    k.id ∉ r.entries.map Key.id := by
  intro hmem
  obtain ⟨k', hk', hid⟩ := mem_map.mp hmem
  exact hk (hds k' hk' hid ▸ hk')

/-- **Rotation loses nothing.** What any earlier ring sealed or signed, every later one opens and
verifies, and asks to have resealed just when the active key has changed; a ring survives being
written and read back. Nothing of a key it does not hold opens or verifies under it. -/
theorem rotation_loses_nothing {keys : List (Key C)} {start : Keyring C}
    (h : newKeyring keys = .ok start) (earlier later : List (Step C)) :
    let before := history start earlier
    let now := history before later
    (∀ ctx random plaintext value, sealValue (some before) random plaintext ctx = .ok value →
      openValue (some now) value ctx = .ok plaintext ∧
        ∃ reseal, needsReseal (some now) value = .ok reseal ∧
          (reseal = true ↔ now.entries.head? ≠ before.entries.head?)) ∧
      (∀ ctx value digest, mac (some before) value ctx = .ok digest →
        verifyMAC (some now) value ctx digest = true) ∧
      parseKeyring (encode (some now)) = .ok now ∧
      ∀ keys' (other : Keyring C) k, newKeyring keys' = .ok other → other.entries.head? = some k →
        k ∉ now.entries → (∀ k' ∈ now.entries, k'.id = k.id → k' = k) →
          (∀ ctx ctx' random plaintext value,
            sealValue (some other) random plaintext ctx = .ok value →
              ∃ err, openValue (some now) value ctx' = .error err ∧
                (validate ctx' = .ok () → err = .unknownKey k.id)) ∧
          ∀ ctx ctx' value value' digest, mac (some other) value ctx = .ok digest →
            verifyMAC (some now) value' ctx' digest = false := by
  intro before now
  obtain ⟨hbf, -⟩ := history_spec (built_of_newKeyring h) earlier
  obtain ⟨hnow, hsf⟩ := history_spec hbf later
  have hvl : now.Valid := hnow.valid
  refine ⟨?_, ?_, parseKeyring_encode hnow, ?_⟩
  · intro ctx random plaintext value hsl
    obtain ⟨hctx, k, nonce, hac, -, rfl⟩ := sealValue_eq_ok.mp hsl
    have hk : k ∈ now.entries := hsf.subset (mem_of_head? hac)
    refine ⟨openValue_sealedAs hvl hk hctx nonce plaintext, _,
      needsReseal_sealedAs (some now) (hvl.named k hk) nonce plaintext ctx, ?_⟩
    rw [decide_eq_true_iff, ne_eq, hvl.activeKeyID_eq_iff hk, ← hac]
    rfl
  · intro ctx value digest hmac
    obtain ⟨hctx, k, hac, rfl⟩ := mac_eq_ok.mp hmac
    have hk : k ∈ now.entries := hsf.subset (mem_of_head? hac)
    rw [verifyMAC_digestAs (hvl.named k hk) hctx, hvl.find_entry hk]
    exact decide_eq_true rfl
  · intro keys' other k hot hac hk hds
    have hun := not_mem_map_id hk hds
    have hnm := (built_of_newKeyring hot).valid.named k (mem_of_head? hac)
    constructor
    · intro ctx ctx' random plaintext value hsl
      obtain ⟨-, k', nonce, hac', -, rfl⟩ := sealValue_eq_ok.mp hsl
      obtain rfl : k = k' := Option.some.inj (hac.symm.trans hac')
      cases hctx' : validate ctx' with
      | error reason => exact ⟨_, openValue_invalid (some now) hctx' _, nofun⟩
      | ok _ =>
        exact ⟨_, openValue_unknown hvl hnm hun hctx' nonce plaintext ctx, fun _ => rfl⟩
    · intro ctx ctx' value value' digest hmac
      obtain ⟨-, k', hac', rfl⟩ := mac_eq_ok.mp hmac
      obtain rfl : k = k' := Option.some.inj (hac.symm.trans hac')
      cases hctx' : validate ctx' with
      | error reason => rw [verifyMAC, hctx']
      | ok _ => rw [verifyMAC_digestAs hnm hctx', hvl.lookup_eq_none hun, Option.bind_none]

/-! ## Primitives that keep the laws -/

def letter (n : ℕ) : Char := Char.ofNat (97 + n)

theorem toNat_letter : ∀ n < 16, (letter n).toNat = 97 + n := by decide

def letters (b : Bytes) : List Char :=
  b.flatMap fun c => [letter (c.toNat / 16), letter (c.toNat % 16)]

def unletters : List Char → Option Bytes
  | [] => some []
  | [_] => none
  | hi :: lo :: rest =>
    (unletters rest).map (UInt8.ofNat ((hi.toNat - 97) * 16 + (lo.toNat - 97)) :: ·)

theorem unletters_letters (b : Bytes) : unletters (letters b) = some b := by
  induction b with
  | nil => rfl
  | cons c b ih =>
    have hlt := c.toNat_lt
    have hhi := toNat_letter (c.toNat / 16) (by omega)
    have hlo := toNat_letter (c.toNat % 16) (by omega)
    have hby : UInt8.ofNat (((letter (c.toNat / 16)).toNat - 97) * 16 +
        ((letter (c.toNat % 16)).toNat - 97)) = c := by
      rw [hhi, hlo,
        show (97 + c.toNat / 16 - 97) * 16 + (97 + c.toNat % 16 - 97) = c.toNat by omega,
        UInt8.ofNat_toNat]
    show (unletters (letters b)).map _ = _
    rw [ih, Option.map_some, hby]

theorem isBase64_of_mem_letters {b : Bytes} {c : Char} (hc : c ∈ letters b) :
    isBase64 c = true := by
  obtain ⟨x, -, hx⟩ := mem_flatMap.mp hc
  have hlt := x.toNat_lt
  have hhi := toNat_letter (x.toNat / 16) (by omega)
  have hlo := toNat_letter (x.toNat % 16) (by omega)
  rw [isBase64, decide_eq_true_iff]
  rcases mem_pair.mp hx with rfl | rfl <;> omega

/-- Nothing is hidden and nothing is authenticated, yet what is sealed opens. -/
def transparent : Crypto where
  keyID material := if material.headD 0 = 0 then "00000000" else "11111111"
  keyID_isKeyID material := by split_ifs <;> decide
  encode b := String.ofList (letters b)
  decode s := unletters s.toList
  decode_encode b := by rw [String.toList_ofList, unletters_letters]
  encode_isBase64 b c hc := isBase64_of_mem_letters (by rwa [String.toList_ofList] at hc)
  encode_ne_empty b hb := by
    obtain ⟨c, b, rfl⟩ := exists_cons_of_ne_nil hb
    rw [ne_eq, ← String.toList_inj, String.toList_ofList]
    exact cons_ne_nil _ _
  aeadSeal _ _ plaintext _ := plaintext ++ List.replicate overhead 0
  aeadOpen _ _ ciphertext _ := some (ciphertext.take (ciphertext.length - overhead))
  aeadOpen_aeadSeal _ _ plaintext _ := by simp
  length_aeadSeal _ _ plaintext _ := by simp
  hmac _ _ := List.replicate macSize 0
  length_hmac _ _ := by simp

def oldKey : Key transparent := ⟨List.replicate keySize 0, "00000000", .inl ⟨rfl, rfl⟩⟩

def freshKey : Key transparent := ⟨List.replicate keySize 1, "11111111", .inl ⟨rfl, rfl⟩⟩

def oldRing : Keyring transparent := ⟨[oldKey], (∅ : GoMap String ℕ).insert "00000000" 0⟩

theorem rotation_loses_nothing_oldKey :
    newKeyring [oldKey] = .ok oldRing ∧ ∃ value,
      sealValue (some oldRing) (.ok ⟨List.replicate nonceSize 0, rfl⟩) [1, 2, 3] "row:1" =
        .ok value ∧
      openValue (some (history oldRing [.rotate freshKey, .reload])) value "row:1" =
        .ok [1, 2, 3] := by
  have hst : newKeyring [oldKey] = .ok oldRing := rfl
  have hsl : ∃ value, sealValue (some oldRing) (.ok ⟨List.replicate nonceSize 0, rfl⟩) [1, 2, 3]
      "row:1" = .ok value :=
    ⟨_, sealValue_eq_ok.mpr ⟨by decide, oldKey, _, rfl, rfl, rfl⟩⟩
  obtain ⟨value, hvl⟩ := hsl
  have hkp := (rotation_loses_nothing hst [] [.rotate freshKey, .reload]).1 _ _ _ _ hvl
  exact ⟨hst, value, hvl, hkp.1⟩

end Trove.Secretbox
