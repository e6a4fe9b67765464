import Mathlib.Tactic.Common

/-! # Authenticated encryption

An AEAD with associated data, as an interface; the ciphertext carries the tag.
-/

structure Aead where
  encrypt : (key nonce aad msg : List UInt8) → List UInt8
  decrypt : (key nonce aad ciphertext : List UInt8) → Option (List UInt8)

namespace Aead

/-- What its users rely on when they open what they sealed. -/
structure Correct (aead : Aead) : Prop where
  decrypt_encrypt : ∀ key nonce aad msg,
    aead.decrypt key nonce aad (aead.encrypt key nonce aad msg) = some msg
  encrypt_length : ∀ key nonce aad msg,
    (aead.encrypt key nonce aad msg).length = msg.length + 16

/-- An encryption, whole or cut short, opens only under its key and associated
data, and only whole. No tag of 16 bytes gives that for every input, so the tag
may be longer here. -/
structure Ideal (aead : Aead) : Prop where
  decrypt_encrypt : ∀ key nonce aad msg,
    aead.decrypt key nonce aad (aead.encrypt key nonce aad msg) = some msg
  encrypt_length : ∀ key nonce aad msg,
    msg.length + 16 ≤ (aead.encrypt key nonce aad msg).length
  decrypt_only : ∀ {key key' nonce aad aad' msg msg' ciphertext},
    ciphertext <+: aead.encrypt key nonce aad msg →
      aead.decrypt key' nonce aad' ciphertext = some msg' →
        key' = key ∧ aad' = aad ∧ ciphertext = aead.encrypt key nonce aad msg

theorem Ideal.decrypt_other {aead : Aead} (haead : aead.Ideal)
    {key key' nonce aad aad' msg : List UInt8} (hother : aad' ≠ aad) :
    aead.decrypt key' nonce aad' (aead.encrypt key nonce aad msg) = none := by
  cases hdecrypt : aead.decrypt key' nonce aad' (aead.encrypt key nonce aad msg) with
  | none => rfl
  | some msg' => exact absurd (haead.decrypt_only (List.prefix_refl _) hdecrypt).2.1 hother

theorem Ideal.decrypt_short {aead : Aead} (haead : aead.Ideal)
    {key key' nonce aad aad' msg ciphertext : List UInt8}
    (hstarts : ciphertext <+: aead.encrypt key nonce aad msg)
    (hshort : ciphertext ≠ aead.encrypt key nonce aad msg) :
    aead.decrypt key' nonce aad' ciphertext = none := by
  cases hdecrypt : aead.decrypt key' nonce aad' ciphertext with
  | none => rfl
  | some msg' => exact absurd (haead.decrypt_only hstarts hdecrypt).2.2 hshort

def nonceLen : Nat := 12

/-- The random nonce of one encryption. -/
abbrev Nonce := {bytes : List UInt8 // bytes.length = nonceLen}

/-- An AEAD that only appends a zero tag, for concrete runs. -/
def padded : Aead where
  encrypt := fun _ _ _ msg => msg ++ List.replicate 16 0
  decrypt := fun _ _ _ ciphertext => some (ciphertext.take (ciphertext.length - 16))

theorem padded_correct : padded.Correct where
  decrypt_encrypt := by
    intro key nonce aad msg
    simp [padded]
  encrypt_length := by
    intro key nonce aad msg
    simp [padded]

def zeroNonce : Nonce := ⟨List.replicate 12 0, rfl⟩

/-! ## An ideal one, for concrete runs -/

/-- Bytes that say where they end. -/
def mark (bytes : List UInt8) : List UInt8 := bytes.flatMap (fun byte => [1, byte]) ++ [0]

def unmark : List UInt8 → List UInt8
  | 1 :: byte :: rest => byte :: unmark rest
  | _ => []

@[simp] theorem mark_nil : mark [] = [0] := rfl

@[simp] theorem mark_cons (byte : UInt8) (rest : List UInt8) :
    mark (byte :: rest) = 1 :: byte :: mark rest := rfl

theorem unmark_mark (bytes tail : List UInt8) : unmark (mark bytes ++ tail) = bytes := by
  induction bytes with
  | nil => simp [unmark]
  | cons byte rest ih => rw [mark_cons, List.cons_append, List.cons_append, unmark, ih]

theorem length_le_mark (bytes : List UInt8) : bytes.length + 1 ≤ (mark bytes).length := by
  induction bytes with
  | nil => simp
  | cons byte rest ih =>
      simp only [mark_cons, List.length_cons]
      omega

theorem mark_inj_append {left right tail tail' : List UInt8}
    (hstarts : mark left ++ tail <+: mark right ++ tail') : left = right ∧ tail <+: tail' := by
  induction left generalizing right with
  | nil =>
      cases right with
      | nil => simpa [List.cons_prefix_cons] using hstarts
      | cons byte rest => simp [List.cons_prefix_cons] at hstarts
  | cons byte rest ih =>
      cases right with
      | nil => simp [List.cons_prefix_cons] at hstarts
      | cons byte' rest' =>
          simp only [mark_cons, List.cons_append, List.cons_prefix_cons, true_and] at hstarts
          obtain ⟨rfl, hrest⟩ := ih hstarts.2
          rw [hstarts.1]
          exact ⟨rfl, hrest⟩

/-- An AEAD whose ciphertexts say all they were made from. -/
def marked : Aead where
  encrypt := fun key nonce aad msg =>
    mark key ++ (mark nonce ++ (mark aad ++ (mark msg ++ List.replicate 16 0)))
  decrypt := fun key nonce aad ciphertext =>
    let header := mark key ++ (mark nonce ++ mark aad)
    let msg := unmark (ciphertext.drop header.length)
    if ciphertext = header ++ (mark msg ++ List.replicate 16 0) then some msg else none

theorem marked_encrypt (key nonce aad msg : List UInt8) :
    marked.encrypt key nonce aad msg =
      (mark key ++ (mark nonce ++ mark aad)) ++ (mark msg ++ List.replicate 16 0) := by
  simp only [marked, List.append_assoc]

theorem marked_ideal : marked.Ideal where
  decrypt_encrypt := by
    intro key nonce aad msg
    rw [marked_encrypt]
    simp only [marked, List.drop_left, unmark_mark, if_true]
  encrypt_length := by
    intro key nonce aad msg
    have hmsg := length_le_mark msg
    simp only [marked, List.length_append, List.length_replicate]
    omega
  decrypt_only := by
    intro key key' nonce aad aad' msg msg' ciphertext hstarts hdecrypt
    simp only [marked] at hdecrypt
    split at hdecrypt
    next hciphertext =>
      -- what opens says its own key, nonce, data and message, and so does what it is cut from
      generalize unmark _ = read at hciphertext
      subst ciphertext
      simp only [marked, List.append_assoc] at hstarts ⊢
      obtain ⟨rfl, hnonce⟩ := mark_inj_append hstarts
      obtain ⟨rfl, hmsg⟩ := mark_inj_append (mark_inj_append hnonce).2
      rw [(mark_inj_append hmsg).1]
      exact ⟨rfl, rfl, rfl⟩
    next => cases hdecrypt

end Aead
