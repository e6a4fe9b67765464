import ObSink.Lib.Aead
import ObSink.Types

/-! # The server's envelope encryption

`server/src/crypto.rs`. Sealed data is `OBSK`, a version byte, a nonce and the
ciphertext with its tag; every seal binds an associated-data string that names
the place the value is stored at. The AEAD itself is a parameter.
-/

namespace ObSink.Server

open Aead (Nonce nonceLen)

def magic : Bytes := [79, 66, 83, 75]

def formatVersion : UInt8 := 1

inductive CryptoError where
  | malformed
  | tamper
  deriving DecidableEq, Repr

def CryptoError.text : CryptoError → String
  | .malformed => "sealed data is malformed"
  | .tamper => "sealed data failed authentication"

def «seal» (aead : Aead) (key : Bytes) (nonce : Nonce) (aad plaintext : Bytes) : Bytes :=
  magic ++ [formatVersion] ++ nonce.1 ++ aead.encrypt key nonce.1 aad plaintext

def «open» (aead : Aead) (key aad sealed : Bytes) : Except CryptoError Bytes :=
  let header := magic.length + 1
  if sealed.length < header + nonceLen + 16 ∨ sealed.take magic.length ≠ magic ∨
      sealed[magic.length]? ≠ some formatVersion then
    .error .malformed
  else
    let (nonce, ciphertext) := (sealed.drop header).splitAt nonceLen
    match aead.decrypt key nonce aad ciphertext with
    | some plaintext => .ok plaintext
    | none => .error .tamper

/-- An envelope with a nonce and a whole tag is up to the AEAD. -/
theorem open_envelope (aead : Aead) (key aad : Bytes) (nonce : Nonce) {ciphertext : Bytes}
    (htag : 16 ≤ ciphertext.length) :
    «open» aead key aad (magic ++ [formatVersion] ++ nonce.1 ++ ciphertext) =
      match aead.decrypt key nonce.1 aad ciphertext with
      | some plaintext => .ok plaintext
      | none => .error .tamper := by
  obtain ⟨nonce, hnonce⟩ := nonce
  have hsplit : (nonce ++ ciphertext).splitAt nonceLen = (nonce, ciphertext) := by
    rw [List.splitAt_eq, ← hnonce, List.take_left, List.drop_left]
  simp only [«open», magic, List.cons_append, List.nil_append, List.length_cons,
    List.length_nil, List.length_append, List.take_succ_cons, List.take_zero,
    List.getElem?_cons_succ, List.getElem?_cons_zero, List.drop_succ_cons, List.drop_zero, hsplit]
  rw [if_neg]
  simp only [nonceLen] at hnonce ⊢
  simp
  omega

theorem open_seal {aead : Aead} (haead : aead.Correct) (key : Bytes) (nonce : Nonce)
    (aad plaintext : Bytes) :
    «open» aead key aad («seal» aead key nonce aad plaintext) = .ok plaintext := by
  have hlength := haead.encrypt_length key nonce.1 aad plaintext
  rw [«seal», open_envelope aead key aad nonce (by omega), haead.decrypt_encrypt]

/-- The sub-keys the server derives from its master key; only the blob key
takes part in file writes. -/
structure ServerKeys where
  blobEnc : Bytes

def blobAad (vaultId path : String) : Bytes :=
  ("blob:" ++ vaultId ++ ":" ++ path).toUTF8.toList

def sealBlob (aead : Aead) (keys : ServerKeys) (nonce : Nonce) (vaultId path : String)
    (plaintext : Bytes) : Bytes :=
  «seal» aead keys.blobEnc nonce (blobAad vaultId path) plaintext

def openBlob (aead : Aead) (keys : ServerKeys) (vaultId path : String) (sealed : Bytes) :
    Except CryptoError Bytes :=
  «open» aead keys.blobEnc (blobAad vaultId path) sealed

theorem openBlob_sealBlob {aead : Aead} (haead : aead.Correct) (keys : ServerKeys)
    (nonce : Nonce) (vaultId path : String) (plaintext : Bytes) :
    openBlob aead keys vaultId path (sealBlob aead keys nonce vaultId path plaintext) =
      .ok plaintext :=
  open_seal haead _ _ _ _

end ObSink.Server
