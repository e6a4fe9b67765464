import ObSink.Lib.Aead
import ObSink.Lib.Text
import ObSink.Types

/-! # The client's cryptography

The part of `core/src/crypto.rs` a sync uses: content hashes, path tokens and
the encryption of contents and paths. HMAC, AES-GCM and base64 are parameters;
what the client relies on is `Crypto.Ideal`.
-/

namespace ObSink

open Aead (Nonce nonceLen)

inductive CryptoError where
  | invalidBlob
  | keyDerivation
  | encrypt
  | decrypt
  | fingerprintMismatch
  deriving DecidableEq, Repr

def CryptoError.text : CryptoError → String
  | .invalidBlob => "invalid encrypted blob"
  | .keyDerivation => "key derivation failed"
  | .encrypt => "encryption failed"
  | .decrypt => "decryption failed"
  | .fingerprintMismatch => "fingerprint does not match"

/-- Purpose-separated sub-keys of the vault key. -/
structure CryptoKeys where
  contentEnc : Bytes
  contentMac : Bytes
  pathToken : Bytes
  pathEnc : Bytes

/-- The primitives and the keys of one vault. `hmacHex` is HMAC-SHA256 in hex. -/
structure Crypto where
  hmacHex : (key msg : Bytes) → String
  aead : Aead
  base64Encode : Bytes → String
  base64Decode : String → Option Bytes
  keys : CryptoKeys

def utf8 (text : String) : Bytes := text.toUTF8.data.toList

def fromUtf8 (bytes : Bytes) : Option String := String.fromUTF8? ⟨bytes.toArray⟩

@[simp] theorem fromUtf8_utf8 (text : String) : fromUtf8 (utf8 text) = some text := by
  have hbytes : (⟨(utf8 text).toArray⟩ : ByteArray) = text.toUTF8 := by
    simp [utf8]
  have hvalid : text.toUTF8.IsValidUTF8 := text.isValidUTF8
  rw [fromUtf8, hbytes, String.fromUTF8?, dif_pos hvalid]
  rfl

theorem utf8_injective : Function.Injective utf8 := by
  intro left right hutf8
  have hread := congrArg fromUtf8 hutf8
  simpa only [fromUtf8_utf8, Option.some.injEq] using hread

theorem utf8_append (left right : String) : utf8 (left ++ right) = utf8 left ++ utf8 right := by
  simp [utf8]

/-- One spelling of a path for every platform. -/
def normalizePath (path : String) : String :=
  String.ofList (path.toList.map fun c => if c = '\\' then '/' else c)

theorem normalizePath_eq_self {path : String} (hplain : '\\' ∉ path.toList) :
    normalizePath path = path := by
  have hmap : (path.toList.map fun c => if c = '\\' then '/' else c) = path.toList := by
    refine (List.map_congr_left ?_).trans (List.map_id _)
    intro c hc
    rw [if_neg, id]
    rintro rfl
    exact hplain hc
  rw [normalizePath, hmap, String.ofList_toList]

namespace Crypto

variable (crypto : Crypto)

def contentHmac (bytes : Bytes) : String :=
  crypto.hmacHex crypto.keys.contentMac bytes

/-- The manifest key, blob key and URL segment of a path. -/
def pathToken (path : String) : String :=
  crypto.hmacHex crypto.keys.pathToken (utf8 (normalizePath path))

/-- `nonce ‖ ciphertext ‖ tag`. -/
def encryptWith (key : Bytes) (nonce : Nonce) (plaintext : Bytes) : Bytes :=
  nonce.1 ++ crypto.aead.encrypt key nonce.1 [] plaintext

def decryptWith (key blob : Bytes) : Except CryptoError Bytes :=
  if blob.length ≤ nonceLen then .error .invalidBlob
  else
    match crypto.aead.decrypt key (blob.take nonceLen) [] (blob.drop nonceLen) with
    | some plaintext => .ok plaintext
    | none => .error .decrypt

def encrypt (nonce : Nonce) (plaintext : Bytes) : Bytes :=
  crypto.encryptWith crypto.keys.contentEnc nonce plaintext

def decrypt (blob : Bytes) : Except CryptoError Bytes :=
  crypto.decryptWith crypto.keys.contentEnc blob

/-- A real path as a recoverable text; not used for matching. -/
def encryptPath (nonce : Nonce) (path : String) : String :=
  crypto.base64Encode (crypto.encryptWith crypto.keys.pathEnc nonce (utf8 (normalizePath path)))

def decryptPath (encoded : String) : Except CryptoError String :=
  match crypto.base64Decode encoded with
  | none => .error .invalidBlob
  | some blob =>
      match crypto.decryptWith crypto.keys.pathEnc blob with
      | .error error => .error error
      | .ok bytes =>
          match fromUtf8 bytes with
          | some path => .ok path
          | none => .error .decrypt

/-- What the client relies on: hashes do not collide and are hex, and what was
encrypted or encoded comes back. -/
structure Ideal : Prop where
  hmac_injective : ∀ key, Function.Injective (crypto.hmacHex key)
  hmac_nonempty : ∀ key msg, crypto.hmacHex key msg ≠ ""
  hmac_hex : ∀ key msg, ∀ c ∈ (crypto.hmacHex key msg).toList, c ∈ "0123456789abcdef".toList
  aead_correct : crypto.aead.Correct
  base64_decode_encode : ∀ bytes, crypto.base64Decode (crypto.base64Encode bytes) = some bytes
  base64_encode_nil : crypto.base64Encode [] = ""

namespace Ideal

variable {crypto} (hideal : crypto.Ideal)

include hideal

theorem contentHmac_ne_empty (bytes : Bytes) : crypto.contentHmac bytes ≠ "" :=
  hideal.hmac_nonempty _ _

/-- Trimming leaves a hex text alone. -/
theorem trim_hmacHex (key msg : Bytes) :
    Text.trim (crypto.hmacHex key msg) = crypto.hmacHex key msg := by
  have hsolid : ∀ c ∈ (crypto.hmacHex key msg).toList, Text.isWhitespace c = false := by
    intro c hc
    have hdigits : "0123456789abcdef".toList.all (fun d => !Text.isWhitespace d) = true := by decide
    simpa using List.all_eq_true.mp hdigits c (hideal.hmac_hex key msg c hc)
  exact Text.trim_eq_self hsolid

theorem trim_contentHmac (bytes : Bytes) :
    Text.trim (crypto.contentHmac bytes) = crypto.contentHmac bytes :=
  hideal.trim_hmacHex _ _

theorem pathToken_inj {path other : String} (hplain : '\\' ∉ path.toList)
    (hother : '\\' ∉ other.toList) (htoken : crypto.pathToken path = crypto.pathToken other) :
    path = other := by
  have htext := utf8_injective (hideal.hmac_injective _ htoken)
  rwa [normalizePath_eq_self hplain, normalizePath_eq_self hother] at htext

theorem decryptWith_encryptWith (key : Bytes) (nonce : Nonce) (plaintext : Bytes) :
    crypto.decryptWith key (crypto.encryptWith key nonce plaintext) = .ok plaintext := by
  obtain ⟨nonce, hnonce⟩ := nonce
  have hlength := hideal.aead_correct.encrypt_length key nonce [] plaintext
  have htake : (nonce ++ crypto.aead.encrypt key nonce [] plaintext).take nonceLen = nonce := by
    rw [← hnonce, List.take_left]
  have hdrop : (nonce ++ crypto.aead.encrypt key nonce [] plaintext).drop nonceLen =
      crypto.aead.encrypt key nonce [] plaintext := by
    rw [← hnonce, List.drop_left]
  simp only [encryptWith, decryptWith, htake, hdrop, hideal.aead_correct.decrypt_encrypt]
  rw [if_neg]
  simp only [List.length_append, hlength]
  omega

theorem decrypt_encrypt (nonce : Nonce) (plaintext : Bytes) :
    crypto.decrypt (crypto.encrypt nonce plaintext) = .ok plaintext :=
  hideal.decryptWith_encryptWith _ _ _

theorem decryptPath_encryptPath (nonce : Nonce) (path : String) :
    crypto.decryptPath (crypto.encryptPath nonce path) = .ok (normalizePath path) := by
  simp [decryptPath, encryptPath, hideal.base64_decode_encode, hideal.decryptWith_encryptWith]

theorem encryptPath_ne_empty (nonce : Nonce) (path : String) :
    crypto.encryptPath nonce path ≠ "" := by
  intro hempty
  have hdecode := hideal.base64_decode_encode
    (crypto.encryptWith crypto.keys.pathEnc nonce (utf8 (normalizePath path)))
  change crypto.base64Decode (crypto.encryptPath nonce path) = _ at hdecode
  rw [hempty, ← hideal.base64_encode_nil, hideal.base64_decode_encode] at hdecode
  have hlength := congrArg List.length (Option.some.inj hdecode)
  have hnonce := nonce.2
  simp only [encryptWith, List.length_append, hnonce, List.length_nil, nonceLen] at hlength
  omega

end Ideal

/-! ## A small instance for concrete runs -/

def hexByte (byte : UInt8) : List Char :=
  [Nat.digitChar (byte.toNat / 16), Nat.digitChar (byte.toNat % 16)]

/-- Hashes that spell the message out, a tag of zeros, and an encoding byte by
byte. -/
def sample : Crypto where
  hmacHex := fun _ msg => String.ofList ('0' :: msg.flatMap hexByte)
  aead := .padded
  base64Encode := fun bytes => String.ofList (bytes.map fun byte => Char.ofNat byte.toNat)
  base64Decode := fun text => some (text.toList.map fun c => UInt8.ofNat c.toNat)
  keys := ⟨[], [], [], []⟩

theorem hexByte_injective : Function.Injective hexByte := by
  intro a b hab
  have hdigit : ∀ m, m < 16 → ∀ n, n < 16 → Nat.digitChar m = Nat.digitChar n → m = n := by decide
  have ha := a.toNat_lt
  have hb := b.toNat_lt
  simp only [hexByte, List.cons.injEq, and_true] at hab
  obtain ⟨hhigh, hlow⟩ := hab
  have hhigh' := hdigit (a.toNat / 16) (by omega) (b.toNat / 16) (by omega) hhigh
  have hlow' := hdigit (a.toNat % 16) (by omega) (b.toNat % 16) (by omega) hlow
  apply UInt8.toNat_inj.mp
  omega

theorem hex_injective : Function.Injective fun msg : Bytes => msg.flatMap hexByte := by
  intro a b hab
  induction a generalizing b with
  | nil =>
      cases b with
      | nil => rfl
      | cons byte rest => simp [hexByte] at hab
  | cons byte rest ih =>
      cases b with
      | nil => simp [hexByte] at hab
      | cons byte' rest' =>
          simp only [List.flatMap_cons] at hab
          obtain ⟨hbyte, hrest⟩ := List.append_inj hab rfl
          rw [hexByte_injective hbyte, ih hrest]

theorem sample_ideal : sample.Ideal where
  hmac_injective := by
    intro key a b hab
    have hchars := congrArg String.toList hab
    simp only [sample, String.toList_ofList, List.cons.injEq, true_and] at hchars
    exact hex_injective hchars
  hmac_nonempty := by
    intro key msg hempty
    have hchars := congrArg String.toList hempty
    simp [sample] at hchars
  hmac_hex := by
    intro key msg c hc
    have hdigit : ∀ n, n < 16 → Nat.digitChar n ∈ "0123456789abcdef".toList := by decide
    simp only [sample, String.toList_ofList, List.mem_cons, List.mem_flatMap, hexByte,
      List.not_mem_nil, or_false] at hc
    rcases hc with rfl | ⟨byte, _, rfl | rfl⟩
    · decide
    · have hbyte := byte.toNat_lt
      exact hdigit _ (by omega)
    · exact hdigit _ (by omega)
  aead_correct := Aead.padded_correct
  base64_decode_encode := by
    intro bytes
    simp only [sample, String.toList_ofList, List.map_map, Option.some.injEq]
    refine (List.map_congr_left ?_).trans (List.map_id _)
    intro byte _
    have hvalid : byte.toNat.isValidChar := by
      left
      have := byte.toNat_lt
      omega
    have hnat : (Char.ofNat byte.toNat).toNat = byte.toNat := by
      rw [Char.ofNat, dif_pos hvalid]
      rfl
    rw [Function.comp_apply, hnat, UInt8.ofNat_toNat, id]
  base64_encode_nil := rfl

end Crypto

end ObSink
