import ObSink.Server.Files

/-! # Reading a vault

`get_manifest` and `get_file` of `server/src/routes/files.rs`. The entity tag
of a manifest is the vault's revision.
-/

namespace ObSink.Server

def etagOf (revision : Nat) : String := "\"" ++ Text.numeral revision ++ "\""

/-- Without leading and trailing quotes. -/
def trimQuotes (chars : List Char) : List Char :=
  ((chars.dropWhile (· = '"')).reverse.dropWhile (· = '"')).reverse

def stripWeak : List Char → List Char
  | 'W' :: '/' :: rest => rest
  | chars => chars

def ifNoneMatchHits (header : Option String) (etag : String) : Bool :=
  match header with
  | none => false
  | some value =>
      (Text.splitOn ',' value.toList).any fun candidate =>
        let candidate := stripWeak (Text.trim (String.ofList candidate)).toList
        candidate = ['*'] || trimQuotes candidate = trimQuotes etag.toList

inductive ManifestAnswer where
  | notModified
  | rows (manifest : Manifest) (etag : String)
  deriving DecidableEq, Repr

/-- The rows and the revision of one snapshot, or 304. -/
def getManifest (vault : Vault) (userId : String) (ifNoneMatch : Option String) :
    Except ApiError ManifestAnswer :=
  match requireMember none vault userId with
  | .error error => .error error
  | .ok () =>
      let etag := etagOf vault.revision
      if ifNoneMatchHits ifNoneMatch etag then .ok .notModified
      else .ok (.rows vault.files etag)

def getFile (config : Config) (state : State) (userId path : String) : Except ApiError Bytes :=
  match requireMember none state.vault userId with
  | .error error => .error error
  | .ok () =>
      if validPath path = false then .error (.status 404 "not_found")
      else
        match state.blobs.live (config.pathName path) with
        | none => .error (.status 404 "not_found")
        | some sealed =>
            match openBlob config.aead config.keys state.vault.id path sealed with
            | .ok bytes => .ok bytes
            | .error error => .error (.internal error.text)

/-! ## Entity tags -/

theorem isDigit_of_mem_numeral {n : Nat} {c : Char} (hc : c ∈ (Text.numeral n).toList) :
    c.isDigit = true := by
  rw [Text.numeral, String.toList_ofList] at hc
  exact Nat.isDigit_of_mem_toDigits (by omega) (by omega) hc

theorem etagOf_toList (revision : Nat) :
    (etagOf revision).toList = '"' :: ((Text.numeral revision).toList ++ ['"']) := by
  simp [etagOf, String.toList_append]

theorem trimQuotes_etagOf (revision : Nat) :
    trimQuotes (etagOf revision).toList = (Text.numeral revision).toList := by
  have hplain : ∀ chars : List Char, (∀ c ∈ chars, c.isDigit = true) →
      chars.dropWhile (· = '"') = chars := by
    intro chars hdigits
    cases chars with
    | nil => rfl
    | cons c rest =>
        have hc : c ≠ '"' := by
          rintro rfl
          exact absurd (hdigits '"' (by simp)) (by decide)
        simp [hc]
  have hdigits : ∀ c ∈ (Text.numeral revision).toList, c.isDigit = true :=
    fun c hc => isDigit_of_mem_numeral hc
  have hne : (Text.numeral revision).toList ≠ [] := by
    rw [Text.numeral, String.toList_ofList]
    exact Nat.toDigits_ne_nil
  rw [etagOf_toList, trimQuotes]
  have hfront : List.dropWhile (fun c => decide (c = '"'))
      ('"' :: ((Text.numeral revision).toList ++ ['"'])) =
      (Text.numeral revision).toList ++ ['"'] := by
    cases hcases : (Text.numeral revision).toList with
    | nil => exact absurd hcases hne
    | cons c rest =>
        have hc : c ≠ '"' := by
          rintro rfl
          exact absurd (hdigits '"' (by simp [hcases])) (by decide)
        simp [hc]
  rw [hfront, List.reverse_append]
  simp only [List.reverse_cons, List.reverse_nil, List.nil_append, List.singleton_append,
    List.dropWhile_cons, decide_true, ↓reduceIte]
  rw [hplain _ (by simpa using hdigits), List.reverse_reverse]

/-- The entity tag of one revision matches that of another exactly when they
are the same. -/
theorem ifNoneMatchHits_etagOf (cached revision : Nat) :
    ifNoneMatchHits (some (etagOf cached)) (etagOf revision) = true ↔ cached = revision := by
  have hcomma : ',' ∉ (etagOf cached).toList := by
    rw [etagOf_toList]
    simp only [List.mem_cons, List.mem_append, List.not_mem_nil, or_false, not_or]
    refine ⟨by decide, ?_, by decide⟩
    intro hdigit
    exact absurd (isDigit_of_mem_numeral hdigit) (by decide)
  have hsolid : ∀ c ∈ (etagOf cached).toList, Text.isWhitespace c = false := by
    intro c hc
    rw [etagOf_toList] at hc
    simp only [List.mem_cons, List.mem_append, List.not_mem_nil, or_false] at hc
    rcases hc with rfl | hc | rfl
    · decide
    · have hdigit := isDigit_of_mem_numeral hc
      have hrange : 48 ≤ c.toNat ∧ c.toNat ≤ 57 := by
        simpa [Char.isDigit, UInt32.le_iff_toNat_le] using hdigit
      simp only [Text.isWhitespace, Bool.or_eq_false_iff, Bool.and_eq_false_iff,
        decide_eq_false_iff_not]
      omega
    · decide
  have hstrip : stripWeak (etagOf cached).toList = (etagOf cached).toList := by
    rw [etagOf_toList]
    rfl
  have hstar : (etagOf cached).toList ≠ ['*'] := by
    rw [etagOf_toList]
    simp
  simp only [ifNoneMatchHits, Text.splitOn_eq_singleton hcomma, List.any_cons, List.any_nil,
    Bool.or_false, String.ofList_toList, Text.trim_eq_self hsolid, hstrip, hstar, decide_false,
    Bool.false_or, trimQuotes_etagOf, decide_eq_true_eq, String.toList_inj]
  exact ⟨fun heq => Text.numeral_injective heq, fun heq => heq ▸ rfl⟩

end ObSink.Server
