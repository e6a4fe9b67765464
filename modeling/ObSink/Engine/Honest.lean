import ObSink.Engine.Plan
import ObSink.Server.Body

/-! # Rows of honest clients

What the rows of a vault look like when every client that writes to it runs
the engine with the vault's keys: a row is found under the token of the path
its encrypted path names, and its hash is that of its content. Such rows decode
to one entry per path.
-/

namespace ObSink.Engine

open Std.ExtTreeMap (insertAll getElem?_insertAll_of_mem getElem?_insertAll_of_not_mem)

/-- What a device and its server rely on of their primitives. -/
structure Context.Ideal (context : Context) : Prop where
  crypto : context.crypto.Ideal
  aead : context.server.aead.Correct
  pathName : Function.Injective context.server.pathName

/-- The server's entry for a real path. -/
def remoteAt (context : Context) (server : Server.State) (path : String) : Option FileEntry :=
  if Plain path then server.vault.files[context.crypto.pathToken path]? else none

/-- The blob the server has for a real path. -/
def contentAt (context : Context) (server : Server.State) (path : String) : Option Bytes :=
  if Plain path then server.body context.server (context.crypto.pathToken path) else none

/-- The row of a path, as an honest client left it. -/
structure HonestRow (context : Context) (server : Server.State) (path : String)
    (entry : FileEntry) : Prop where
  decrypts : context.crypto.decryptPath entry.encPath = .ok path
  encPath_ne : entry.encPath ≠ ""
  token_valid : Server.validPath (context.crypto.pathToken path) = true
  hashed : ∃ content, entry.hash = context.crypto.contentHmac content ∧
    (entry.deleted = false → ∃ blob, contentAt context server path = some blob ∧
      context.crypto.decrypt blob = .ok content)

/-- Every row is that of some path. -/
def NoStrays (context : Context) (server : Server.State) : Prop :=
  ∀ (token : String) (entry : FileEntry), server.vault.files[token]? = some entry →
    ∃ path, Plain path ∧ context.crypto.pathToken path = token

/-- The rows of a vault this device's user belongs to, all left by honest
clients. -/
structure Honest (context : Context) (server : Server.State) : Prop where
  member : Server.requireMember none server.vault context.userId = .ok ()
  noStrays : NoStrays context server
  row : ∀ path entry, remoteAt context server path = some entry →
    HonestRow context server path entry

/-- A manifest that says of every path what the server says. -/
def Mirrors (context : Context) (server : Server.State) (manifest : Manifest) : Prop :=
  ∀ path, manifest[path]? = remoteAt context server path

/-- Every row that can be named at all names its own path. -/
def Named (context : Context) (server : Server.State) : Prop :=
  ∀ path entry, remoteAt context server path = some entry → entry.encPath ≠ "" →
    context.crypto.decryptPath entry.encPath = .ok path

theorem remoteAt_of_plain (context : Context) (server : Server.State) {path : String}
    (hplain : Plain path) :
    remoteAt context server path = server.vault.files[context.crypto.pathToken path]? :=
  if_pos hplain

theorem plain_of_remoteAt {context : Context} {server : Server.State} {path : String}
    {entry : FileEntry} (hrow : remoteAt context server path = some entry) : Plain path := by
  by_contra hnot
  rw [remoteAt, if_neg hnot] at hrow
  cases hrow

/-- Where a row is listed: nowhere when it has no encrypted path. -/
def listedAt (crypto : Crypto) (entry : FileEntry) : Option (String × FileEntry) :=
  if entry.encPath = "" then none
  else (crypto.decryptPath entry.encPath).toOption.map fun path => (path, entry)

theorem decodeRow_foldlM (crypto : Crypto) (manifest : Manifest) {entries : List FileEntry}
    (hentries : ∀ entry ∈ entries, entry.encPath ≠ "" →
      ∃ path, crypto.decryptPath entry.encPath = .ok path) :
    entries.foldlM (decodeRow crypto) manifest =
      .ok (insertAll (listedAt crypto) manifest entries) := by
  induction entries generalizing manifest with
  | nil => rfl
  | cons entry rest ih =>
      have hrest := fun manifest => ih manifest fun later hlater =>
        hentries later (List.mem_cons_of_mem _ hlater)
      by_cases hblank : entry.encPath = ""
      · have hrow : decodeRow crypto manifest entry = .ok manifest := by simp [decodeRow, hblank]
        rw [List.foldlM_cons, hrow]
        refine (hrest manifest).trans ?_
        simp [insertAll, listedAt, hblank]
      · obtain ⟨path, hpath⟩ := hentries entry (by simp) hblank
        have hrow : decodeRow crypto manifest entry = .ok (manifest.insert path entry) := by
          simp [decodeRow, hblank, hpath]
        rw [List.foldlM_cons, hrow]
        refine (hrest (manifest.insert path entry)).trans ?_
        simp [insertAll, listedAt, hblank, hpath, Except.toOption]

/-- Rows that name their own paths decode, each to its path. -/
theorem decode_of_named {context : Context} {server : Server.State}
    (hstrays : NoStrays context server) (hnamed : Named context server) :
    ∃ manifest, decodeManifest context.crypto server.vault.files = .ok manifest ∧
      ∀ path, manifest[path]? =
        (remoteAt context server path).filter fun entry => entry.encPath ≠ "" := by
  have hrows : ∀ entry ∈ server.vault.files.toList.map Prod.snd,
      ∃ path : String, remoteAt context server path = some entry := by
    intro entry hentry
    obtain ⟨⟨token, row⟩, hmem, rfl⟩ := List.mem_map.mp hentry
    have hrow := Std.ExtTreeMap.mem_toList_iff_getElem?_eq_some.mp hmem
    obtain ⟨path, hplain, rfl⟩ := hstrays token row hrow
    exact ⟨path, (remoteAt_of_plain context server hplain).trans hrow⟩
  -- an entry that is listed at a path is the row of that path
  have hlisted : ∀ entry ∈ server.vault.files.toList.map Prod.snd, ∀ path found,
      listedAt context.crypto entry = some (path, found) →
        found = entry ∧ entry.encPath ≠ "" ∧ remoteAt context server path = some entry := by
    intro entry hentry path found hfound
    obtain ⟨real, hrow⟩ := hrows entry hentry
    unfold listedAt at hfound
    split at hfound
    next => cases hfound
    next hne =>
      have hdecrypt := hnamed real entry hrow hne
      simp only [hdecrypt, Except.toOption, Option.map_some, Option.some.injEq,
        Prod.mk.injEq] at hfound
      obtain ⟨rfl, rfl⟩ := hfound
      exact ⟨rfl, hne, hrow⟩
  refine ⟨insertAll (listedAt context.crypto) ∅ (server.vault.files.toList.map Prod.snd), ?_, ?_⟩
  · apply decodeRow_foldlM
    intro entry hentry hne
    obtain ⟨path, hrow⟩ := hrows entry hentry
    exact ⟨path, hnamed path entry hrow hne⟩
  · intro path
    cases hkept : (remoteAt context server path).filter fun entry => entry.encPath ≠ "" with
    | none =>
        rw [getElem?_insertAll_of_not_mem]
        · simp
        · intro entry hentry found hfound
          obtain ⟨_, hne, hrow⟩ := hlisted entry hentry path found hfound
          simp [hrow, Option.filter, hne] at hkept
    | some entry =>
        obtain ⟨hrow, hne⟩ := Option.filter_eq_some_iff.mp hkept
        have hne : entry.encPath ≠ "" := by simpa using hne
        have hplain := plain_of_remoteAt hrow
        have hmem : entry ∈ server.vault.files.toList.map Prod.snd := by
          rw [remoteAt_of_plain context server hplain] at hrow
          exact List.mem_map.mpr ⟨(_, entry),
            Std.ExtTreeMap.mem_toList_iff_getElem?_eq_some.mpr hrow, rfl⟩
        refine getElem?_insertAll_of_mem _ ∅ hmem ?_ ?_
        · simp [listedAt, hne, hnamed path entry hrow hne, Except.toOption]
        · intro other hother found hfound
          obtain ⟨rfl, _, hsome⟩ := hlisted other hother path found hfound
          rw [hrow] at hsome
          exact (Option.some.inj hsome).symm

/-- Honest rows decode to a mirror of the server. -/
theorem Honest.decode {context : Context} {server : Server.State}
    (hhonest : Honest context server) :
    ∃ manifest, decodeManifest context.crypto server.vault.files = .ok manifest ∧
      Mirrors context server manifest := by
  obtain ⟨manifest, hdecode, hlookup⟩ := decode_of_named hhonest.noStrays
    fun path entry hrow _ => (hhonest.row path entry hrow).decrypts
  refine ⟨manifest, hdecode, fun path => ?_⟩
  rw [hlookup path]
  cases hrow : remoteAt context server path with
  | none => rfl
  | some entry => simp [Option.filter, (hhonest.row path entry hrow).encPath_ne]

/-! ## A small instance for concrete runs -/

def sampleContext : Context where
  crypto := .sample
  server := Server.sampleConfig
  userId := "user_1"
  ignore := .defaults

theorem sampleContext_ideal : sampleContext.Ideal where
  crypto := Crypto.sample_ideal
  aead := Aead.padded_correct
  pathName := fun _ _ heq => heq

end ObSink.Engine
