import ObSink.Lib.TreeMap
import ObSink.Server.Serial

/-! # The history of a file

The read side of `_versions` and `_trash` (`server/src/blobs.rs`,
`server/src/routes/history.rs`) against the writes that fill them: writes take
their time from the clock before they take the vault lock, and retention passes
remove entries at any moment, without the lock.
-/

namespace ObSink.Server

/-! ## Names of history entries -/

/-- Leading digits of an entry name, 0 if there are none. -/
def extractTimestamp (name : String) : Nat :=
  (Text.number? (2 ^ 64) (name.toList.takeWhile Char.isDigit)).getD 0

/-- The timestamp and suffix an entry name sorts by. -/
def historyOrder (name : String) : Nat × Nat :=
  (extractTimestamp name,
    ((Text.splitOnce '-' name.toList).bind fun parts => Text.number? (2 ^ 64) parts.2).getD 0)

/-- Entry names are `<unix>[-n]`; anything else could walk the tree. -/
def validHistoryName (name : String) : Bool :=
  name.toList ≠ [] && name.toList.length ≤ 32 &&
    name.toList.all (fun c => c.isDigit || c = '-') && name.toList.head? ≠ some '-'

/-- Earlier by timestamp, then by suffix. -/
def OrderLt (left right : Nat × Nat) : Prop :=
  left.1 < right.1 ∨ (left.1 = right.1 ∧ left.2 < right.2)

instance (left right : Nat × Nat) : Decidable (OrderLt left right) :=
  inferInstanceAs (Decidable (_ ∨ _))

def notOlder (left right : String) : Bool :=
  !decide (OrderLt (historyOrder left) (historyOrder right))

/-- The entries of a history directory, newest first. -/
def listHistory (dir : HistoryDir) : List String := dir.keys.mergeSort notOlder

/-- One entry's sealed bytes. -/
def getHistory (dir : HistoryDir) (name : String) : Option Bytes :=
  if validHistoryName name then dir[name]? else none

/-- The newest entry's sealed bytes, what the trash route opens. -/
def newestHistory (dir : HistoryDir) : Option Bytes :=
  match listHistory dir with
  | [] => none
  | newest :: _ => getHistory dir newest

theorem notOlder_iff {left right : String} :
    notOlder left right = true ↔ ¬ OrderLt (historyOrder left) (historyOrder right) := by
  simp [notOlder]

theorem pairwise_listHistory (dir : HistoryDir) :
    (listHistory dir).Pairwise fun left right => notOlder left right = true := by
  refine List.pairwise_mergeSort ?_ ?_ dir.keys
  · intro a b c hab hbc
    rw [notOlder_iff, OrderLt] at hab hbc ⊢
    omega
  · intro a b
    rw [Bool.or_eq_true, notOlder_iff, notOlder_iff, OrderLt, OrderLt]
    omega

theorem takeWhile_suffixed (now k : Nat) :
    (Text.suffixed now k).toList.takeWhile Char.isDigit = (Text.numeral now).toList := by
  have hdigits : ∀ c ∈ (Text.numeral now).toList, c.isDigit = true :=
    fun c hc => Text.isDigit_of_mem_numeral hc
  unfold Text.suffixed
  split
  next => simpa using @List.takeWhile_append_of_pos _ _ _ [] hdigits
  next =>
    rw [String.toList_append, String.toList_append, List.append_assoc,
      List.takeWhile_append_of_pos hdigits]
    simp

theorem historyOrder_suffixed {now k : Nat} (hnow : now < 2 ^ 64) (hk : k < 2 ^ 64) :
    historyOrder (Text.suffixed now k) = (now, k) := by
  have hdash : ∀ n, '-' ∉ (Text.numeral n).toList := by
    intro n hmem
    have hdigit := Text.isDigit_of_mem_numeral hmem
    simp at hdigit
  unfold historyOrder extractTimestamp
  rw [takeWhile_suffixed, Text.number?_numeral hnow]
  refine Prod.ext rfl ?_
  unfold Text.suffixed
  split
  next hzero => simp [Text.splitOnce_eq_none (hdash now), hzero]
  next =>
    rw [String.toList_append, String.toList_append, List.append_assoc]
    change ((Text.splitOnce '-' ((Text.numeral now).toList ++ '-' :: (Text.numeral k).toList)).bind
      _).getD 0 = k
    rw [Text.splitOnce_append (hdash now), Option.bind_some, Text.number?_numeral hk]
    rfl

theorem valid_suffixed {now k : Nat} (hnow : now < 2 ^ 64) (hk : k < 2 ^ 31) :
    validHistoryName (Text.suffixed now k) = true := by
  have hlong : (Text.numeral now).toList.length ≤ 20 := Text.length_numeral_le (by omega) (by omega)
  have hshort : (Text.numeral k).toList.length ≤ 10 := Text.length_numeral_le (by omega) (by omega)
  have hnumeral : ∀ n, (Text.numeral n).toList.all (fun c => c.isDigit || c = '-') = true := by
    intro n
    refine List.all_eq_true.mpr fun c hc => ?_
    simp [Text.isDigit_of_mem_numeral hc]
  have hhead : ∀ n rest, ((Text.numeral n).toList ++ rest).head? ≠ some '-' := by
    intro n rest hdash
    cases hchars : (Text.numeral n).toList with
    | nil => exact Text.numeral_ne_nil n hchars
    | cons c others =>
        rw [hchars] at hdash
        obtain rfl := Option.some.inj hdash
        have hdigit :=
          Text.isDigit_of_mem_numeral (hchars ▸ List.mem_cons_self : '-' ∈ (Text.numeral n).toList)
        simp at hdigit
  unfold validHistoryName Text.suffixed
  split
  next =>
    have hfirst := hhead now []
    rw [List.append_nil] at hfirst
    simp only [ne_eq, Text.numeral_ne_nil, not_false_eq_true, decide_true, Bool.true_and, hnumeral,
      Bool.and_true, Bool.and_eq_true, decide_eq_true_eq]
    exact ⟨by omega, hfirst⟩
  next =>
    have hfirst := hhead now ('-' :: (Text.numeral k).toList)
    have hchars : (Text.numeral now ++ "-" ++ Text.numeral k).toList =
        (Text.numeral now).toList ++ '-' :: (Text.numeral k).toList := by
      simp
    simp only [hchars, List.length_append, List.length_cons, List.all_append,
      List.all_cons, hnumeral, Bool.and_eq_true, decide_eq_true_eq, ne_eq]
    refine ⟨⟨⟨by simp, by omega⟩, by simp⟩, hfirst⟩

/-! ## Entries in the order they were moved -/

/-- The entries of a directory in the order they were moved there, when names
sort in that order. -/
structure Recorded (dir : HistoryDir) (moved : List (String × Bytes)) : Prop where
  perm : moved.Perm dir.toList
  ordered : moved.Pairwise fun earlier later =>
    OrderLt (historyOrder earlier.1) (historyOrder later.1)
  named : ∀ entry ∈ moved, ∃ now k, entry.1 = Text.suffixed now k ∧ now < 2 ^ 64 ∧ k < 2 ^ 31

theorem Recorded.empty : Recorded ∅ [] := by
  refine ⟨?_, .nil, fun entry hentry => by cases hentry⟩
  simp

theorem Recorded.mem_iff {dir : HistoryDir} {moved : List (String × Bytes)}
    (hrecorded : Recorded dir moved) {entry : String × Bytes} :
    entry ∈ moved ↔ dir[entry.1]? = some entry.2 := by
  rw [hrecorded.perm.mem_iff]
  exact Std.ExtTreeMap.mem_toList_iff_getElem?_eq_some

/-- The listing is the order of moving, backwards. -/
theorem Recorded.listHistory_eq {dir : HistoryDir} {moved : List (String × Bytes)}
    (hrecorded : Recorded dir moved) : listHistory dir = (moved.map Prod.fst).reverse := by
  have hsorted := pairwise_listHistory dir
  have hmoved : (moved.map Prod.fst).reverse.Pairwise fun left right =>
      notOlder left right = true := by
    rw [List.pairwise_reverse, List.pairwise_map]
    refine hrecorded.ordered.imp fun hlt => ?_
    rw [notOlder_iff]
    rw [OrderLt] at hlt ⊢
    omega
  have hperm : (listHistory dir).Perm (moved.map Prod.fst).reverse := by
    refine (List.mergeSort_perm _ _).trans ?_
    rw [← Std.ExtTreeMap.map_fst_toList_eq_keys]
    exact (hrecorded.perm.symm.map Prod.fst).trans (List.reverse_perm _).symm
  -- names of one order are one name
  refine List.Perm.eq_of_pairwise ?_ hsorted hmoved hperm
  intro left right hleft hright hnewer holder
  have hleft' : left ∈ moved.map Prod.fst := List.mem_reverse.mp (hperm.mem_iff.mp hleft)
  have hright' : right ∈ moved.map Prod.fst := List.mem_reverse.mp hright
  obtain ⟨first, hfirst, rfl⟩ := List.mem_map.mp hleft'
  obtain ⟨second, hsecond, rfl⟩ := List.mem_map.mp hright'
  obtain ⟨now, k, hname, hnow, hk⟩ := hrecorded.named first hfirst
  obtain ⟨now', k', hname', hnow', hk'⟩ := hrecorded.named second hsecond
  rw [hname, hname']
  rw [notOlder_iff, hname, hname', historyOrder_suffixed hnow (by omega),
    historyOrder_suffixed hnow' (by omega), OrderLt] at hnewer holder
  simp only at hnewer holder
  obtain rfl : now = now' := by omega
  obtain rfl : k = k' := by omega
  rfl

/-- Every listed entry can be fetched. -/
theorem Recorded.getHistory_eq {dir : HistoryDir} {moved : List (String × Bytes)}
    (hrecorded : Recorded dir moved) {entry : String × Bytes} (hentry : entry ∈ moved) :
    getHistory dir entry.1 = some entry.2 := by
  obtain ⟨now, k, hname, hnow, hk⟩ := hrecorded.named entry hentry
  rw [getHistory, if_pos (by rw [hname]; exact valid_suffixed hnow hk)]
  exact hrecorded.mem_iff.mp hentry

/-- The newest entry is the one that was moved last. -/
theorem Recorded.newestHistory_eq {dir : HistoryDir} {moved : List (String × Bytes)}
    (hrecorded : Recorded dir moved) : newestHistory dir = moved.getLast?.map Prod.snd := by
  unfold newestHistory
  rw [hrecorded.listHistory_eq]
  rcases List.eq_nil_or_concat moved with rfl | ⟨init, last, rfl⟩
  · rfl
  · simp only [List.concat_eq_append, List.map_append, List.map_cons, List.map_nil,
      List.reverse_append, List.reverse_cons, List.reverse_nil, List.nil_append,
      List.singleton_append,
      List.getLast?_append, List.getLast?_singleton, Option.some_or, Option.map_some]
    exact hrecorded.getHistory_eq (by simp)

/-- A new entry sorts after those of earlier seconds and, if no name of its own
second is missing, after those too. -/
structure RoomAtEnd (dir : HistoryDir) (now : Nat) : Prop where
  bounded : now < 2 ^ 64
  few : dir.size < 2 ^ 31
  later : ∀ name ∈ dir, extractTimestamp name ≤ now
  noGap : ∀ k, Text.suffixed now k ∈ dir → ∀ j < k, Text.suffixed now j ∈ dir

theorem Recorded.insert {dir : HistoryDir} {moved : List (String × Bytes)}
    (hrecorded : Recorded dir moved) {now : Nat} (hroom : RoomAtEnd dir now) (blob : Bytes) :
    Recorded (dir.insert (BlobStore.entryName dir now) blob)
      (moved ++ [(BlobStore.entryName dir now, blob)]) := by
  obtain ⟨i, hi, hname, htaken⟩ := Probe.exists_firstFree_eq (Text.suffixed now)
    (dir.keys.contains ·) dir.keys.length 0
  change BlobStore.entryName dir now = Text.suffixed now i at hname
  have hfree := BlobStore.entryName_free dir now
  have hsmall : i < 2 ^ 31 := by
    have := hroom.few
    rw [Std.ExtTreeMap.length_keys] at hi
    omega
  refine ⟨?_, ?_, ?_⟩
  · refine (List.perm_append_comm.trans ?_).trans
      (Std.ExtTreeMap.toList_insert_perm_of_new dir _ blob hfree).symm
    exact hrecorded.perm.cons _
  · refine List.pairwise_append.mpr ⟨hrecorded.ordered, List.pairwise_singleton _ _, ?_⟩
    intro entry hentry last hlast
    obtain rfl := List.mem_singleton.mp hlast
    obtain ⟨second, k, hold, hthen, hk⟩ := hrecorded.named entry hentry
    have hmem : entry.1 ∈ dir := by
      rw [Std.ExtTreeMap.mem_iff_isSome_getElem?, hrecorded.mem_iff.mp hentry]
      rfl
    have hle := hroom.later entry.1 hmem
    rw [hold] at hle hmem
    have hstamp : extractTimestamp (Text.suffixed second k) = second :=
      congrArg Prod.fst (historyOrder_suffixed hthen (show k < 2 ^ 64 by omega))
    rw [hold, hname, historyOrder_suffixed hthen (by omega),
      historyOrder_suffixed hroom.bounded (by omega)]
    rw [hstamp] at hle
    rcases Nat.lt_or_eq_of_le hle with hlt | rfl
    · exact Or.inl hlt
    · -- the same second: every entry of it is below the name taken, for a free name below an
      -- entry would be a gap
      refine Or.inr ⟨rfl, ?_⟩
      change k < i
      by_contra hnot
      have hown : Text.suffixed second i ∈ dir := by
        rcases Nat.lt_or_eq_of_le (Nat.le_of_not_lt hnot) with hbelow | heq
        · exact hroom.noGap k hmem i hbelow
        · rw [heq]
          exact hmem
      rw [hname] at hfree
      rw [Std.ExtTreeMap.mem_iff_isSome_getElem?, hfree] at hown
      cases hown
  · intro entry hentry
    rcases List.mem_append.mp hentry with hold | hnew
    · exact hrecorded.named entry hold
    · obtain rfl := List.mem_singleton.mp hnew
      exact ⟨now, i, hname, hroom.bounded, hsmall⟩

/-- The entries a change leaves, in the order they were moved: what is gone is
dropped, what is new comes last. -/
def follow (moved : List (String × Bytes)) (before after : HistoryDir) : List (String × Bytes) :=
  (moved.filter fun entry => after[entry.1]? = some entry.2) ++
    after.toList.filter fun entry => before[entry.1]?.isNone

/-- Entries that go leave the others in order. -/
theorem Recorded.shrink {before after : HistoryDir} {moved : List (String × Bytes)}
    (hrecorded : Recorded before moved)
    (hsub : ∀ (name : String) (blob : Bytes), after[name]? = some blob →
      before[name]? = some blob) :
    Recorded after (follow moved before after) := by
  have hfollow : follow moved before after =
      moved.filter fun entry => after[entry.1]? = some entry.2 := by
    unfold follow
    have hnone : (after.toList.filter fun entry => before[entry.1]?.isNone) = [] := by
      refine List.filter_eq_nil_iff.mpr ?_
      rintro ⟨name, blob⟩ hmem hmissing
      rw [hsub name blob (Std.ExtTreeMap.mem_toList_iff_getElem?_eq_some.mp hmem)] at hmissing
      cases hmissing
    rw [hnone, List.append_nil]
  have hnodup : moved.Nodup := hrecorded.perm.nodup_iff.mpr (Std.ExtTreeMap.nodup_toList before)
  rw [hfollow]
  refine ⟨?_, hrecorded.ordered.filter _, fun entry hentry => ?_⟩
  · rw [List.perm_ext_iff_of_nodup (hnodup.filter _) (Std.ExtTreeMap.nodup_toList after)]
    rintro ⟨name, blob⟩
    rw [List.mem_filter, hrecorded.mem_iff, Std.ExtTreeMap.mem_toList_iff_getElem?_eq_some,
      decide_eq_true_eq]
    exact ⟨fun hboth => hboth.2, fun hafter => ⟨hsub name blob hafter, hafter⟩⟩
  · exact hrecorded.named entry (List.mem_filter.mp hentry).1

/-- A new entry comes last. -/
theorem Recorded.grow {dir : HistoryDir} {moved : List (String × Bytes)}
    (hrecorded : Recorded dir moved) {now : Nat} (hroom : RoomAtEnd dir now) (blob : Bytes) :
    let after := dir.insert (BlobStore.entryName dir now) blob
    Recorded after (follow moved dir after) := by
  intro after
  have hfree := BlobStore.entryName_free dir now
  have hkept : (moved.filter fun entry => after[entry.1]? = some entry.2) = moved := by
    refine List.filter_eq_self.mpr fun entry hentry => ?_
    have hold := hrecorded.mem_iff.mp hentry
    have hne : BlobStore.entryName dir now ≠ entry.1 := by
      intro heq
      rw [heq, hold] at hfree
      cases hfree
    rw [decide_eq_true_eq]
    exact (Std.ExtTreeMap.getElem?_insert_of_ne dir blob hne).trans hold
  have hnew : (after.toList.filter fun entry => dir[entry.1]?.isNone) =
      [(BlobStore.entryName dir now, blob)] := by
    have hperm := (Std.ExtTreeMap.toList_insert_perm_of_new dir _ blob hfree).filter
      fun entry => dir[entry.1]?.isNone
    have hnone : (dir.toList.filter fun entry => dir[entry.1]?.isNone) = [] := by
      refine List.filter_eq_nil_iff.mpr fun entry hentry hmissing => ?_
      rw [Std.ExtTreeMap.mem_toList_iff_getElem?_eq_some.mp hentry] at hmissing
      cases hmissing
    rw [List.filter_cons, if_pos (by rw [hfree]; rfl), hnone] at hperm
    exact List.perm_singleton.mp hperm
  rw [follow, hkept, hnew]
  exact hrecorded.insert hroom blob

/-! ## What a write does to the history -/

/-- Where a write moves the blob it takes away. -/
def Request.tier : Request → Tier
  | .put _ _ => .versions
  | .delete _ _ => .trash

namespace BlobStore

theorem putLive_history (store : BlobStore) (fault : Option Fault) (name : String)
    (sealed : Bytes) : (store.putLive fault name sealed).2.history = store.history := by
  simp only [putLive]
  split <;> rfl

theorem ne_of_attempt_ok {fault : Option Fault} {point : FaultPoint}
    (hdone : attempt fault point = .ok ()) : ∀ failing ∈ fault, failing.point ≠ point := by
  rintro failing hfault heq
  obtain rfl : fault = some failing := hfault
  simp [attempt, heq] at hdone

/-- Where two operations in a row succeed, neither is the failing one. -/
theorem ne_of_attempts_ok {fault : Option Fault} {first second : FaultPoint}
    (hdone : (do attempt fault first; attempt fault second) = .ok ()) :
    (∀ failing ∈ fault, failing.point ≠ first) ∧ ∀ failing ∈ fault, failing.point ≠ second := by
  cases hfirst : attempt fault first with
  | error message =>
      rw [hfirst] at hdone
      cases hdone
  | ok done =>
      rw [hfirst] at hdone
      exact ⟨ne_of_attempt_ok hfirst, ne_of_attempt_ok hdone⟩

/-- There is a live blob, and nothing fails where it is moved. -/
structure Movable (store : BlobStore) (fault : Option Fault) (name : String) : Prop where
  live : (store.live name).isSome
  creates : ∀ failing ∈ fault, failing.point ≠ .createHistoryDir
  renames : ∀ failing ∈ fault, failing.point ≠ .renameToHistory

/-- A move adds one entry, or nothing. -/
theorem moveLiveReturning_history (store : BlobStore) (fault : Option Fault) (tier : Tier)
    (name : String) (now : Nat) :
    (store.moveLiveReturning fault tier name now).2.history = store.history ∨
    store.Movable fault name ∧ ∃ blob,
      (store.moveLiveReturning fault tier name now).2.history =
        (store.setHistory tier name ((store.history tier name).insert
          (entryName (store.history tier name) now) blob)).history := by
  unfold moveLiveReturning
  split
  next => exact Or.inl rfl
  next blob hlive =>
    simp only
    split
    next hdone =>
      obtain ⟨hcreates, hrenames⟩ := ne_of_attempts_ok hdone
      exact Or.inr ⟨⟨by rw [hlive]; rfl, hcreates, hrenames⟩, blob, rfl⟩
    next => exact Or.inl rfl

/-- A replacement adds one entry to the versions, or nothing. -/
theorem replaceLive_history (store : BlobStore) (fault : Option Fault) (name : String)
    (sealed : Bytes) (archive : Bool) (now : Nat) :
    (store.replaceLive fault name sealed archive now).2.history = store.history ∨
    archive = true ∧ store.Movable fault name ∧ ∃ blob,
      (store.replaceLive fault name sealed archive now).2.history =
        (store.setHistory .versions name ((store.history .versions name).insert
          (entryName (store.history .versions name) now) blob)).history := by
  -- writing the new blob leaves the history as the move left it
  have hwrite : (store.replaceLive fault name sealed archive now).2.history =
      (if archive then store.moveLiveReturning fault .versions name now
        else (.ok none, store)).2.history := by
    simp only [replaceLive]
    split
    next => rfl
    next =>
      have hput := putLive_history (if archive then store.moveLiveReturning fault .versions name now
        else (.ok none, store)).2 fault name sealed
      split
      next heq => rw [← hput, heq]
      next heq => rw [← hput, heq]
  rw [hwrite]
  split
  next harchive =>
    exact (moveLiveReturning_history store fault .versions name now).imp_right fun hmoved =>
      ⟨harchive, hmoved⟩
  next => exact Or.inl rfl

/-- A removal adds one entry to the trash, or nothing. -/
theorem trashLive_history (store : BlobStore) (fault : Option Fault) (name : String) (now : Nat) :
    (store.trashLive fault name now).2.history = store.history ∨
    store.Movable fault name ∧ ∃ blob,
      (store.trashLive fault name now).2.history =
        (store.setHistory .trash name ((store.history .trash name).insert
          (entryName (store.history .trash name) now) blob)).history := by
  have hmoved : (store.trashLive fault name now).2 =
      (store.moveLiveReturning fault .trash name now).2 := by
    unfold trashLive
    split
    next heq => rw [heq]
    next heq => rw [heq]
  rw [hmoved]
  exact moveLiveReturning_history store fault .trash name now

/-- Undoing a change takes an entry out, or nothing. -/
theorem undo_history (store : BlobStore) (token : BlobUndo) (tier : Tier) (name entry : String)
    (blob : Bytes) (hafter : ((store.undo token).history tier name)[entry]? = some blob) :
    (store.history tier name)[entry]? = some blob := by
  unfold undo at hafter
  split at hafter
  next => exact hafter
  next place entry' _ =>
    simp only at hafter
    split at hafter
    next => exact hafter
    next moved _ =>
      rw [setLive_history] at hafter
      by_cases hplace : tier = place ∧ name = token.name
      · obtain ⟨rfl, rfl⟩ := hplace
        rw [setHistory_history_self, Std.ExtTreeMap.getElem?_erase] at hafter
        split at hafter
        next => cases hafter
        next => exact hafter
      · rw [setHistory_history_of_ne _ _ _ _ _ _ (by tauto)] at hafter
        exact hafter

end BlobStore

/-- A write is about to move a blob: a delete that can, or a put over a row that
is not a tombstone. -/
structure Call.Moves (config : Config) (call : Call) (current : Option FileEntry)
    (blobs : BlobStore) : Prop where
  movable : blobs.Movable call.fault (config.pathName call.path)
  replaces : ∀ params body, call.request = .put params body →
    (current.any fun entry => !entry.deleted) = true

/-- The blob change of a write adds one entry, or nothing. -/
theorem moveBlob_history (config : Config) (call : Call) (current : Option FileEntry)
    (state : State) :
    (call.moveBlob config current state).2.history = state.blobs.history ∨
    call.Moves config current state.blobs ∧ ∃ blob,
      (call.moveBlob config current state).2.history =
        (state.blobs.setHistory call.request.tier (config.pathName call.path)
          ((state.blobs.history call.request.tier (config.pathName call.path)).insert
            (BlobStore.entryName
              (state.blobs.history call.request.tier (config.pathName call.path)) call.now)
            blob)).history := by
  obtain ⟨fault, now, nonce, userId, request⟩ := call
  cases request with
  | put params body =>
      refine (state.blobs.replaceLive_history _ _ _ _ _).imp_right ?_
      rintro ⟨harchive, hmovable, hinserted⟩
      exact ⟨⟨hmovable, fun _ _ _ => harchive⟩, hinserted⟩
  | delete path parentHash =>
      refine (state.blobs.trashLive_history _ _ _).imp_right ?_
      rintro ⟨hmovable, hinserted⟩
      exact ⟨⟨hmovable, fun _ _ hput => by cases hput⟩, hinserted⟩

/-! ## Writes and retention passes together -/

/-- The vault with its requests, the clock, and what was moved to each history
directory, in that order, as far as it is still there. -/
structure Scene where
  board : Board
  clock : Nat
  moved : Tier → String → List (String × Bytes)

def Scene.dir (scene : Scene) (tier : Tier) (name : String) : HistoryDir :=
  scene.board.shared.blobs.history tier name

/-- The scene once its board is another one. -/
def Scene.become (scene : Scene) (board : Board) : Scene where
  board := board
  clock := scene.clock
  moved := fun tier name =>
    follow (scene.moved tier name) (scene.dir tier name) (board.shared.blobs.history tier name)

/-- A retention pass removes one entry. -/
def Board.prune (board : Board) (tier : Tier) (name entry : String) : Board :=
  { board with shared := { board.shared with
      blobs := board.shared.blobs.setHistory tier name
        ((board.shared.blobs.history tier name).erase entry) } }

inductive Scene.Step (config : Config) : Scene → Scene → Prop
  /-- The clock never runs backwards. -/
  | tick (scene : Scene) (clock : Nat) (hlater : scene.clock ≤ clock) :
      Step config scene { scene with clock }
  /-- A request arrives and reads the clock. -/
  | submit (scene : Scene) (call : Call) (hnow : call.now = scene.clock) :
      Step config scene { scene with
        board := { scene.board with waiting := scene.board.waiting ++ [call] } }
  /-- A request that has arrived takes the lock, or goes on while it holds it. -/
  | work (scene : Scene) (board : Board) (hstep : Critical.Step (machine config) scene.board board)
      (harrived : board.waiting.length ≤ scene.board.waiting.length) :
      Step config scene (scene.become board)
  | prune (scene : Scene) (tier : Tier) (name entry : String) :
      Step config scene (scene.become (scene.board.prune tier name entry))

/-- A vault before its first write. -/
def Scene.start (vault : Vault) : Scene where
  board := .start ⟨vault, .empty⟩
  clock := 0
  moved := fun _ _ => []

/-- A write that is about to move a blob finds no entry of a later second, and
none of its own second missing before one that is there. -/
def Scene.InTurn (config : Config) (scene : Scene) : Prop :=
  ∀ call current entry, scene.board.holder = some (call, .admitted current entry) →
    call.Moves config current scene.board.shared.blobs →
    RoomAtEnd (scene.dir call.request.tier (config.pathName call.path)) call.now

/-- A run in which every write moves its blob in turn. -/
def Scene.RunsInTurn (config : Config) : Scene → Scene → Prop :=
  Relation.ReflTransGen fun before after => before.InTurn config ∧ Scene.Step config before after

/-- Every directory lists its entries in the reverse of the order they were
moved there, every listed name is served with its bytes, and the newest entry
is the one that was moved last. -/
def Scene.ListsInOrder (scene : Scene) : Prop :=
  ∀ tier name,
    listHistory (scene.dir tier name) = ((scene.moved tier name).map Prod.fst).reverse ∧
    (∀ entry ∈ scene.moved tier name, getHistory (scene.dir tier name) entry.1 = some entry.2) ∧
    newestHistory (scene.dir tier name) = (scene.moved tier name).getLast?.map Prod.snd

/-- One step of a write under the lock: the history loses entries, or gains the
one an admitted write moves. -/
theorem callStep_history (config : Config) (call : Call) (stage : Stage) (state : State)
    (tier : Tier) (name : String) :
    (∀ (entry : String) (blob : Bytes),
      ((call.step config stage state).2.blobs.history tier name)[entry]? = some blob →
        (state.blobs.history tier name)[entry]? = some blob) ∨
    ∃ current entry blob, stage = .admitted current entry ∧
      call.Moves config current state.blobs ∧ tier = call.request.tier ∧
      name = config.pathName call.path ∧
      (call.step config stage state).2.blobs.history tier name =
        (state.blobs.history tier name).insert
          (BlobStore.entryName (state.blobs.history tier name) call.now) blob := by
  cases stage with
  | locked =>
      rcases locked_cases config call state with
        ⟨answer, hlocked, _⟩ | ⟨current, entry, hlocked⟩ <;>
        rw [hlocked] <;> exact Or.inl fun _ _ hentry => hentry
  | admitted current entry =>
      have hblobs : (call.step config (.admitted current entry) state).2.blobs =
          (call.moveBlob config current state).2 := by
        unfold Call.step
        simp only
        split
        next heq => rw [heq]
        next heq => rw [heq]
      rw [hblobs]
      rcases moveBlob_history config call current state with hsame | ⟨hmoves, blob, hmoved⟩
      · rw [hsame]
        exact Or.inl fun _ _ hentry => hentry
      · rw [hmoved]
        by_cases hplace : tier = call.request.tier ∧ name = config.pathName call.path
        · obtain ⟨rfl, rfl⟩ := hplace
          refine Or.inr ⟨current, entry, blob, rfl, hmoves, rfl, rfl, ?_⟩
          rw [BlobStore.setHistory_history_self]
        · rw [BlobStore.setHistory_history_of_ne _ _ _ _ _ _ (by tauto)]
          exact Or.inl fun _ _ hentry => hentry
  | moved undo entry =>
      left
      unfold Call.step
      simp only
      split
      next => exact fun found blob => state.blobs.undo_history undo tier name found blob
      next => exact fun _ _ hentry => hentry

theorem step_history {config : Config} {board after : Board}
    (hstep : Critical.Step (machine config) board after) (tier : Tier) (name : String) :
    (∀ (entry : String) (blob : Bytes),
      (after.shared.blobs.history tier name)[entry]? = some blob →
        (board.shared.blobs.history tier name)[entry]? = some blob) ∨
    ∃ call current entry blob, board.holder = some (call, .admitted current entry) ∧
      call.Moves config current board.shared.blobs ∧
      tier = call.request.tier ∧ name = config.pathName call.path ∧
      after.shared.blobs.history tier name = (board.shared.blobs.history tier name).insert
        (BlobStore.entryName (board.shared.blobs.history tier name) call.now) blob := by
  have hcall : ∀ call stage result shared, board.holder = some (call, stage) →
      (machine config).step call stage board.shared = (result, shared) →
      (∀ (entry : String) (blob : Bytes), (shared.blobs.history tier name)[entry]? = some blob →
        (board.shared.blobs.history tier name)[entry]? = some blob) ∨
      ∃ call current entry blob, board.holder = some (call, .admitted current entry) ∧
        call.Moves config current board.shared.blobs ∧
        tier = call.request.tier ∧ name = config.pathName call.path ∧
        shared.blobs.history tier name = (board.shared.blobs.history tier name).insert
          (BlobStore.entryName (board.shared.blobs.history tier name) call.now) blob := by
    intro call stage result shared hholder hresult
    change call.step config stage board.shared = (result, shared) at hresult
    have hhistory := callStep_history config call stage board.shared tier name
    rw [hresult] at hhistory
    refine hhistory.imp_right ?_
    rintro ⟨current, entry, blob, rfl, hmoves, htier, hname, hinsert⟩
    exact ⟨call, current, entry, blob, hholder, hmoves, htier, hname, hinsert⟩
  cases hstep with
  | submit call => exact Or.inl fun _ _ hentry => hentry
  | acquire before after call hfree hwaiting => exact Or.inl fun _ _ hentry => hentry
  | advance call stage next shared hholder hadvance => exact hcall call stage _ _ hholder hadvance
  | release call stage answer shared hholder hrelease => exact hcall call stage _ _ hholder hrelease

/-- A step keeps the record of every directory, if a move is in turn. -/
theorem Scene.Step.recorded {config : Config} {scene after : Scene}
    (hstep : Scene.Step config scene after) (hturn : scene.InTurn config)
    (hrecorded : ∀ tier name, Recorded (scene.dir tier name) (scene.moved tier name)) :
    ∀ tier name, Recorded (after.dir tier name) (after.moved tier name) := by
  intro tier name
  cases hstep with
  | tick clock hlater => exact hrecorded tier name
  | submit call hnow => exact hrecorded tier name
  | work board hboard harrived =>
      rcases step_history hboard tier name with
        hsub | ⟨call, current, entry, blob, hholder, hmoves, rfl, rfl, hinsert⟩
      · exact (hrecorded tier name).shrink hsub
      · have hgrown := (hrecorded _ _).grow (hturn call current entry hholder hmoves) blob
        change Recorded (board.shared.blobs.history _ _)
          (follow _ _ (board.shared.blobs.history _ _))
        rw [hinsert]
        exact hgrown
  | prune place dir entry =>
      refine (hrecorded tier name).shrink ?_
      intro found blob hfound
      change ((scene.board.shared.blobs.setHistory place dir
        ((scene.board.shared.blobs.history place dir).erase entry)).history tier name)[found]? =
          some blob at hfound
      by_cases hplace : tier = place ∧ name = dir
      · obtain ⟨rfl, rfl⟩ := hplace
        rw [BlobStore.setHistory_history_self, Std.ExtTreeMap.getElem?_erase] at hfound
        split at hfound
        next => cases hfound
        next => exact hfound
      · rw [BlobStore.setHistory_history_of_ne _ _ _ _ _ _ (by tauto)] at hfound
        exact hfound

/-- In every run whose writes move their blobs in turn, each history lists what
survives in the reverse of the order it was moved. -/
theorem history_lists_in_order (config : Config) (vault : Vault) {scene : Scene}
    (hrun : Scene.RunsInTurn config (.start vault) scene) : scene.ListsInOrder := by
  have hrecorded : ∀ tier name, Recorded (scene.dir tier name) (scene.moved tier name) := by
    induction hrun with
    | refl => exact fun tier name => Recorded.empty
    | tail _ hstep ih => exact hstep.2.recorded hstep.1 ih
  intro tier name
  exact ⟨(hrecorded tier name).listHistory_eq,
    fun entry hentry => (hrecorded tier name).getHistory_eq hentry,
    (hrecorded tier name).newestHistory_eq⟩

/-! ## Two small runs -/

/-- The request that holds the lock goes on; with a free lock, the one that
arrived last takes it. -/
def Scene.proceed (config : Config) (scene : Scene) : Scene :=
  match scene.board.holder with
  | some (call, stage) =>
      match call.step config stage scene.board.shared with
      | (.inl next, shared) =>
          scene.become { scene.board with shared, holder := some (call, next) }
      | (.inr answer, shared) =>
          scene.become { scene.board with
            shared, holder := none, log := scene.board.log ++ [(call, answer)] }
  | none =>
      match scene.board.waiting.getLast? with
      | some call =>
          scene.become { scene.board with
            waiting := scene.board.waiting.dropLast, holder := some (call, .locked) }
      | none => scene

/-- A request arrives and reads the clock. -/
def Scene.arrive (scene : Scene) (call : Call) : Scene where
  board := { scene.board with waiting := scene.board.waiting ++ [call] }
  clock := call.now
  moved := scene.moved

/-- Requests arrive, and the vault goes on one step in between. -/
def Scene.play (config : Config) : List (Option Call) → Scene → Scene
  | [], scene => scene
  | some call :: rest, scene => play config rest (scene.arrive call)
  | none :: rest, scene => play config rest (scene.proceed config)

/-- The clock does not run backwards, and every scene on the way passes a check. -/
def Scene.playable (config : Config) (check : Scene → Bool) : List (Option Call) → Scene → Bool
  | [], _ => true
  | some call :: rest, scene =>
      scene.clock ≤ call.now && check scene && playable config check rest (scene.arrive call)
  | none :: rest, scene => check scene && playable config check rest (scene.proceed config)

theorem Scene.proceed_step (config : Config) (scene : Scene) :
    scene.proceed config = scene ∨ Scene.Step config scene (scene.proceed config) := by
  unfold proceed
  split
  next call stage hholder =>
    right
    split
    next next' shared hadvance =>
      exact .work scene _ (.advance _ call stage next' shared hholder hadvance) le_rfl
    next answer shared hrelease =>
      exact .work scene _ (.release _ call stage answer shared hholder hrelease) le_rfl
  next hfree =>
    split
    next call hlast =>
      have hwaiting : scene.board.waiting = scene.board.waiting.dropLast ++ call :: [] := by
        rw [← List.dropLast_append_getLast? call hlast]
        simp
      have hacquire : Critical.Step (machine config) scene.board
          { scene.board with
            waiting := scene.board.waiting.dropLast ++ [], holder := some (call, .locked) } :=
        .acquire scene.board scene.board.waiting.dropLast [] call hfree hwaiting
      rw [List.append_nil] at hacquire
      exact Or.inr (.work scene _ hacquire (by simp))
    next => exact Or.inl rfl

/-- Nothing is in the way of the write that is about to move a blob. -/
def Scene.clear (config : Config) (scene : Scene) : Bool :=
  match scene.board.holder with
  | some (call, .admitted _ _) =>
      call.now < 2 ^ 64 && (scene.dir call.request.tier (config.pathName call.path)).toList = []
  | _ => true

theorem Scene.inTurn_of_clear {config : Config} {scene : Scene}
    (hclear : scene.clear config = true) :
    scene.InTurn config := by
  intro call current entry hholder _
  simp only [clear, hholder, Bool.and_eq_true, decide_eq_true_eq] at hclear
  obtain ⟨hnow, hempty⟩ := hclear
  rw [Std.ExtTreeMap.toList_eq_nil_iff.mp hempty]
  exact ⟨hnow, by simp, by simp, by simp⟩

theorem Scene.play_runs (config : Config) (check : Scene → Bool) (good : Scene → Prop)
    (hgood : ∀ (scene : Scene) (clock : Nat), check scene = true → good { scene with clock })
    {first scene : Scene} (moves : List (Option Call))
    (hplayable : playable config check moves scene = true)
    (hrun : Relation.ReflTransGen (fun before after => good before ∧ Scene.Step config before after)
      first scene) :
    Relation.ReflTransGen (fun before after => good before ∧ Scene.Step config before after)
      first (play config moves scene) := by
  induction moves generalizing scene with
  | nil => exact hrun
  | cons move rest ih =>
      cases move with
      | none =>
          simp only [playable, Bool.and_eq_true] at hplayable
          refine ih hplayable.2 ?_
          rcases scene.proceed_step config with hsame | hstep
          · rw [hsame]
            exact hrun
          · exact hrun.tail ⟨hgood scene scene.clock hplayable.1, hstep⟩
      | some call =>
          simp only [playable, Bool.and_eq_true, decide_eq_true_eq] at hplayable
          obtain ⟨⟨hlater, hcheck⟩, hrest⟩ := hplayable
          refine ih hrest ?_
          have hticked := hrun.tail ⟨hgood scene scene.clock hcheck, .tick scene call.now hlater⟩
          exact hticked.tail ⟨hgood scene call.now hcheck,
            .submit { scene with clock := call.now } call rfl⟩

/-- A put of `note` that reads the clock at `now`. -/
def putNote (now : Nat) (parentHash contentHash : String) : Call where
  fault := none
  now := now
  nonce := Aead.zeroNonce
  userId := "user_1"
  request := .put ⟨"note", some parentHash, some contentHash, none⟩ [104]

/-- `note` is put at 1 and replaced at 6; each write takes four steps. -/
def oneReplacement : List (Option Call) :=
  [some (putNote 1 "" "a")] ++ List.replicate 4 none ++ [some (putNote 6 "a" "b")] ++
    List.replicate 4 none

theorem one_replacement_listed_in_sample :
    let scene := Scene.play sampleConfig oneReplacement (.start emptyVault)
    listHistory (scene.dir .versions "note") = ["6"] ∧ scene.ListsInOrder := by
  have hclear : ∀ (scene : Scene) (clock : Nat), scene.clear sampleConfig = true →
      Scene.InTurn sampleConfig { scene with clock } := fun scene clock hclear =>
    @Scene.inTurn_of_clear sampleConfig { scene with clock } hclear
  refine ⟨by decide +kernel, history_lists_in_order sampleConfig emptyVault ?_⟩
  exact Scene.play_runs sampleConfig _ _ hclear oneReplacement (by decide +kernel) .refl

/-- A put of `note` reads the clock at 5 and another one at 6; the later one takes
the lock first. -/
def overtaken : List (Option Call) :=
  [some (putNote 1 "" "a")] ++ List.replicate 4 none ++
    [some (putNote 5 "b" "c"), some (putNote 6 "a" "b")] ++ List.replicate 8 none

/-- What the overtaking put replaced is listed as the newest. -/
theorem replacements_listed_out_of_order_in_sample :
    ¬ ∀ (config : Config) (vault : Vault) (scene : Scene),
      Relation.ReflTransGen (Scene.Step config) (.start vault) scene → scene.ListsInOrder := by
  intro hall
  let scene := Scene.play sampleConfig overtaken (.start emptyVault)
  have hrun := Scene.play_runs sampleConfig (fun _ => true) (fun _ => True) (fun _ _ _ => trivial)
    overtaken (by decide +kernel)
    (.refl : Relation.ReflTransGen _ (.start emptyVault) (.start emptyVault))
  have hsteps : Relation.ReflTransGen (Scene.Step sampleConfig) (.start emptyVault) scene :=
    Relation.ReflTransGen.mono (fun _ _ hstep => hstep.2) _ _ hrun
  have hmoved : ((scene.moved .versions "note").map Prod.fst).reverse = ["5", "6"] := by
    decide +kernel
  have hlists := (hall sampleConfig emptyVault scene hsteps .versions "note").1
  have hsorted := pairwise_listHistory (scene.dir .versions "note")
  rw [hlists, hmoved] at hsorted
  have holder : notOlder "5" "6" = false := by decide +kernel
  rw [(List.pairwise_cons.mp hsorted).1 "6" (by simp)] at holder
  cases holder

end ObSink.Server
