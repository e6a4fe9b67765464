import ObSink.Core.Rules

/-! # Batches of uploads

What `chunk_uploads` makes of a list of sizes: consecutive batches, each as long as
the two limits allow, found without an overflow in 64 bits.
-/

namespace ObSink

/-! ## The additions in 64 bits -/

/-- A sum that does not overflow. -/
def add64 (a b : Nat) : Option Nat :=
  if a + b < 2 ^ 64 then some (a + b) else none

/-- Whether the open batch closes before the next size. The sum is only formed when
the batch is not empty. -/
def full64 (index start bytes size : Nat) : Option Bool :=
  if index > start then
    (add64 bytes size).map fun sum => sum > batchByteBudget ∨ index - start ≥ batchMaxOps
  else some false

/-- `chunkFrom` with its additions in 64 bits. -/
def chunkFrom64 (index start bytes : Nat) : List Nat → Option (List (Nat × Nat))
  | [] => some (if start < index then [(start, index)] else [])
  | size :: rest =>
      (full64 index start bytes size).bind fun full =>
        if full then
          (add64 0 size).bind fun bytes =>
            (chunkFrom64 (index + 1) index bytes rest).map ((start, index) :: ·)
        else
          (add64 bytes size).bind fun bytes => chunkFrom64 (index + 1) start bytes rest

def chunkUploads64 (sizes : List Nat) : Option (List (Nat × Nat)) :=
  chunkFrom64 0 0 0 sizes

/-! ## Greedy partitions -/

/-- Consecutive ranges from one index to another, none of them empty. -/
def Tiles (start stop : Nat) : List (Nat × Nat) → Prop
  | [] => start = stop
  | range :: rest => range.1 = start ∧ range.1 < range.2 ∧ Tiles range.2 stop rest

/-- A batch within the limits; a single file may be over the budget. -/
structure Allowed (sizes : List Nat) (range : Nat × Nat) : Prop where
  ops : range.2 - range.1 ≤ batchMaxOps
  bytes : range.2 - range.1 = 1 ∨ (slice sizes range).sum ≤ batchByteBudget

/-- Batches that make up the whole list, each within the limits and none with room for
the next size. -/
structure Greedy (sizes : List Nat) (batches : List (Nat × Nat)) : Prop where
  tiles : Tiles 0 sizes.length batches
  covers : batches.flatMap (slice sizes) = sizes
  allowed : ∀ range ∈ batches, Allowed sizes range
  full : ∀ range ∈ batches, range.2 < sizes.length → ¬ Allowed sizes (range.1, range.2 + 1)

/-! ## The loop -/

/-- What the loop knows of the open batch when `index` sizes are behind. -/
structure Open (sizes : List Nat) (index start bytes : Nat) : Prop where
  start_le : start ≤ index
  bytes_eq : (slice sizes (start, index)).sum = bytes
  allowed : start < index → Allowed sizes (start, index)

section Loop

variable {sizes rest : List Nat} {index start bytes size : Nat}

theorem sum_slice_succ (hrest : sizes.drop index = size :: rest) (hstart : start ≤ index) :
    (slice sizes (start, index + 1)).sum = (slice sizes (start, index)).sum + size := by
  have hone : slice sizes (index, index + 1) = [size] := by
    simp [slice, hrest]
  rw [← slice_append sizes hstart (Nat.le_succ index), hone, List.sum_append, List.sum_singleton]

/-- A single size is always a batch. -/
theorem allowed_single : Allowed sizes (index, index + 1) := by
  constructor
  · simp [batchMaxOps]
  · exact Or.inl (Nat.add_sub_cancel_left index 1)

/-- The next size opens a batch. -/
theorem open_single (hrest : sizes.drop index = size :: rest) :
    Open sizes (index + 1) index size := by
  refine ⟨Nat.le_succ index, ?_, fun _ => allowed_single⟩
  rw [sum_slice_succ hrest (Nat.le_refl _)]
  simp [slice]

/-- The next size joins the open batch. -/
theorem Open.join (hopen : Open sizes index start bytes) (hrest : sizes.drop index = size :: rest)
    (hroom : ¬ (index > start ∧ (bytes + size > batchByteBudget ∨ index - start ≥ batchMaxOps))) :
    Open sizes (index + 1) start (bytes + size) := by
  have hsum : (slice sizes (start, index + 1)).sum = bytes + size := by
    rw [sum_slice_succ hrest hopen.start_le, hopen.bytes_eq]
  refine ⟨Nat.le_succ_of_le hopen.start_le, hsum, fun _ => ?_⟩
  rcases Nat.eq_or_lt_of_le hopen.start_le with heq | hlt
  · rw [heq]
    exact allowed_single
  · rw [not_and, not_or, Nat.not_lt, Nat.not_le] at hroom
    obtain ⟨hbytes, hops⟩ := hroom hlt
    constructor
    · simp only
      omega
    · right
      rw [hsum]
      exact hbytes

/-- An open batch that closes has no room for the next size. -/
theorem Open.no_room (hopen : Open sizes index start bytes)
    (hrest : sizes.drop index = size :: rest)
    (hlt : index > start) (hfull : bytes + size > batchByteBudget ∨ index - start ≥ batchMaxOps) :
    ¬ Allowed sizes (start, index + 1) := by
  intro hallowed
  have hops := hallowed.ops
  have hbytes := hallowed.bytes
  rw [sum_slice_succ hrest hopen.start_le, hopen.bytes_eq] at hbytes
  simp only at hops hbytes
  omega

theorem drop_succ (hrest : sizes.drop index = size :: rest) : sizes.drop (index + 1) = rest := by
  rw [← List.drop_drop, hrest]
  rfl

theorem lt_length (hrest : sizes.drop index = size :: rest) : index < sizes.length := by
  rw [← Nat.not_le, ← List.drop_eq_nil_iff, hrest]
  exact List.cons_ne_nil size rest

theorem chunkFrom_tiles (hrest : sizes.drop index = rest) (hindex : index ≤ sizes.length)
    (hstart : start ≤ index) : Tiles start sizes.length (chunkFrom index start bytes rest) := by
  induction rest generalizing index start bytes with
  | nil =>
      have hend : index = sizes.length := Nat.le_antisymm hindex (List.drop_eq_nil_iff.mp hrest)
      unfold chunkFrom
      split
      next hlt => exact ⟨rfl, hlt, hend⟩
      next hnot => exact (Nat.le_antisymm hstart (Nat.not_lt.mp hnot)).trans hend
  | cons size rest ih =>
      unfold chunkFrom
      split
      next hfull => exact ⟨rfl, hfull.1, ih (drop_succ hrest) (lt_length hrest) (Nat.le_succ _)⟩
      next => exact ih (drop_succ hrest) (lt_length hrest) (Nat.le_succ_of_le hstart)

theorem chunkFrom_allowed (hrest : sizes.drop index = rest) (hopen : Open sizes index start bytes)
    {range : Nat × Nat} (hmem : range ∈ chunkFrom index start bytes rest) :
    Allowed sizes range := by
  induction rest generalizing index start bytes with
  | nil =>
      unfold chunkFrom at hmem
      split at hmem
      next hlt =>
        rw [List.mem_singleton.mp hmem]
        exact hopen.allowed hlt
      next => cases hmem
  | cons size rest ih =>
      unfold chunkFrom at hmem
      split at hmem
      next hfull =>
        rcases List.mem_cons.mp hmem with rfl | hlater
        · exact hopen.allowed hfull.1
        · exact ih (drop_succ hrest) (open_single hrest) hlater
      next hroom => exact ih (drop_succ hrest) (hopen.join hrest hroom) hmem

theorem chunkFrom_full (hrest : sizes.drop index = rest) (hopen : Open sizes index start bytes)
    {range : Nat × Nat} (hmem : range ∈ chunkFrom index start bytes rest)
    (hmore : range.2 < sizes.length) : ¬ Allowed sizes (range.1, range.2 + 1) := by
  induction rest generalizing index start bytes with
  | nil =>
      have hend := List.drop_eq_nil_iff.mp hrest
      unfold chunkFrom at hmem
      split at hmem
      next =>
        rw [List.mem_singleton.mp hmem] at hmore
        exact absurd hmore (Nat.not_lt.mpr hend)
      next => cases hmem
  | cons size rest ih =>
      unfold chunkFrom at hmem
      split at hmem
      next hfull =>
        rcases List.mem_cons.mp hmem with rfl | hlater
        · exact hopen.no_room hrest hfull.1 hfull.2
        · exact ih (drop_succ hrest) (open_single hrest) hlater
      next hroom => exact ih (drop_succ hrest) (hopen.join hrest hroom) hmem

/-! ## No overflow -/

theorem add64_eq {a b : Nat} (hlt : a + b < 2 ^ 64) : add64 a b = some (a + b) :=
  if_pos hlt

/-- The open batch is a single file, or within the budget. -/
theorem Open.bytes_lt (hopen : Open sizes index start bytes)
    (hsizes : ∀ size ∈ sizes, size < 2 ^ 63) :
    bytes < 2 ^ 63 := by
  rcases Nat.eq_or_lt_of_le hopen.start_le with rfl | hlt
  · rw [← hopen.bytes_eq]
    simp [slice]
  · rcases (hopen.allowed hlt).bytes with hone | hbudget
    · have hsingle : (slice sizes (start, index)).length ≤ 1 := by
        simp only [slice, List.length_take]
        omega
      have hmem : ∀ size ∈ slice sizes (start, index), size ∈ sizes := fun size hsize =>
        List.mem_of_mem_drop (List.mem_of_mem_take hsize)
      rw [← hopen.bytes_eq]
      cases hslice : slice sizes (start, index) with
      | nil => simp
      | cons only others =>
          have hlast : others = [] := by simpa [hslice] using hsingle
          rw [hlast, List.sum_singleton]
          exact hsizes only (hmem only (by simp [hslice]))
    · rw [hopen.bytes_eq] at hbudget
      exact Nat.lt_of_le_of_lt hbudget (by decide)

theorem full64_eq (hlt : bytes + size < 2 ^ 64) :
    full64 index start bytes size =
      some (decide (index > start ∧
        (bytes + size > batchByteBudget ∨ index - start ≥ batchMaxOps))) := by
  unfold full64
  split
  next hafter => simp [add64_eq hlt, hafter]
  next hnot => simp [hnot]

theorem chunkFrom64_eq (hsizes : ∀ size ∈ sizes, size < 2 ^ 63) (hrest : sizes.drop index = rest)
    (hopen : Open sizes index start bytes) :
    chunkFrom64 index start bytes rest = some (chunkFrom index start bytes rest) := by
  induction rest generalizing index start bytes with
  | nil => rfl
  | cons size rest ih =>
      have hsize : size < 2 ^ 63 := by
        apply hsizes
        apply List.mem_of_mem_drop (i := index)
        rw [hrest]
        exact List.mem_cons_self
      have hsum : bytes + size < 2 ^ 64 := by
        have hbytes := hopen.bytes_lt hsizes
        omega
      rw [chunkFrom64, full64_eq hsum, Option.bind_some]
      unfold chunkFrom
      split
      next hfull =>
        rw [if_pos (of_decide_eq_true hfull), add64_eq (by omega), Option.bind_some, Nat.zero_add,
          ih (drop_succ hrest) (open_single hrest), Option.map_some]
      next hroom =>
        have hroom := mt decide_eq_true hroom
        rw [if_neg hroom, add64_eq hsum, Option.bind_some,
          ih (drop_succ hrest) (hopen.join hrest hroom)]

end Loop

theorem open_start (sizes : List Nat) : Open sizes 0 0 0 :=
  ⟨Nat.le_refl 0, by simp [slice], fun hlt => absurd hlt (Nat.lt_irrefl 0)⟩

/-- Batches are a greedy partition of the uploads, found without an overflow. -/
theorem chunkUploads_greedy (sizes : List Nat) (hsizes : ∀ size ∈ sizes, size < 2 ^ 63) :
    Greedy sizes (chunkUploads sizes) ∧ chunkUploads64 sizes = some (chunkUploads sizes) := by
  have hopen := open_start sizes
  refine ⟨⟨?_, ?_, ?_, ?_⟩, ?_⟩
  · exact chunkFrom_tiles rfl (Nat.zero_le _) (Nat.le_refl _)
  · have hcovers := chunkUploads_flatMap sizes id
    rwa [List.map_id] at hcovers
  · intro range hmem
    exact chunkFrom_allowed rfl hopen hmem
  · intro range hmem hmore
    exact chunkFrom_full rfl hopen hmem hmore
  · exact chunkFrom64_eq hsizes rfl hopen

theorem chunkUploads_greedy_oversize :
    Greedy [1, batchByteBudget + 1, 1] [(0, 1), (1, 2), (2, 3)] ∧
      chunkUploads64 [1, batchByteBudget + 1, 1] = some [(0, 1), (1, 2), (2, 3)] :=
  chunkUploads_greedy [1, batchByteBudget + 1, 1] (by decide)

end ObSink
