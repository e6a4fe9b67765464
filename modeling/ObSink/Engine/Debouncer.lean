import ObSink.Engine.HashCache

/-! # The daemon's debouncer

`Debouncer` of `core/src/daemon.rs`: a quiet timer for each path and a window for
the batch, with a look at the file before its path is let go. Instants and durations
are numbers of one unit.
-/

namespace ObSink.Engine

/-- A pending path has the time and the stat of its last event. -/
structure Debouncer where
  quiet : Nat
  batch : Nat
  pending : Std.ExtTreeMap String (Nat × Option Stat) := ∅
  firstEvent : Option Nat := none

namespace Debouncer

def new (quiet batch : Nat) : Debouncer := { quiet, batch }

def observe (debouncer : Debouncer) (path : String) (stat : Option Stat) (now : Nat) : Debouncer :=
  { debouncer with
    firstEvent := some (debouncer.firstEvent.getD now)
    pending := debouncer.pending.insert path (now, stat) }

def isEmpty (debouncer : Debouncer) : Bool := debouncer.pending.isEmpty

/-- The last of some times. -/
def latest (items : List (String × Nat × Option Stat)) : Option Nat :=
  (items.map fun item => item.2.1).max?

/-- When to look again. -/
def nextDeadline (debouncer : Debouncer) : Option Nat :=
  debouncer.firstEvent.bind fun first =>
    (latest debouncer.pending.toList).map fun last =>
      min (first + debouncer.batch) (last + debouncer.quiet)

def takeAll (debouncer : Debouncer) : List String × Debouncer :=
  (debouncer.pending.keys, { debouncer with firstEvent := none, pending := ∅ })

/-- A path that has been quiet, and whose stat did not move. -/
def ready (debouncer : Debouncer) (now : Nat) (statNow : String → Option Stat)
    (item : String × Nat × Option Stat) : Bool :=
  debouncer.quiet ≤ now - item.2.1 ∧ statNow item.1 = item.2.2

/-- One path in the loop of `due`: one that has been quiet but whose stat moved is armed
again. -/
def rearm (debouncer : Debouncer) (now : Nat) (statNow : String → Option Stat) (path : String)
    (slot : Nat × Option Stat) : Nat × Option Stat :=
  if now - slot.1 < debouncer.quiet then slot
  else if statNow path ≠ slot.2 then (now, statNow path) else slot

def rearmed (debouncer : Debouncer) (now : Nat) (statNow : String → Option Stat) : Debouncer :=
  { debouncer with pending := debouncer.pending.map (debouncer.rearm now statNow) }

/-- The paths ready to sync, if any; `statNow` reads a path's current stat. -/
def due (debouncer : Debouncer) (now : Nat) (statNow : String → Option Stat) :
    Option (List String) × Debouncer :=
  match debouncer.firstEvent with
  | none => (none, debouncer)
  | some first =>
      if now - first ≥ debouncer.batch then
        let taken := debouncer.takeAll
        (some taken.1, taken.2)
      else
        let rearmed := debouncer.rearmed now statNow
        if debouncer.pending.toList.all (debouncer.ready now statNow) then
          let taken := rearmed.takeAll
          (some taken.1, taken.2)
        else (none, rearmed)

end Debouncer

/-! ## Calls -/

inductive DebouncerCall where
  | observe (path : String) (stat : Option Stat) (now : Nat)
  | due (now : Nat) (statNow : String → Option Stat)

namespace DebouncerCall

def time : DebouncerCall → Nat
  | .observe _ _ now | .due now _ => now

/-- An event on a path. -/
def Observes (path : String) : DebouncerCall → Prop
  | .observe observed _ _ => observed = path
  | .due _ _ => False

end DebouncerCall

namespace Debouncer

/-- What a call releases, if it does, and what it leaves. -/
def call (debouncer : Debouncer) : DebouncerCall → Option (List String) × Debouncer
  | .observe path stat now => (none, debouncer.observe path stat now)
  | .due now statNow => debouncer.due now statNow

def run (debouncer : Debouncer) (calls : List DebouncerCall) : Debouncer :=
  calls.foldl (fun debouncer call => (debouncer.call call).2) debouncer

/-- How many of some calls release a path. -/
def releases (path : String) (debouncer : Debouncer) : List DebouncerCall → Nat
  | [] => 0
  | call :: rest =>
      (if path ∈ (debouncer.call call).1.getD [] then 1 else 0) +
        releases path (debouncer.call call).2 rest

section Due

variable {debouncer : Debouncer} {now first : Nat}

/-- All or nothing: a batch is let go as a whole, at the end of its window or when every
path is ready, or it stays as a whole. -/
theorem due_cases (statNow : String → Option Stat) (hfirst : debouncer.firstEvent = some first)
    (hle : first ≤ now) :
    (debouncer.due now statNow =
        (some debouncer.pending.keys, { debouncer with firstEvent := none, pending := ∅ }) ∧
      (first + debouncer.batch ≤ now ∨
        ∀ item ∈ debouncer.pending.toList, debouncer.ready now statNow item = true)) ∨
    (debouncer.due now statNow = (none, debouncer.rearmed now statNow) ∧
      now < first + debouncer.batch ∧
      ∃ item ∈ debouncer.pending.toList, debouncer.ready now statNow item = false) := by
  unfold due
  simp only [hfirst]
  split
  next hwindow => exact Or.inl ⟨rfl, Or.inl (by omega)⟩
  next hwindow =>
    split
    next hready =>
      left
      refine ⟨?_, Or.inr (List.all_eq_true.mp hready)⟩
      simp only [takeAll, rearmed, Std.ExtTreeMap.keys_map]
    next hready =>
      right
      refine ⟨rfl, by omega, ?_⟩
      rw [List.all_eq_true] at hready
      push Not at hready
      obtain ⟨item, hmem, hitem⟩ := hready
      exact ⟨item, hmem, Bool.eq_false_iff.mpr hitem⟩

theorem due_takes_or_keeps (debouncer : Debouncer) (now : Nat) (statNow : String → Option Stat) :
    debouncer.due now statNow =
      (some debouncer.pending.keys, { debouncer with firstEvent := none, pending := ∅ }) ∨
    (debouncer.due now statNow).1 = none ∧
      ∀ path, path ∈ (debouncer.due now statNow).2.pending ↔ path ∈ debouncer.pending := by
  unfold due
  split
  next => exact Or.inr ⟨rfl, fun _ => Iff.rfl⟩
  next =>
    split
    next => exact Or.inl rfl
    next =>
      simp only
      split
      next => simp only [takeAll, rearmed, Std.ExtTreeMap.keys_map, true_or]
      next => exact Or.inr ⟨rfl, fun _ => Std.ExtTreeMap.mem_map⟩

theorem due_of_no_event (statNow : String → Option Stat) (hfirst : debouncer.firstEvent = none) :
    debouncer.due now statNow = (none, debouncer) := by
  unfold due
  rw [hfirst]

end Due

/-! ## Every path is let go once -/

theorem mem_observe {debouncer : Debouncer} {path observed : String} {stat : Option Stat}
    {now : Nat} :
    path ∈ (debouncer.observe observed stat now).pending ↔
      observed = path ∨ path ∈ debouncer.pending := by
  simp [observe, Std.ExtTreeMap.mem_insert]

/-- A call that is no event on a path lets it go, or leaves it as it is. -/
theorem call_cases (debouncer : Debouncer) {path : String} {call : DebouncerCall}
    (hother : ¬ call.Observes path) :
    (path ∈ (debouncer.call call).1.getD [] ∧ path ∈ debouncer.pending ∧
      path ∉ (debouncer.call call).2.pending) ∨
    (path ∉ (debouncer.call call).1.getD [] ∧
      (path ∈ (debouncer.call call).2.pending ↔ path ∈ debouncer.pending)) := by
  cases call with
  | observe observed stat now =>
      right
      refine ⟨List.not_mem_nil, ?_⟩
      exact mem_observe.trans (or_iff_right hother)
  | due now statNow =>
      rcases due_takes_or_keeps debouncer now statNow with htaken | ⟨hnone, hsame⟩
      · rw [Debouncer.call, htaken]
        by_cases hmem : path ∈ debouncer.pending
        · exact Or.inl ⟨Std.ExtTreeMap.mem_keys.mpr hmem, hmem, Std.ExtTreeMap.not_mem_empty⟩
        · exact Or.inr ⟨mt Std.ExtTreeMap.mem_keys.mp hmem,
            iff_of_false Std.ExtTreeMap.not_mem_empty hmem⟩
      · right
        rw [Debouncer.call, hnone]
        exact ⟨List.not_mem_nil, hsame path⟩

/-- What is not pending stays so until its next event, and nothing lets it go. -/
theorem releases_of_not_pending {path : String} {debouncer : Debouncer} {calls : List DebouncerCall}
    (hothers : ∀ call ∈ calls, ¬ call.Observes path) (hmem : path ∉ debouncer.pending) :
    releases path debouncer calls = 0 ∧ path ∉ (debouncer.run calls).pending := by
  induction calls generalizing debouncer with
  | nil => exact ⟨rfl, hmem⟩
  | cons call rest ih =>
      have hrest : ∀ call ∈ rest, ¬ call.Observes path := fun later hlater =>
        hothers later (List.mem_cons_of_mem _ hlater)
      rcases debouncer.call_cases (hothers call List.mem_cons_self) with
        ⟨_, hpending, _⟩ | ⟨hkept, hsame⟩
      · exact absurd hpending hmem
      · obtain ⟨hnever, hgone⟩ := ih hrest (mt hsame.mp hmem)
        refine ⟨?_, hgone⟩
        rw [releases, if_neg hkept, Nat.zero_add]
        exact hnever

/-- What is pending is let go by exactly one of the calls, unless it still is. -/
theorem releases_of_pending {path : String} {debouncer : Debouncer} {calls : List DebouncerCall}
    (hothers : ∀ call ∈ calls, ¬ call.Observes path) (hmem : path ∈ debouncer.pending) :
    releases path debouncer calls = if path ∈ (debouncer.run calls).pending then 0 else 1 := by
  induction calls generalizing debouncer with
  | nil => exact (if_pos hmem).symm
  | cons call rest ih =>
      have hrest : ∀ call ∈ rest, ¬ call.Observes path := fun later hlater =>
        hothers later (List.mem_cons_of_mem _ hlater)
      rcases debouncer.call_cases (hothers call List.mem_cons_self) with
        ⟨hreleased, _, hgone⟩ | ⟨hkept, hsame⟩
      · obtain ⟨hnever, hgone⟩ := releases_of_not_pending hrest hgone
        rw [releases, if_pos hreleased, hnever]
        exact (if_neg hgone).symm
      · rw [releases, if_neg hkept, Nat.zero_add]
        exact ih hrest (hsame.mpr hmem)

/-! ## What is known at a time -/

/-- The window is open when something is pending, and what is pending has the time of
its last event, or a later one. -/
structure Known (debouncer : Debouncer) (calls : List DebouncerCall) (now : Nat) : Prop where
  first : debouncer.firstEvent = none ↔ debouncer.pending = ∅
  first_le : ∀ first, debouncer.firstEvent = some first → first ≤ now
  slot : ∀ path slot, debouncer.pending[path]? = some slot →
    slot.1 ≤ now ∧ ∀ call ∈ calls, call.Observes path → call.time ≤ slot.1

theorem Known.mono {debouncer : Debouncer} {calls : List DebouncerCall} {now later : Nat}
    (hknown : Known debouncer calls now) (hle : now ≤ later) : Known debouncer calls later := by
  refine ⟨hknown.first, ?_, ?_⟩
  · intro first hfirst
    exact (hknown.first_le first hfirst).trans hle
  · intro path slot hslot
    obtain ⟨htime, hcalls⟩ := hknown.slot path slot hslot
    exact ⟨htime.trans hle, hcalls⟩

theorem rearm_bounds (debouncer : Debouncer) {now : Nat} (statNow : String → Option Stat)
    (path : String) {slot : Nat × Option Stat} (hle : slot.1 ≤ now) :
    slot.1 ≤ (debouncer.rearm now statNow path slot).1 ∧
      (debouncer.rearm now statNow path slot).1 ≤ now := by
  unfold rearm
  split
  next => exact ⟨Nat.le_refl _, hle⟩
  next =>
    split
    next => exact ⟨hle, Nat.le_refl _⟩
    next => exact ⟨Nat.le_refl _, hle⟩

theorem Known.observe {debouncer : Debouncer} {calls : List DebouncerCall} {now : Nat}
    (hknown : Known debouncer calls now) (hcalls : ∀ call ∈ calls, call.time ≤ now)
    (path : String) (stat : Option Stat) :
    Known (debouncer.observe path stat now) (calls ++ [.observe path stat now]) now := by
  refine ⟨?_, ?_, ?_⟩
  · refine iff_of_false (Option.some_ne_none _) ?_
    intro hempty
    have hmem : path ∈ (debouncer.observe path stat now).pending := mem_observe.mpr (Or.inl rfl)
    rw [hempty] at hmem
    exact Std.ExtTreeMap.not_mem_empty hmem
  · intro first hfirst
    obtain rfl := Option.some.inj hfirst
    cases hbefore : debouncer.firstEvent with
    | none => exact Nat.le_refl _
    | some before => exact hknown.first_le before hbefore
  · intro other slot hslot
    have hlast : ∀ call ∈ calls ++ [.observe path stat now], call.time ≤ now := by
      intro call hcall
      rcases List.mem_append.mp hcall with hbefore | hlast
      · exact hcalls call hbefore
      · rw [List.mem_singleton.mp hlast]
        exact Nat.le_refl _
    by_cases hsame : path = other
    · subst hsame
      simp only [Debouncer.observe, Std.ExtTreeMap.getElem?_insert_self, Option.some.injEq] at hslot
      subst hslot
      exact ⟨Nat.le_refl _, fun call hcall _ => hlast call hcall⟩
    · simp only [Debouncer.observe] at hslot
      rw [Std.ExtTreeMap.getElem?_insert_of_ne _ _ hsame] at hslot
      obtain ⟨htime, hevents⟩ := hknown.slot other slot hslot
      refine ⟨htime, ?_⟩
      intro call hcall hobserves
      rcases List.mem_append.mp hcall with hbefore | hlast
      · exact hevents call hbefore hobserves
      · rw [List.mem_singleton.mp hlast] at hobserves
        exact absurd hobserves hsame

theorem Known.due {debouncer : Debouncer} {calls : List DebouncerCall} {now : Nat}
    (hknown : Known debouncer calls now) (statNow : String → Option Stat) :
    Known (debouncer.due now statNow).2 (calls ++ [.due now statNow]) now := by
  have hcall : ∀ path slot, (∀ call ∈ calls, call.Observes path → call.time ≤ slot) →
      ∀ call ∈ calls ++ [.due now statNow], call.Observes path → call.time ≤ slot := by
    intro path slot hcalls call hcall hobserves
    rcases List.mem_append.mp hcall with hbefore | hlast
    · exact hcalls call hbefore hobserves
    · rw [List.mem_singleton.mp hlast] at hobserves
      exact hobserves.elim
  cases hfirst : debouncer.firstEvent with
  | none =>
      rw [due_of_no_event statNow hfirst]
      refine ⟨hknown.first, hknown.first_le, ?_⟩
      intro path slot hslot
      obtain ⟨htime, hcalls⟩ := hknown.slot path slot hslot
      exact ⟨htime, hcall path _ hcalls⟩
  | some first =>
      rcases due_cases statNow hfirst (hknown.first_le first hfirst) with
        ⟨hdue, _⟩ | ⟨hdue, _, _⟩
      · rw [hdue]
        refine ⟨iff_of_true rfl rfl, ?_, ?_⟩
        · intro _ hnone
          cases hnone
        · intro path slot hslot
          simp at hslot
      · rw [hdue]
        refine ⟨?_, hknown.first_le, ?_⟩
        · exact hknown.first.trans Std.ExtTreeMap.map_eq_empty_iff.symm
        · intro path slot hslot
          simp only [rearmed, Std.ExtTreeMap.getElem?_map] at hslot
          obtain ⟨before, hbefore, rfl⟩ := Option.map_eq_some_iff.mp hslot
          obtain ⟨htime, hcalls⟩ := hknown.slot path before hbefore
          obtain ⟨hlater, hle⟩ := rearm_bounds debouncer statNow path htime
          refine ⟨hle, hcall path _ ?_⟩
          intro call hmem hobserves
          exact (hcalls call hmem hobserves).trans hlater

/-- Calls whose times never go back. -/
def InOrder (calls : List DebouncerCall) : Prop :=
  calls.Pairwise fun earlier later => earlier.time ≤ later.time

theorem known_run {debouncer : Debouncer} {calls : List DebouncerCall} {now : Nat}
    (hstart : Known debouncer [] 0) (horder : InOrder calls)
    (hnow : ∀ call ∈ calls, call.time ≤ now) : Known (debouncer.run calls) calls now := by
  induction calls using List.reverseRecOn generalizing now with
  | nil => exact hstart.mono (Nat.zero_le now)
  | append_singleton before call ih =>
      obtain ⟨hbefore, _, hlast⟩ := List.pairwise_append.mp horder
      have hearlier : ∀ earlier ∈ before, earlier.time ≤ call.time := fun earlier hmem =>
        hlast earlier hmem call List.mem_cons_self
      have hknown := ih hbefore hearlier
      have hstep : Known ((debouncer.run before).call call).2 (before ++ [call]) call.time := by
        cases call with
        | observe path stat at_ => exact hknown.observe hearlier path stat
        | due at_ statNow => exact hknown.due statNow
      have hrun : debouncer.run (before ++ [call]) = ((debouncer.run before).call call).2 := by
        simp [run]
      rw [hrun]
      exact hstep.mono (hnow call (by simp))

/-! ## Deadlines -/

section Deadline

variable {debouncer : Debouncer} {now first : Nat} {statNow : String → Option Stat}

theorem latest_eq_some {items : List (String × Nat × Option Stat)} {last : Nat} :
    latest items = some last ↔
      (∃ item ∈ items, item.2.1 = last) ∧ ∀ item ∈ items, item.2.1 ≤ last := by
  rw [latest, List.max?_eq_some_iff]
  simp only [List.mem_map, forall_exists_index, and_imp, forall_apply_eq_imp_iff₂]

theorem nextDeadline_eq_some (debouncer : Debouncer) {deadline : Nat}
    (hfirst : debouncer.firstEvent = some first) :
    debouncer.nextDeadline = some deadline ↔ ∃ last, latest debouncer.pending.toList = some last ∧
      min (first + debouncer.batch) (last + debouncer.quiet) = deadline := by
  rw [nextDeadline, hfirst, Option.bind_some, Option.map_eq_some_iff]

theorem latest_rearmed {item : String × Nat × Option Stat} (hmem : item ∈ debouncer.pending.toList)
    (hbefore : ∀ item ∈ debouncer.pending.toList, item.2.1 ≤ now)
    (hquiet : debouncer.quiet ≤ now - item.2.1)
    (hmoved : debouncer.ready now statNow item = false) :
    latest (debouncer.rearmed now statNow).pending.toList = some now := by
  rw [rearmed, Std.ExtTreeMap.toList_map, latest_eq_some]
  constructor
  · refine ⟨_, List.mem_map_of_mem hmem, ?_⟩
    have hstat : statNow item.1 ≠ item.2.2 := by
      simpa [ready, hquiet] using hmoved
    simp only [rearm, Nat.not_lt.mpr hquiet, if_false, if_pos hstat]
  · intro later hlater
    obtain ⟨before, hmem, rfl⟩ := List.mem_map.mp hlater
    exact (rearm_bounds debouncer statNow before.1 (hbefore before hmem)).2

/-- At its deadline the debouncer lets the batch go, or has a later deadline that is
still within the window. -/
theorem due_at_deadline (hquiet : 0 < debouncer.quiet) (hfirst : debouncer.firstEvent = some first)
    (hle : first ≤ now) (hdeadline : debouncer.nextDeadline = some now) :
    (debouncer.due now statNow).1.isSome = true ∨
      ∃ later, (debouncer.due now statNow).2.nextDeadline = some later ∧
        now < later ∧ later ≤ first + debouncer.batch := by
  rcases due_cases statNow hfirst hle with ⟨hdue, _⟩ | ⟨hdue, hwindow, item, hmem, hmoved⟩
  · left
    rw [hdue]
    rfl
  · right
    obtain ⟨last, hlast, hmin⟩ := (debouncer.nextDeadline_eq_some hfirst).mp hdeadline
    obtain ⟨_, hbefore⟩ := latest_eq_some.mp hlast
    -- the window is still open, so every path has been quiet
    have hnow : last + debouncer.quiet = now := by omega
    have hrearmed : latest (debouncer.rearmed now statNow).pending.toList = some now := by
      apply latest_rearmed hmem _ _ hmoved
      · intro other hother
        have hother := hbefore other hother
        omega
      · have hitem := hbefore item hmem
        omega
    refine ⟨min (first + debouncer.batch) (now + debouncer.quiet), ?_, ?_, ?_⟩
    · rw [hdue]
      exact ((debouncer.rearmed now statNow).nextDeadline_eq_some hfirst).mpr ⟨now, hrearmed, rfl⟩
    · exact Nat.lt_min.mpr ⟨hwindow, Nat.lt_add_of_pos_right hquiet⟩
    · exact Nat.min_le_left _ _

end Deadline

/-! ## The debouncer as a whole -/

/-- A call of `due` at a time when an event is pending since `first`. -/
structure DueRight (debouncer : Debouncer) (calls : List DebouncerCall) (first now : Nat)
    (statNow : String → Option Stat) : Prop where
  early : now < first + debouncer.batch → (debouncer.due now statNow).1.isSome = true →
    ∀ path slot, debouncer.pending[path]? = some slot →
      slot.1 + debouncer.quiet ≤ now ∧ statNow path = slot.2 ∧
        ∀ call ∈ calls, call.Observes path → call.time ≤ slot.1
  late : first + debouncer.batch ≤ now → debouncer.due now statNow =
    (some debouncer.pending.keys, { debouncer with firstEvent := none, pending := ∅ })
  deadline : debouncer.nextDeadline = some now → (debouncer.due now statNow).1.isSome = true ∨
    ∃ later, (debouncer.due now statNow).2.nextDeadline = some later ∧
      now < later ∧ later ≤ first + debouncer.batch

theorem Known.dueRight {debouncer : Debouncer} {calls : List DebouncerCall} {first now : Nat}
    (hknown : Known debouncer calls now) (hquiet : 0 < debouncer.quiet)
    (hfirst : debouncer.firstEvent = some first) (statNow : String → Option Stat) :
    DueRight debouncer calls first now statNow := by
  have hle := hknown.first_le first hfirst
  refine ⟨?_, ?_, due_at_deadline hquiet hfirst hle⟩
  · intro hearly hreleased path slot hslot
    rcases due_cases statNow hfirst hle with ⟨_, hready⟩ | ⟨hdue, _, _⟩
    · have hready := hready.resolve_left (Nat.not_le.mpr hearly) (path, slot)
        (Std.ExtTreeMap.mem_toList_iff_getElem?_eq_some.mpr hslot)
      simp only [ready, decide_eq_true_eq] at hready
      obtain ⟨htime, hcalls⟩ := hknown.slot path slot hslot
      exact ⟨by omega, hready.2, hcalls⟩
    · rw [hdue] at hreleased
      cases hreleased
  · intro hlate
    rcases due_cases statNow hfirst hle with ⟨hdue, _⟩ | ⟨_, hwindow, _⟩
    · exact hdue
    · omega

theorem due_periods (debouncer : Debouncer) (now : Nat) (statNow : String → Option Stat) :
    (debouncer.due now statNow).2.quiet = debouncer.quiet ∧
      (debouncer.due now statNow).2.batch = debouncer.batch := by
  unfold due
  split
  next => exact ⟨rfl, rfl⟩
  next =>
    split
    next => exact ⟨rfl, rfl⟩
    next =>
      simp only
      split
      next => exact ⟨rfl, rfl⟩
      next => exact ⟨rfl, rfl⟩

theorem run_periods (debouncer : Debouncer) (calls : List DebouncerCall) :
    (debouncer.run calls).quiet = debouncer.quiet ∧
      (debouncer.run calls).batch = debouncer.batch := by
  induction calls generalizing debouncer with
  | nil => exact ⟨rfl, rfl⟩
  | cons call rest ih =>
      obtain ⟨hquiet, hbatch⟩ := ih (debouncer.call call).2
      cases call with
      | observe path stat now => exact ⟨hquiet, hbatch⟩
      | due now statNow =>
          obtain ⟨hquiet', hbatch'⟩ := debouncer.due_periods now statNow
          exact ⟨hquiet.trans hquiet', hbatch.trans hbatch'⟩

theorem known_new (quiet batch : Nat) : Known (new quiet batch) [] 0 := by
  refine ⟨iff_of_true rfl rfl, ?_, ?_⟩
  · intro _ hnone
    cases hnone
  · intro path slot hslot
    simp [new] at hslot

theorem run_append (debouncer : Debouncer) (before after : List DebouncerCall) :
    debouncer.run (before ++ after) = (debouncer.run before).run after :=
  List.foldl_append

theorem exists_time_bound (calls : List DebouncerCall) :
    ∃ now, ∀ call ∈ calls, call.time ≤ now := by
  induction calls with
  | nil => exact ⟨0, fun _ hmem => nomatch hmem⟩
  | cons call rest ih =>
      obtain ⟨now, hnow⟩ := ih
      refine ⟨max call.time now, ?_⟩
      rw [List.forall_mem_cons]
      exact ⟨Nat.le_max_left _ _, fun later hmem => (hnow later hmem).trans (Nat.le_max_right _ _)⟩

/-- After any calls whose times never go back, whatever stats are read: the window is open
exactly when something is pending; a path is let go by exactly one call after its last
event, unless it is still pending; and the next call of `due` does right, or nothing is
pending and it does nothing. -/
theorem neither_loses_nor_starves {quiet batch : Nat} (hquiet : 0 < quiet) (_hbatch : 0 < batch)
    {calls : List DebouncerCall} (horder : InOrder calls) :
    (((new quiet batch).run calls).firstEvent.isSome = true ↔
      ((new quiet batch).run calls).isEmpty = false) ∧
    (∀ before path stat time after, calls = before ++ .observe path stat time :: after →
      (∀ call ∈ after, ¬ call.Observes path) →
      releases path ((new quiet batch).run (before ++ [.observe path stat time])) after =
        if path ∈ ((new quiet batch).run calls).pending then 0 else 1) ∧
    ∀ now statNow, (∀ call ∈ calls, call.time ≤ now) →
      (((new quiet batch).run calls).firstEvent = none →
        ((new quiet batch).run calls).due now statNow = (none, (new quiet batch).run calls)) ∧
      ∀ first, ((new quiet batch).run calls).firstEvent = some first →
        DueRight ((new quiet batch).run calls) calls first now statNow := by
  refine ⟨?_, ?_, ?_⟩
  · obtain ⟨now, hnow⟩ := exists_time_bound calls
    have hknown := known_run (known_new quiet batch) horder hnow
    rw [isEmpty, Std.ExtTreeMap.isEmpty_eq_false_iff, ← hknown.first.not, Option.isSome_iff_ne_none]
  · rintro before path stat time after rfl hothers
    have hrun : (new quiet batch).run (before ++ .observe path stat time :: after) =
        ((new quiet batch).run (before ++ [.observe path stat time])).run after := by
      rw [← run_append, List.append_assoc, List.singleton_append]
    rw [hrun]
    apply releases_of_pending hothers
    rw [run_append]
    exact mem_observe.mpr (Or.inl rfl)
  · intro now statNow hnow
    have hknown := known_run (known_new quiet batch) horder hnow
    refine ⟨due_of_no_event statNow, ?_⟩
    intro first hfirst
    apply hknown.dueRight _ hfirst
    rw [(run_periods _ calls).1]
    exact hquiet

/-- A note that is edited twice, looked at while it is still being written, and let go. -/
def notes : List DebouncerCall :=
  [.observe "a" none 0, .observe "a" (some ⟨1, 0, 1⟩) 100, .due 850 fun _ => some ⟨2, 0, 9⟩,
    .due 1600 fun _ => some ⟨2, 0, 9⟩]

theorem note_is_let_go_once :
    releases "a" ((new 750 2000).run [.observe "a" none 0, .observe "a" (some ⟨1, 0, 1⟩) 100])
      [.due 850 fun _ => some ⟨2, 0, 9⟩, .due 1600 fun _ => some ⟨2, 0, 9⟩] = 1 := by
  have hnotes := neither_loses_nor_starves (show 0 < 750 by decide) (show 0 < 2000 by decide)
    (show InOrder notes by simp [InOrder, notes, DebouncerCall.time])
  have honce := hnotes.2.1 [.observe "a" none 0] "a" (some ⟨1, 0, 1⟩) 100
    [.due 850 fun _ => some ⟨2, 0, 9⟩, .due 1600 fun _ => some ⟨2, 0, 9⟩] rfl
    (by simp [DebouncerCall.Observes])
  have hgone : "a" ∉ ((new 750 2000).run notes).pending := by decide
  rwa [if_neg hgone] at honce

end Debouncer

end ObSink.Engine
