import Mathlib.Data.List.Basic
import Mathlib.Logic.Function.Basic
import ObSink.Lib.Prog

/-! # Programs that keep apart

Numbered programs act on one world, one operation at a time and in any order.
When one group of them keeps to its part of the world and all others to the
rest, the group goes on as if the others were not there.
-/

namespace Prog

variable {Op : Type} {Reply : Op → Type} {World α β Outside : Type}

/-! ## Operations that depend on earlier replies -/

/-- Every operation is allowed as long as the replies before it were fitting,
and so is the result. -/
def Abides (allowed : Op → Prop) (fitting : (op : Op) → Reply op → Prop) (post : α → Prop) :
    Prog Op Reply α → Prop
  | .pure value => post value
  | .act op next => allowed op ∧ ∀ reply, fitting op reply →
      Abides allowed fitting post (next reply)

section Abides

variable {allowed : Op → Prop} {fitting : (op : Op) → Reply op → Prop} {post post' : α → Prop}

@[simp] theorem abides_pure (value : α) :
    Abides allowed fitting post (Pure.pure value : Prog Op Reply α) ↔ post value :=
  Iff.rfl

@[simp] theorem abides_perform (op : Op) {post : Reply op → Prop} :
    Abides allowed fitting post (perform op : Prog Op Reply (Reply op)) ↔
      allowed op ∧ ∀ reply, fitting op reply → post reply :=
  Iff.rfl

@[simp] theorem abides_bind (prog : Prog Op Reply α) (f : α → Prog Op Reply β)
    {post : β → Prop} :
    Abides allowed fitting post (prog >>= f) ↔
      Abides allowed fitting (fun value => Abides allowed fitting post (f value)) prog := by
  induction prog with
  | pure value => exact Iff.rfl
  | act op next ih =>
      exact and_congr_right fun _ => forall_congr' fun reply => imp_congr_right fun _ => ih reply

theorem Abides.mono {prog : Prog Op Reply α} (habides : Abides allowed fitting post prog)
    (hpost : ∀ value, post value → post' value) : Abides allowed fitting post' prog := by
  induction prog with
  | pure value => exact hpost value habides
  | act op next ih =>
      exact ⟨habides.1, fun reply hreply => ih reply (habides.2 reply hreply)⟩

theorem Abides.weaken {allowed' : Op → Prop} {prog : Prog Op Reply α}
    (habides : Abides allowed fitting post prog) (hallowed : ∀ op, allowed op → allowed' op) :
    Abides allowed' fitting post prog := by
  induction prog with
  | pure value => exact habides
  | act op next ih =>
      exact ⟨hallowed op habides.1, fun reply hreply => ih reply (habides.2 reply hreply)⟩

/-- Other replies to what is allowed. -/
theorem Abides.relax {fitting' : (op : Op) → Reply op → Prop} {prog : Prog Op Reply α}
    (habides : Abides allowed fitting post prog)
    (hfitting : ∀ op, allowed op → ∀ reply, fitting' op reply → fitting op reply) :
    Abides allowed fitting' post prog := by
  induction prog with
  | pure value => exact habides
  | act op next ih =>
      exact ⟨habides.1, fun reply hreply =>
        ih reply (habides.2 reply (hfitting op habides.1 reply hreply))⟩

end Abides

end Prog

namespace Apart

variable {Op : Type} {Reply : Op → Type} {World Request α Outside : Type}

/-- What operations and outside happenings do, and the program a request starts. -/
structure System (Op : Type) (Reply : Op → Type) (World Request α Outside : Type) where
  perform : (op : Op) → World → Reply op × World
  happen : Outside → World → World
  start : Request → Prog Op Reply α

inductive Event (Request Outside : Type) where
  | arrive (id : Nat) (request : Request)
  /-- A program goes on by one operation. -/
  | step (id : Nat)
  | outside (what : Outside)

/-- The world and the programs that have started, as far as they have come. -/
structure State (Op : Type) (Reply : Op → Type) (World α : Type) where
  world : World
  progs : Nat → Option (Prog Op Reply α)

def State.idle (world : World) : State Op Reply World α := ⟨world, fun _ => none⟩

variable (system : System Op Reply World Request α Outside)

def State.next (state : State Op Reply World α) :
    Event Request Outside → State Op Reply World α
  | .arrive id request =>
      match state.progs id with
      | none => { state with progs := Function.update state.progs id (some (system.start request)) }
      | some _ => state
  | .step id =>
      match state.progs id with
      | some (.act op next) =>
          { world := (system.perform op state.world).2
            progs := Function.update state.progs id
              (some (next (system.perform op state.world).1)) }
      | _ => state
  | .outside what => { state with world := system.happen what state.world }

def run (events : List (Event Request Outside)) (state : State Op Reply World α) :
    State Op Reply World α :=
  events.foldl (State.next system) state

theorem run_append (first rest : List (Event Request Outside)) (state : State Op Reply World α) :
    run system (first ++ rest) state = run system rest (run system first state) :=
  List.foldl_append

variable {system}

/-- Every program under way. -/
def State.All (state : State Op Reply World α) (P : Nat → Prog Op Reply α → Prop) : Prop :=
  ∀ id prog, state.progs id = some prog → P id prog

theorem State.all_idle {world : World} {P : Nat → Prog Op Reply α → Prop} :
    (State.idle world : State Op Reply World α).All P := by
  intro id prog hprog
  cases hprog

theorem State.next_arrive (system : System Op Reply World Request α Outside)
    {state : State Op Reply World α} {id : Nat} (hnone : state.progs id = none)
    (request : Request) :
    state.next system (.arrive id request) =
      ⟨state.world, Function.update state.progs id (some (system.start request))⟩ := by
  simp only [State.next, hnone]

theorem State.next_step (system : System Op Reply World Request α Outside)
    {state : State Op Reply World α} {id : Nat} {op : Op} {next : Reply op → Prog Op Reply α}
    (hprog : state.progs id = some (.act op next)) :
    state.next system (.step id : Event Request Outside) =
      ⟨(system.perform op state.world).2, Function.update state.progs id
        (some (next (system.perform op state.world).1))⟩ := by
  simp only [State.next, hprog]

/-- What one event does to the world and the programs. -/
theorem State.next_cases (system : System Op Reply World Request α Outside)
    (state : State Op Reply World α) (event : Event Request Outside) :
    (∃ id request, event = .arrive id request ∧ state.progs id = none ∧
      state.next system event =
        ⟨state.world, Function.update state.progs id (some (system.start request))⟩) ∨
    (∃ id op next, event = .step id ∧ state.progs id = some (.act op next) ∧
      state.next system event = ⟨(system.perform op state.world).2, Function.update state.progs id
        (some (next (system.perform op state.world).1))⟩) ∨
    (∃ what, event = .outside what ∧
      state.next system event = ⟨system.happen what state.world, state.progs⟩) ∨
    (∃ id, (event = .step id ∨ ∃ request, event = .arrive id request) ∧
      state.next system event = state) := by
  cases event with
  | arrive id request =>
      cases hprog : state.progs id with
      | none => exact Or.inl ⟨id, request, rfl, hprog, State.next_arrive system hprog request⟩
      | some prog =>
          exact Or.inr
            (Or.inr (Or.inr ⟨id, Or.inr ⟨request, rfl⟩, by simp only [State.next, hprog]⟩))
  | step id =>
      cases hprog : state.progs id with
      | none => exact Or.inr (Or.inr (Or.inr ⟨id, Or.inl rfl, by simp only [State.next, hprog]⟩))
      | some prog =>
          cases prog with
          | pure value =>
              exact Or.inr (Or.inr (Or.inr ⟨id, Or.inl rfl, by simp only [State.next, hprog]⟩))
          | act op next =>
              exact Or.inr (Or.inl ⟨id, op, next, rfl, hprog, State.next_step system hprog⟩)
  | outside what => exact Or.inr (Or.inr (Or.inl ⟨what, rfl, rfl⟩))

/-- A new value for one program, and what holds of all others. -/
theorem State.All.update {state : State Op Reply World α} {P : Nat → Prog Op Reply α → Prop}
    (hall : state.All P) {world : World} {id : Nat} {prog : Prog Op Reply α} (hprog : P id prog) :
    (⟨world, Function.update state.progs id (some prog)⟩ : State Op Reply World α).All P := by
  intro other found hfound
  by_cases hother : other = id
  · subst hother
    simp only [Function.update_self, Option.some.injEq] at hfound
    exact hfound ▸ hprog
  · exact hall other found (by simpa only [Function.update_of_ne hother] using hfound)

/-! ## Invariants -/

/-- An invariant of the world that the operations of all programs and the
outside keep, and what it makes of replies. -/
structure Keeps (system : System Op Reply World Request α Outside) (inv : World → Prop)
    (allowed : Nat → Op → Prop) (fitting : (op : Op) → Reply op → Prop) : Prop where
  perform : ∀ id op world, inv world → allowed id op →
    inv (system.perform op world).2 ∧ fitting op (system.perform op world).1
  happen : ∀ what world, inv world → inv (system.happen what world)

/-- The programs of a state keep to what is allowed. -/
def State.Abides (allowed : Nat → Op → Prop) (fitting : (op : Op) → Reply op → Prop)
    (state : State Op Reply World α) : Prop :=
  state.All fun id prog => Prog.Abides (allowed id) fitting (fun _ => True) prog

/-- So do the programs of the requests that arrive. -/
def Arrives (system : System Op Reply World Request α Outside) (allowed : Nat → Op → Prop)
    (fitting : (op : Op) → Reply op → Prop) (events : List (Event Request Outside)) : Prop :=
  ∀ id request, .arrive id request ∈ events →
    Prog.Abides (allowed id) fitting (fun _ => True) (system.start request)

/-- What one program keeps together with the world, while the others go on. -/
theorem run_with {allowed : Nat → Op → Prop} {fitting : (op : Op) → Reply op → Prop}
    (J : Prog Op Reply α → World → Prop) (heard : Outside → Prop)
    (hothers : ∀ id op prog world, allowed id op → J prog world →
      J prog (system.perform op world).2 ∧ fitting op (system.perform op world).1)
    (houtside : ∀ what prog world, heard what → J prog world → J prog (system.happen what world))
    {id : Nat}
    (hgoes : ∀ op next world, allowed id op → J (.act op next) world →
      J (next (system.perform op world).1) (system.perform op world).2)
    (state : State Op Reply World α) (habides : state.Abides allowed fitting)
    (hprog : ∃ prog, state.progs id = some prog ∧ J prog state.world)
    {events : List (Event Request Outside)} (harrives : Arrives system allowed fitting events)
    (hheard : ∀ what, .outside what ∈ events → heard what) :
    ∃ prog, (run system events state).progs id = some prog ∧
      J prog (run system events state).world := by
  induction events generalizing state with
  | nil => exact hprog
  | cons event rest ih =>
      obtain ⟨prog, hfound, hjoint⟩ := hprog
      have hrest : Arrives system allowed fitting rest := fun other request hmem =>
        harrives other request (List.mem_cons_of_mem _ hmem)
      refine ih (state.next system event) ?_ ?_ hrest fun what hmem =>
        hheard what (List.mem_cons_of_mem _ hmem)
      all_goals rcases state.next_cases system event with ⟨other, request, hevent, hnone, hnext⟩ |
        ⟨other, op, next, -, hother, hnext⟩ | ⟨what, hevent, hnext⟩ | ⟨other, -, hnext⟩
      all_goals rw [hnext]
      -- the others
      · exact habides.update (harrives other request (hevent ▸ List.mem_cons_self))
      · obtain ⟨hallowed, hlater⟩ := habides other _ hother
        exact habides.update (hlater _ (hothers other op prog state.world hallowed hjoint).2)
      · exact habides
      · exact habides
      -- the one
      · have hne : id ≠ other := by
          rintro rfl
          rw [hnone] at hfound
          cases hfound
        exact ⟨prog, by simpa only [Function.update_of_ne hne] using hfound, hjoint⟩
      · obtain ⟨hallowed, -⟩ := habides other _ hother
        by_cases hid : id = other
        · subst hid
          rw [hother] at hfound
          obtain rfl := Option.some.inj hfound
          exact ⟨_, Function.update_self _ _ _, hgoes op next state.world hallowed hjoint⟩
        · exact ⟨prog, by simpa only [Function.update_of_ne hid] using hfound,
            (hothers other op prog state.world hallowed hjoint).1⟩
      · exact ⟨prog, hfound, houtside what prog state.world
          (hheard what (hevent ▸ List.mem_cons_self)) hjoint⟩
      · exact ⟨prog, hfound, hjoint⟩

section Keeps

variable {inv : World → Prop} {allowed : Nat → Op → Prop}
  {fitting : (op : Op) → Reply op → Prop}

theorem Keeps.next (hkeeps : Keeps system inv allowed fitting) {state : State Op Reply World α}
    (hinv : inv state.world) (habides : state.Abides allowed fitting)
    (event : Event Request Outside)
    (harrive : ∀ id request, event = .arrive id request →
      Prog.Abides (allowed id) fitting (fun _ => True) (system.start request)) :
    inv (state.next system event).world ∧ (state.next system event).Abides allowed fitting := by
  rcases state.next_cases system event with ⟨id, request, hevent, -, hnext⟩ |
    ⟨id, op, next, -, hprog, hnext⟩ | ⟨what, -, hnext⟩ | ⟨id, -, hnext⟩
  · rw [hnext]
    exact ⟨hinv, habides.update (harrive id request hevent)⟩
  · obtain ⟨hallowed, hrest⟩ := habides id _ hprog
    obtain ⟨hafter, hreply⟩ := hkeeps.perform id op state.world hinv hallowed
    rw [hnext]
    exact ⟨hafter, habides.update (hrest _ hreply)⟩
  · rw [hnext]
    exact ⟨hkeeps.happen what state.world hinv, habides⟩
  · rw [hnext]
    exact ⟨hinv, habides⟩

theorem Keeps.run (hkeeps : Keeps system inv allowed fitting) {state : State Op Reply World α}
    (hinv : inv state.world) (habides : state.Abides allowed fitting)
    {events : List (Event Request Outside)} (harrives : Arrives system allowed fitting events) :
    inv (run system events state).world ∧ (run system events state).Abides allowed fitting := by
  induction events generalizing state with
  | nil => exact ⟨hinv, habides⟩
  | cons event rest ih =>
      obtain ⟨hafter, hnext⟩ := hkeeps.next hinv habides event
        fun id request hevent => harrives id request (hevent ▸ List.mem_cons_self)
      exact ih hafter hnext fun id request hmem =>
        harrives id request (List.mem_cons_of_mem _ hmem)

/-- What one program keeps as it goes on. -/
theorem Keeps.run_one (hkeeps : Keeps system inv allowed fitting) {P : Prog Op Reply α → Prop}
    (hgoes : ∀ op next world, inv world → P (.act op next) → P (next (system.perform op world).1))
    (state : State Op Reply World α) (hinv : inv state.world)
    (habides : state.Abides allowed fitting) {id : Nat}
    (hprog : ∃ prog, state.progs id = some prog ∧ P prog)
    {events : List (Event Request Outside)} (harrives : Arrives system allowed fitting events) :
    ∃ prog, (Apart.run system events state).progs id = some prog ∧ P prog := by
  obtain ⟨prog, hfound, hholds⟩ := hprog
  let joint (prog : Prog Op Reply α) (world : World) : Prop := inv world ∧ P prog
  have hothers : ∀ other op prog world, allowed other op → joint prog world →
      joint prog (system.perform op world).2 ∧ fitting op (system.perform op world).1 := by
    rintro other op prog world hallowed ⟨hinv, hholds⟩
    obtain ⟨hafter, hreply⟩ := hkeeps.perform other op world hinv hallowed
    exact ⟨⟨hafter, hholds⟩, hreply⟩
  obtain ⟨after, hafter, -, hkept⟩ := run_with joint (fun _ => True) hothers
    (fun what prog world _ hjoint => ⟨hkeeps.happen what world hjoint.1, hjoint.2⟩)
    (fun op next world hallowed hjoint => ⟨(hkeeps.perform id op world hjoint.1 hallowed).1,
      hgoes op next world hjoint.1 hjoint.2⟩)
    state habides ⟨prog, hfound, hinv, hholds⟩ harrives fun _ _ => trivial
  exact ⟨after, hafter, hkept⟩

end Keeps

/-! ## A group of programs and the rest -/

/-- The part of the world that is for the programs of one group. -/
structure Divides (system : System Op Reply World Request α Outside) (inv : World → Prop)
    (allowed : Nat → Op → Prop) (fitting : (op : Op) → Reply op → Prop) (mine : Nat → Bool)
    (view : World → World) (seen : Outside → Bool) : Prop
    extends Keeps system inv allowed fitting where
  /-- An operation of the group is about its part alone. -/
  own : ∀ id op world, mine id = true → inv world → allowed id op →
    system.perform op (view world) = ((system.perform op world).1, view (system.perform op world).2)
  /-- An operation of another program leaves that part as it is. -/
  others : ∀ id op world, mine id = false → inv world → allowed id op →
    view (system.perform op world).2 = view world
  heeds : ∀ what world, seen what = true → inv world →
    system.happen what (view world) = view (system.happen what world)
  ignores : ∀ what world, seen what = false → inv world →
    view (system.happen what world) = view world

/-- The part of a state that is for the group. -/
def State.part (mine : Nat → Bool) (view : World → World) (state : State Op Reply World α) :
    State Op Reply World α where
  world := view state.world
  progs id := if mine id then state.progs id else none

/-- The events of the group. -/
def Event.concerns (mine : Nat → Bool) (seen : Outside → Bool) : Event Request Outside → Bool
  | .arrive id _ => mine id
  | .step id => mine id
  | .outside what => seen what

section Divides

variable {inv : World → Prop} {allowed : Nat → Op → Prop}
  {fitting : (op : Op) → Reply op → Prop} {mine : Nat → Bool} {view : World → World}
  {seen : Outside → Bool}

theorem State.part_progs_of_mine (state : State Op Reply World α) (view : World → World) {id : Nat}
    (hmine : mine id = true) : (state.part mine view).progs id = state.progs id :=
  if_pos hmine

theorem State.part_update {world : World} {progs : Nat → Option (Prog Op Reply α)} {id : Nat}
    {prog : Prog Op Reply α} (hmine : mine id = true) :
    (⟨world, Function.update progs id (some prog)⟩ : State Op Reply World α).part mine view =
      ⟨view world, Function.update
        ((⟨world, progs⟩ : State Op Reply World α).part mine view).progs id (some prog)⟩ := by
  refine congrArg (State.mk _) (funext fun other => ?_)
  by_cases hother : other = id
  · subst hother
    simp [hmine]
  · simp [Function.update_of_ne hother, State.part]

theorem State.part_update_other {world : World} {progs : Nat → Option (Prog Op Reply α)}
    {id : Nat} {prog : Prog Op Reply α} (hmine : mine id = false) :
    (⟨world, Function.update progs id (some prog)⟩ : State Op Reply World α).part mine view =
      (⟨world, progs⟩ : State Op Reply World α).part mine view := by
  refine congrArg (State.mk _) (funext fun other => ?_)
  by_cases hother : other = id
  · subst hother
    simp [hmine]
  · simp [Function.update_of_ne hother]

theorem State.part_next_mine (hdivides : Divides system inv allowed fitting mine view seen)
    {state : State Op Reply World α} (hinv : inv state.world)
    (habides : state.Abides allowed fitting) {event : Event Request Outside}
    (hconcerns : event.concerns mine seen = true) :
    (state.part mine view).next system event = (state.next system event).part mine view := by
  cases event with
  | arrive id request =>
      have hmine : mine id = true := hconcerns
      have hprogs := state.part_progs_of_mine view hmine
      cases hprog : state.progs id with
      | none =>
          rw [hprog] at hprogs
          rw [State.next_arrive system hprogs, State.next_arrive system hprog]
          exact (State.part_update hmine).symm
      | some prog =>
          rw [hprog] at hprogs
          simp only [State.next, hprogs, hprog]
  | step id =>
      have hmine : mine id = true := hconcerns
      have hprogs := state.part_progs_of_mine view hmine
      cases hprog : state.progs id with
      | none =>
          rw [hprog] at hprogs
          simp only [State.next, hprogs, hprog]
      | some prog =>
          cases prog with
          | pure value =>
              rw [hprog] at hprogs
              simp only [State.next, hprogs, hprog]
          | act op next =>
              obtain ⟨hallowed, -⟩ := habides id _ hprog
              have hperform := hdivides.own id op state.world hmine hinv hallowed
              have hworld : (state.part mine view).world = view state.world := rfl
              rw [hprog] at hprogs
              rw [State.next_step system hprogs, State.next_step system hprog, hworld, hperform]
              exact (State.part_update hmine).symm
  | outside what =>
      exact congrArg (fun world => (⟨world, _⟩ : State Op Reply World α))
        (hdivides.heeds what state.world hconcerns hinv)

theorem State.part_next_other (hdivides : Divides system inv allowed fitting mine view seen)
    {state : State Op Reply World α} (hinv : inv state.world)
    (habides : state.Abides allowed fitting) {event : Event Request Outside}
    (hconcerns : event.concerns mine seen = false) :
    (state.next system event).part mine view = state.part mine view := by
  rcases state.next_cases system event with ⟨id, request, rfl, -, hnext⟩ |
    ⟨id, op, next, rfl, hprog, hnext⟩ | ⟨what, rfl, hnext⟩ | ⟨id, -, hnext⟩
  · rw [hnext, State.part_update_other hconcerns]
  · obtain ⟨hallowed, -⟩ := habides id _ hprog
    rw [hnext, State.part_update_other hconcerns]
    exact congrArg (fun world => (⟨world, _⟩ : State Op Reply World α))
      (hdivides.others id op state.world hconcerns hinv hallowed)
  · rw [hnext]
    exact congrArg (fun world => (⟨world, _⟩ : State Op Reply World α))
      (hdivides.ignores what state.world hconcerns hinv)
  · rw [hnext]

/-- In every order of steps the group's part becomes what it becomes without
the others. -/
theorem Divides.run (hdivides : Divides system inv allowed fitting mine view seen)
    (state : State Op Reply World α) (hinv : inv state.world)
    (habides : state.Abides allowed fitting) {events : List (Event Request Outside)}
    (harrives : Arrives system allowed fitting events) :
    Apart.run system (events.filter (Event.concerns mine seen)) (state.part mine view) =
      (Apart.run system events state).part mine view := by
  induction events generalizing state with
  | nil => rfl
  | cons event rest ih =>
      obtain ⟨hafter, hnext⟩ := hdivides.toKeeps.next hinv habides event
        fun id request hevent => harrives id request (hevent ▸ List.mem_cons_self)
      have hrest := ih _ hafter hnext fun id request hmem =>
        harrives id request (List.mem_cons_of_mem _ hmem)
      cases hconcerns : event.concerns mine seen with
      | true =>
          rw [List.filter_cons_of_pos hconcerns]
          change Apart.run system _ ((state.part mine view).next system event) = _
          rw [State.part_next_mine hdivides hinv habides hconcerns]
          exact hrest
      | false =>
          rw [List.filter_cons_of_neg (by simp [hconcerns])]
          rw [← State.part_next_other hdivides hinv habides hconcerns]
          exact hrest

end Divides

end Apart
