import EndpointAtlas.Number.Basic

/-!
A pool of workers that go through one list of items. Each worker takes the next index, passes over a
hole, starts the job of an item, waits until it ends, reports how it ended, and takes the next index
again, until no index is left. What a worker is about to do is all that tells it from the others, so
a pool counts them. Main statements: which jobs a list of items has, and what there is to do before
a pool waits for its jobs.
-/

set_option autoImplicit false

namespace EndpointAtlas

structure Job (α : Type) where
  index : Nat
  item : α
  deriving DecidableEq, Repr

structure EndedJob (α ω : Type) extends Job α where
  outcome : ω
  deriving DecidableEq, Repr

/-- What others see of a pool: jobs start, and ended jobs are reported. -/
inductive PoolEvent (α ω : Type) where
  | started (job : Job α)
  | settled (job : EndedJob α ω)
  deriving DecidableEq, Repr

/-- What moves a pool on: a free worker takes the next index, a running job ends, or the worker of
the job that ended first reports it. -/
inductive PoolAction (ω : Type) where
  | take
  | finish (index : Nat) (outcome : ω)
  | report
  deriving DecidableEq, Repr

structure Pool (α ω : Type) where
  items : List (Option α)
  next : Nat
  /-- how many workers are about to take an index -/
  free : Nat
  /-- how many workers have found no index left -/
  gone : Nat
  running : List (Job α)
  /-- the jobs that have ended and are not reported, in the order in which they ended -/
  ended : List (EndedJob α ω)
  events : List (PoolEvent α ω)
  deriving DecidableEq, Repr

namespace Pool

variable {α ω : Type}

/-- How many workers there are for a wished number and so many items: at least one, and no more than
items. -/
def workers (wished : Number) (items : Nat) : Nat :=
  match wished with
  | .finite q => (max 1 (min q.floor items)).toNat
  | .infinite negative => if negative then 1 else max 1 items
  | .notANumber => 0

def jobsFrom (index : Nat) : List (Option α) → List (Job α)
  | [] => []
  | none :: rest => jobsFrom (index + 1) rest
  | some item :: rest => ⟨index, item⟩ :: jobsFrom (index + 1) rest

def jobs (items : List (Option α)) : List (Job α) := jobsFrom 0 items

def start (workers : Nat) (items : List (Option α)) : Pool α ω := ⟨items, 0, workers, 0, [], [], []⟩

def take (pool : Pool α ω) : Pool α ω :=
  match pool.items[pool.next]? with
  | none => { pool with next := pool.next + 1, free := pool.free - 1, gone := pool.gone + 1 }
  | some none => { pool with next := pool.next + 1 }
  | some (some item) =>
    { pool with
      next := pool.next + 1
      free := pool.free - 1
      running := pool.running ++ [⟨pool.next, item⟩]
      events := pool.events ++ [.started ⟨pool.next, item⟩] }

def step? (pool : Pool α ω) : PoolAction ω → Option (Pool α ω)
  | .take => if pool.free = 0 then none else some pool.take
  | .finish index outcome =>
    (pool.running.find? (·.index = index)).map fun job =>
      { pool with
        running := pool.running.eraseP (·.index = index)
        ended := pool.ended ++ [⟨job, outcome⟩] }
  | .report =>
    match pool.ended with
    | [] => none
    | job :: rest =>
      some { pool with
          free := pool.free + 1, ended := rest, events := pool.events ++ [.settled job] }

def after? (pool : Pool α ω) (actions : List (PoolAction ω)) : Option (Pool α ω) :=
  actions.foldlM step? pool

def startedIn (events : List (PoolEvent α ω)) : List (Job α) :=
  events.filterMap fun
    | .started job => some job
    | .settled _ => none

def settledIn (events : List (PoolEvent α ω)) : List (EndedJob α ω) :=
  events.filterMap fun
    | .started _ => none
    | .settled job => some job

def started (pool : Pool α ω) : List (Job α) := startedIn pool.events

def settled (pool : Pool α ω) : List (EndedJob α ω) := settledIn pool.events

/-- Does every worker wait for its job, or has it gone? -/
def isQuiet (pool : Pool α ω) : Bool := pool.free = 0 && pool.ended.isEmpty

def isOver (pool : Pool α ω) : Bool := pool.isQuiet && pool.running.isEmpty

def next? (pool : Pool α ω) : Option (PoolAction ω) :=
  if pool.free ≠ 0 then some .take
  else if pool.ended.isEmpty then none
  else some .report

def toDo (pool : Pool α ω) : Nat :=
  (pool.items.length - pool.next) + pool.free + 2 * pool.ended.length

def quietedWithin : Nat → Pool α ω → Pool α ω
  | 0, pool => pool
  | bound + 1, pool =>
    match pool.next?.bind pool.step? with
    | some later => quietedWithin bound later
    | none => pool

def quieted (pool : Pool α ω) : Pool α ω := quietedWithin pool.toDo pool

def pick? (order : List Nat) (pool : Pool α ω) : Option (Job α) :=
  (order.findSome? fun index => pool.running.find? (·.index = index)).or pool.running.head?

def runFrom (order : List Nat) (outcome : Job α → ω) : Nat → Pool α ω → Pool α ω
  | 0, pool => pool
  | count + 1, pool =>
    match (pool.pick? order).bind fun job => pool.step? (.finish job.index (outcome job)) with
    | some later => runFrom order outcome count later.quieted
    | none => pool

def run (workers : Nat) (items : List (Option α)) (outcome : Job α → ω) (order : List Nat) :
    Pool α ω := runFrom order outcome items.length (start workers items).quieted

def peak (workers : Nat) (items : List (Option α)) : Nat :=
  ((start workers items : Pool α Unit).quieted).running.length

theorem isQuiet_iff {pool : Pool α ω} : pool.isQuiet = true ↔ pool.free = 0 ∧ pool.ended = [] := by
  simp [isQuiet]

theorem isOver_iff {pool : Pool α ω} :
    pool.isOver = true ↔ pool.isQuiet = true ∧ pool.running = [] := by
  simp [isOver]

section
variable (events : List (PoolEvent α ω))

@[simp] theorem startedIn_started (job : Job α) :
    startedIn (events ++ [.started job]) = startedIn events ++ [job] := List.filterMap_append

@[simp] theorem startedIn_settled (job : EndedJob α ω) :
    startedIn (events ++ [.settled job]) = startedIn events := by simp [startedIn]

@[simp] theorem settledIn_started (job : Job α) :
    settledIn (events ++ [.started job]) = settledIn events := by simp [settledIn]

@[simp] theorem settledIn_settled (job : EndedJob α ω) :
    settledIn (events ++ [.settled job]) = settledIn events ++ [job] := List.filterMap_append

end

/-! ### Jobs -/

theorem jobsFrom_append (index : Nat) (first second : List (Option α)) :
    jobsFrom index (first ++ second) =
      jobsFrom index first ++ jobsFrom (index + first.length) second := by
  induction first generalizing index with
  | nil => rfl
  | cons item rest ih =>
    have hi : index + 1 + rest.length = index + (rest.length + 1) := by omega
    cases item <;> simp [jobsFrom, ih, hi]

theorem le_index_of_mem {index : Nat} {items : List (Option α)} {job : Job α}
    (h : job ∈ jobsFrom index items) : index ≤ job.index := by
  induction items generalizing index with
  | nil => cases h
  | cons item rest ih =>
    cases item with
    | none => exact Nat.le_of_succ_le (ih h)
    | some item =>
      rcases List.mem_cons.1 h with rfl | h
      · exact Nat.le_refl _
      · exact Nat.le_of_succ_le (ih h)

theorem mem_jobsFrom {index : Nat} {items : List (Option α)} {job : Job α} :
    job ∈ jobsFrom index items ↔
      ∃ before, items[before]? = some (some job.item) ∧ job.index = index + before := by
  induction items generalizing index with
  | nil => simp [jobsFrom]
  | cons item rest ih =>
    have later : job ∈ jobsFrom (index + 1) rest ↔
        ∃ before, (item :: rest)[before + 1]? = some (some job.item) ∧
          job.index = index + (before + 1) := by
      rw [ih]
      simp only [List.getElem?_cons_succ, Nat.add_assoc, Nat.add_comm 1]
    cases item with
    | none =>
      rw [jobsFrom, later]
      constructor
      · rintro ⟨before, h⟩
        exact ⟨before + 1, h⟩
      · rintro ⟨_ | before, h⟩
        · simp at h
        · exact ⟨before, h⟩
    | some item =>
      rw [jobsFrom, List.mem_cons, later]
      constructor
      · rintro (rfl | ⟨before, h⟩)
        · exact ⟨0, rfl, rfl⟩
        · exact ⟨before + 1, h⟩
      · rintro ⟨_ | before, h⟩
        · simp only [List.getElem?_cons_zero, Option.some.injEq, Nat.add_zero] at h
          obtain ⟨rfl, hi⟩ := h
          exact .inl (by rw [← hi])
        · exact .inr ⟨before, h⟩

theorem mem_jobs {items : List (Option α)} {job : Job α} :
    job ∈ jobs items ↔ items[job.index]? = some (some job.item) := by
  rw [jobs, mem_jobsFrom]
  constructor
  · rintro ⟨before, h, hi⟩
    rwa [hi, Nat.zero_add]
  · intro h
    exact ⟨job.index, h, (Nat.zero_add _).symm⟩

theorem pairwise_jobsFrom (index : Nat) (items : List (Option α)) :
    (jobsFrom index items).Pairwise fun earlier later => earlier.index < later.index := by
  induction items generalizing index with
  | nil => exact .nil
  | cons item rest ih =>
    cases item with
    | none => exact ih _
    | some item => exact .cons (fun later h => le_index_of_mem h) (ih _)

theorem toDo_take_lt (pool : Pool α ω) (h : pool.free ≠ 0) : pool.take.toDo < pool.toDo := by
  unfold take toDo
  split
  · simp only
    omega
  · rename_i hi
    have := (List.getElem?_eq_some_iff.1 hi).1
    simp only
    omega
  · rename_i hi
    have := (List.getElem?_eq_some_iff.1 hi).1
    simp only
    omega

end Pool

end EndpointAtlas
