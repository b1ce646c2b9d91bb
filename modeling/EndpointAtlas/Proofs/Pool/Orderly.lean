import EndpointAtlas.Pool
import Mathlib.Data.List.Induction
import Mathlib.Data.List.Nodup
import Mathlib.Data.List.Perm.Basic

/-!
What a pool keeps to, whatever its workers and jobs do in whatever order. Main statement: every pool
that actions lead to is orderly, that is, no more jobs are in flight than there are workers, each
item's job is started and reported once and in order, and no worker waits for nothing while there is
work.
-/

set_option autoImplicit false

namespace EndpointAtlas

def PoolAction.isWork {ω : Type} : PoolAction ω → Bool
  | .take => true
  | .finish _ _ => false
  | .report => true

namespace Pool

variable {α ω : Type}

theorem perm_cons_eraseP {p : α → Bool} {xs : List α} {a : α} (h : xs.find? p = some a) :
    xs.Perm (a :: xs.eraseP p) := by
  induction xs with
  | nil => cases h
  | cons x rest ih =>
    cases hp : p x with
    | true =>
      rw [List.find?_cons_of_pos hp, Option.some.injEq] at h
      rw [List.eraseP_cons_of_pos hp, h]
    | false =>
      rw [List.find?_cons_of_neg (by simp [hp])] at h
      rw [List.eraseP_cons_of_neg (by simp [hp])]
      exact ((ih h).cons x).trans (.swap a x _)

inductive Step (pool : Pool α ω) : PoolAction ω → Pool α ω → Prop where
  | leave (free : pool.free ≠ 0) (none : pool.items[pool.next]? = none) :
      Step pool .take
        { pool with next := pool.next + 1, free := pool.free - 1, gone := pool.gone + 1 }
  | pass (free : pool.free ≠ 0) (hole : pool.items[pool.next]? = some none) :
      Step pool .take { pool with next := pool.next + 1 }
  | begin (item : α) (free : pool.free ≠ 0) (here : pool.items[pool.next]? = some (some item)) :
      Step pool .take
        { pool with
          next := pool.next + 1
          free := pool.free - 1
          running := pool.running ++ [⟨pool.next, item⟩]
          events := pool.events ++ [.started ⟨pool.next, item⟩] }
  | finish (job : Job α) (outcome : ω) (rest : List (Job α))
      (runs : pool.running.Perm (job :: rest)) :
      Step pool (.finish job.index outcome)
        { pool with running := rest, ended := pool.ended ++ [⟨job, outcome⟩] }
  | report (job : EndedJob α ω) (rest : List (EndedJob α ω)) (first : pool.ended = job :: rest) :
      Step pool .report
        { pool with free := pool.free + 1, ended := rest, events := pool.events ++ [.settled job] }

theorem step_take {pool : Pool α ω} (free : pool.free ≠ 0) : Step pool .take pool.take := by
  unfold take
  split
  · rename_i h
    exact .leave free h
  · rename_i h
    exact .pass free h
  · rename_i item h
    exact .begin item free h

theorem step_of_step? {pool later : Pool α ω} {action : PoolAction ω}
    (h : pool.step? action = some later) : Step pool action later := by
  cases action with
  | take =>
    rw [step?, Option.ite_none_left_eq_some] at h
    obtain ⟨free, h⟩ := h
    rw [← Option.some.inj h]
    exact step_take free
  | finish index outcome =>
    rw [step?, Option.map_eq_some_iff] at h
    obtain ⟨job, hf, rfl⟩ := h
    have hi : job.index = index := by simpa using List.find?_some hf
    subst hi
    exact .finish job outcome _ (perm_cons_eraseP hf)
  | report =>
    rw [step?] at h
    split at h
    · cases h
    · rename_i job rest he
      rw [← Option.some.inj h]
      exact .report job rest he

/-- The jobs that end in the course of some actions, by index, with their outcomes. -/
def finishes (actions : List (PoolAction ω)) : List (Nat × ω) :=
  actions.filterMap fun
    | .finish index outcome => some (index, outcome)
    | _ => none

/-! ### What a step keeps -/

/-- What holds of a pool with so many workers that actions have led to: where each worker and each
job is. -/
structure Consistent (width : Nat) (items : List (Option α)) (actions : List (PoolAction ω))
    (pool : Pool α ω) : Prop where
  items_eq : pool.items = items
  crew : pool.free + pool.gone + pool.running.length + pool.ended.length = width
  gone_late : pool.gone ≠ 0 → items.length ≤ pool.next
  started_eq : pool.started = jobs (items.take pool.next)
  tasks : pool.started.Perm
    (pool.running ++ pool.ended.map (·.toJob) ++ pool.settled.map (·.toJob))
  reports : (pool.settled ++ pool.ended).map (fun job => (job.index, job.outcome)) =
    finishes actions

variable {width : Nat} {items : List (Option α)} {actions : List (PoolAction ω)}
  {pool later : Pool α ω}

theorem consistent_start (width : Nat) (items : List (Option α)) :
    Consistent width items ([] : List (PoolAction ω)) (start width items) :=
  ⟨rfl, rfl, fun h => absurd rfl h, rfl, .nil, rfl⟩

theorem jobs_take_succ (items : List (Option α)) (n : Nat) :
    jobs (items.take (n + 1)) = jobs (items.take n) ++
      match items[n]? with
      | some (some item) => [⟨n, item⟩]
      | _ => [] := by
  rw [List.take_add_one, jobs, jobs, jobsFrom_append]
  refine congrArg _ ?_
  rcases h : items[n]? with _ | _ | item
  · rfl
  · rfl
  · have := (List.getElem?_eq_some_iff.1 h).1
    simp [jobsFrom, List.length_take]
    omega

theorem consistent_step {action : PoolAction ω} (h : Consistent width items actions pool)
    (hs : Step pool action later) : Consistent width items (actions ++ [action]) later := by
  obtain ⟨rfl, crew, late, hst, tasks, reports⟩ := h
  have hn := jobs_take_succ pool.items pool.next
  -- Only the start, the end and the report of a job move it to the next of the lists that `tasks`
  -- is about.
  cases hs with
  | leave free none =>
    rw [none, List.append_nil] at hn
    have hlen := List.getElem?_eq_none_iff.1 none
    exact {
      items_eq := rfl
      crew := by simp only; omega
      gone_late := fun _ => Nat.le_succ_of_le hlen
      started_eq := hst.trans hn.symm
      tasks := tasks
      reports := by simpa [finishes, settled] using reports }
  | pass free hole =>
    rw [hole, List.append_nil] at hn
    exact {
      items_eq := rfl
      crew := crew
      gone_late := fun gone => Nat.le_succ_of_le (late gone)
      started_eq := hst.trans hn.symm
      tasks := tasks
      reports := by simpa [finishes, settled] using reports }
  | begin item free here =>
    rw [here, ← hst] at hn
    exact {
      items_eq := rfl
      crew := by simp only [List.length_append, List.length_singleton]; omega
      gone_late := fun gone => Nat.le_succ_of_le (late gone)
      started_eq := by simpa [started] using hn.symm
      tasks := by
        have := tasks.append_right [(⟨pool.next, item⟩ : Job α)]
        simp only [started, settled, startedIn_started, settledIn_started,
          List.append_assoc] at this ⊢
        refine this.trans (.append_left _ ?_)
        rw [← List.append_assoc]
        exact List.perm_append_comm
      reports := by simpa [finishes, settled] using reports }
  | finish job outcome rest runs =>
    exact {
      items_eq := rfl
      crew := by
        have := runs.length_eq
        simp only [List.length_append, List.length_cons, List.length_nil] at this ⊢
        omega
      gone_late := late
      started_eq := hst
      tasks := by
        have := tasks.trans ((runs.append_right _).append_right _)
        simp only [List.map_append, List.map_cons, List.map_nil, List.append_assoc,
          List.cons_append, List.nil_append] at this ⊢
        rw [← List.append_assoc] at this ⊢
        exact this.trans List.perm_middle.symm
      reports := by
        have := congrArg (· ++ [(job.index, outcome)]) reports
        simpa [finishes, settled] using this }
  | report job rest first =>
    rw [first] at reports
    exact {
      items_eq := rfl
      crew := by
        have := congrArg List.length first
        simp only [List.length_cons] at this ⊢
        omega
      gone_late := late
      started_eq := by simpa [started] using hst
      tasks := by
        rw [first, List.map_cons] at tasks
        have := tasks.trans (List.perm_middle.append_right _)
        simp only [started, settled, startedIn_settled, settledIn_settled, List.map_append,
          List.map_singleton] at this ⊢
        rw [← List.append_assoc]
        exact this.trans (List.perm_append_singleton _ _).symm
      reports := by simpa [finishes, settled] using reports }

theorem consistent_of_after? (h : (start width items).after? actions = some pool) :
    Consistent width items actions pool := by
  induction actions using List.reverseRecOn generalizing pool with
  | nil =>
    rw [← Option.some.inj h]
    exact consistent_start width items
  | append_singleton actions action ih =>
    rw [after?, List.foldlM_append, Option.bind_eq_bind, Option.bind_eq_some_iff] at h
    obtain ⟨before, hb, hs⟩ := h
    exact consistent_step (ih hb) (step_of_step? (by simpa using hs))

/-! ### Jobs in flight -/

/-- Has the job of an item been reported? -/
def isReported (pool : Pool α ω) (index : Nat) : Bool := pool.settled.any (·.index = index)

/-- The jobs that have started and are not reported. -/
def inFlight (pool : Pool α ω) : List (Job α) :=
  pool.started.filter fun job => !pool.isReported job.index

/-- The jobs that are not reported, whether they have started or not. -/
def unsettled (pool : Pool α ω) : List (Job α) :=
  (jobs pool.items).filter fun job => !pool.isReported job.index

namespace Consistent

variable (h : Consistent width items actions pool)
include h

theorem jobs_eq : jobs items =
    pool.started ++ jobsFrom (items.take pool.next).length (items.drop pool.next) := by
  have := jobsFrom_append 0 (items.take pool.next) (items.drop pool.next)
  rw [List.take_append_drop, Nat.zero_add] at this
  rwa [h.started_eq]

theorem started_prefix : pool.started <+: jobs items := ⟨_, h.jobs_eq.symm⟩

theorem pairwise_started : pool.started.Pairwise fun earlier later => earlier.index < later.index :=
  (pairwise_jobsFrom 0 items).sublist h.started_prefix.sublist

theorem nodup_started : (pool.started.map (·.index)).Nodup :=
  List.pairwise_map.2 (h.pairwise_started.imp Nat.ne_of_lt)

theorem nodup_tasks :
    ((pool.running ++ pool.ended.map (·.toJob) ++ pool.settled.map (·.toJob)).map
      (·.index)).Nodup :=
  (h.tasks.map _).nodup_iff.1 h.nodup_started

theorem nodup_settled : (pool.settled.map (·.index)).Nodup := by
  have apart := h.nodup_tasks
  rw [List.map_append, List.nodup_append, List.map_map (l := pool.settled)] at apart
  exact apart.2.1

theorem inFlight_perm : pool.inFlight.Perm (pool.running ++ pool.ended.map (·.toJob)) := by
  have apart := h.nodup_tasks
  rw [List.map_append, List.nodup_append] at apart
  have reported : (pool.settled.map (·.toJob)).filter (fun job =>
      !pool.isReported job.index) = [] := by
    rw [List.filter_eq_nil_iff]
    intro job hj
    obtain ⟨ended, he, rfl⟩ := List.mem_map.1 hj
    simpa [isReported] using ⟨ended, he, rfl⟩
  have unreported : (pool.running ++ pool.ended.map (·.toJob)).filter
      (fun job => !pool.isReported job.index) = pool.running ++ pool.ended.map (·.toJob) := by
    rw [List.filter_eq_self]
    intro job hj
    simp only [isReported, Bool.not_eq_true', List.any_eq_false, decide_eq_true_eq]
    intro ended he
    have hm : ended.index ∈ (pool.settled.map (·.toJob)).map (·.index) :=
      List.mem_map_of_mem (List.mem_map_of_mem he)
    exact (apart.2.2 job.index (List.mem_map_of_mem hj) ended.index hm).symm
  have := h.tasks.filter fun job => !pool.isReported job.index
  rwa [List.filter_append, reported, unreported, List.append_nil] at this

theorem length_inFlight : pool.inFlight.length = pool.running.length + pool.ended.length := by
  rw [h.inFlight_perm.length_eq, List.length_append, List.length_map]

theorem unsettled_eq : pool.unsettled =
    pool.inFlight ++ jobsFrom (items.take pool.next).length (items.drop pool.next) := by
  rw [unsettled, inFlight, h.items_eq, h.jobs_eq, List.filter_append]
  congr 1
  rw [List.filter_eq_self]
  intro job hj
  simp only [isReported, Bool.not_eq_true', List.any_eq_false, decide_eq_true_eq]
  intro ended he hi
  -- A reported job has started, so its index is below that of a job that has not.
  have hs : ended.toJob ∈ pool.started :=
    h.tasks.mem_iff.2 (List.mem_append_right _ (List.mem_map_of_mem he))
  rw [h.started_eq, jobs] at hs
  have hle := le_index_of_mem hj
  obtain ⟨before, hget, hb⟩ := mem_jobsFrom.1 hs
  have hlt := (List.getElem?_eq_some_iff.1 hget).1
  omega

end Consistent

/-! ### Workers going on -/

theorem after?_append (pool : Pool α ω) (first second : List (PoolAction ω)) :
    pool.after? (first ++ second) = (pool.after? first).bind (after? · second) :=
  List.foldlM_append

theorem toDo_lt_of_step? {action : PoolAction ω} (work : action.isWork = true)
    (h : pool.step? action = some later) : later.toDo < pool.toDo := by
  cases action with
  | take =>
    rw [step?, Option.ite_none_left_eq_some] at h
    rw [← Option.some.inj h.2]
    exact pool.toDo_take_lt h.1
  | finish index outcome => cases work
  | report =>
    rcases step_of_step? h with _ | _ | _ | _ | ⟨job, rest, first⟩
    simp only [toDo, first, List.length_cons]
    omega

theorem length_le_toDo {more : List (PoolAction ω)} (work : ∀ action ∈ more, action.isWork = true)
    (h : pool.after? more = some later) : more.length ≤ pool.toDo := by
  induction more generalizing pool with
  | nil => exact Nat.zero_le _
  | cons action rest ih =>
    obtain ⟨next, hn, hr⟩ := Option.bind_eq_some_iff.1 h
    obtain ⟨hw, work⟩ := List.forall_mem_cons.1 work
    have := toDo_lt_of_step? hw hn
    have := ih work hr
    rw [List.length_cons]
    omega

theorem exists_next? (h : pool.isQuiet = false) :
    ∃ action later, pool.next? = some action ∧ action.isWork = true ∧
    pool.step? action = some later := by
  by_cases free : pool.free = 0
  · have waiting : pool.ended ≠ [] := by simpa [isQuiet, free] using h
    obtain ⟨job, rest, hj⟩ := List.exists_cons_of_ne_nil waiting
    exact ⟨.report, _, by simp [next?, free, hj], rfl, by rw [step?, hj]⟩
  · exact ⟨.take, pool.take, by simp [next?, free], rfl, by simp [step?, free]⟩

theorem finishes_append (first second : List (PoolAction ω)) :
    finishes (first ++ second) = finishes first ++ finishes second := List.filterMap_append

theorem finishes_of_isWork {more : List (PoolAction ω)}
    (work : ∀ action ∈ more, action.isWork = true) : finishes more = [] := by
  rw [finishes, List.filterMap_eq_nil_iff]
  intro action ha
  have := work action ha
  cases action <;> simp_all [PoolAction.isWork]

/-- Are the jobs of all items among those that end in the course of some actions? -/
def Released (items : List (Option α)) (actions : List (PoolAction ω)) : Prop :=
  ∀ index item, items[index]? = some (some item) → ∃ outcome, (index, outcome) ∈ finishes actions

namespace Consistent

theorem reports_of_isQuiet (h : Consistent width items actions pool) (quiet : pool.isQuiet = true) :
    pool.settled.map (fun job => (job.index, job.outcome)) = finishes actions := by
  simpa [(isQuiet_iff.1 quiet).2] using h.reports

theorem length_inFlight_of_isQuiet (h : Consistent width items actions pool)
    (quiet : pool.isQuiet = true) : pool.inFlight.length = min width pool.unsettled.length := by
  obtain ⟨free, told⟩ := isQuiet_iff.1 quiet
  have crew := h.crew
  have flight := h.length_inFlight
  rw [told, List.length_nil] at crew flight
  rw [h.unsettled_eq, List.length_append]
  by_cases gone : pool.gone = 0
  · omega
  · rw [List.drop_eq_nil_of_le (h.gone_late gone), jobsFrom, List.length_nil]
    omega

theorem isOver (h : Consistent width items actions pool) (quiet : pool.isQuiet = true)
    (all : Released items actions) : pool.isOver = true := by
  have reports := h.reports_of_isQuiet quiet
  have settled : pool.unsettled = [] := by
    rw [unsettled, List.filter_eq_nil_iff]
    intro job hj
    rw [h.items_eq, mem_jobs] at hj
    obtain ⟨outcome, ho⟩ := all job.index job.item hj
    rw [← reports, List.mem_map] at ho
    obtain ⟨ended, he, hi⟩ := ho
    simpa [isReported] using ⟨ended, he, congrArg Prod.fst hi⟩
  have flight := h.length_inFlight_of_isQuiet quiet
  rw [settled, h.length_inFlight, List.length_nil, Nat.min_zero] at flight
  exact isOver_iff.2 ⟨quiet, List.length_eq_zero_iff.1 (by omega)⟩

/-- Where every worker has gone, every item has been dealt with, provided that there were
workers. -/
theorem whole (h : Consistent width items actions pool) (staffed : 0 < width)
    (done : pool.isOver = true) :
    pool.started = jobs items ∧ (pool.settled.map (·.toJob)).Perm (jobs items) := by
  obtain ⟨quiet, idle⟩ := isOver_iff.1 done
  have told := (isQuiet_iff.1 quiet).2
  have flight := h.length_inFlight_of_isQuiet quiet
  rw [h.length_inFlight, idle, told, h.unsettled_eq, List.length_append] at flight
  simp only [List.length_nil] at flight
  have untaken : jobsFrom (items.take pool.next).length (items.drop pool.next) = [] :=
    List.length_eq_zero_iff.1 (by omega)
  have all : jobs items = pool.started := by rw [h.jobs_eq, untaken, List.append_nil]
  have tasks := h.tasks
  rw [idle, told] at tasks
  exact ⟨all.symm, all ▸ tasks.symm⟩

end Consistent

/-! ### The whole -/

/-- How a pool with so many workers stands after some actions. -/
structure Orderly (width : Nat) (items : List (Option α)) (actions : List (PoolAction ω))
    (pool : Pool α ω) : Prop where
  /-- No more jobs are in flight than there are workers. -/
  bounded : pool.inFlight.length ≤ width
  /-- Jobs start in the order of the items, -/
  rising : pool.started.Pairwise fun earlier later => earlier.index < later.index
  /-- and only for items that are no holes. -/
  own : ∀ job ∈ pool.started, items[job.index]? = some (some job.item)
  /-- A job is reported once, -/
  once : (pool.settled.map (·.index)).Nodup
  /-- and only after its start. -/
  begun : ∀ job ∈ pool.settled, job.toJob ∈ pool.started
  /-- Reports come in the order in which jobs end, each with the job's own outcome. -/
  inTurn : pool.settled.map (fun job => (job.index, job.outcome)) <+: finishes actions
  /-- While no worker can do anything, all that has ended is reported and no more jobs could be in
  flight. -/
  busy : pool.isQuiet = true →
    pool.settled.map (fun job => (job.index, job.outcome)) = finishes actions ∧
      pool.inFlight.length = min width pool.unsettled.length
  /-- However workers go on by themselves, this comes to an end, and only where none can do
  anything. -/
  halts : ∀ more later, (∀ action ∈ more, action.isWork = true) → pool.after? more = some later →
    more.length ≤ pool.toDo ∧
      (later.isQuiet = true ∨ ∃ action, action.isWork = true ∧ (later.step? action).isSome = true)
  /-- Once all jobs have ended, it comes to an end only where every worker has gone, -/
  resolves : Released items actions → ∀ more later, (∀ action ∈ more, action.isWork = true) →
    pool.after? more = some later → later.isQuiet = true → later.isOver = true
  /-- and then the job of every item has started and is reported. -/
  whole : pool.isOver = true → pool.started = jobs items ∧
    (pool.settled.map (·.toJob)).Perm (jobs items)

/-- Whatever the items and the wished number of workers are, and in whatever order jobs succeed and
fail while workers go on: the pool is orderly at every moment. -/
theorem orderly_of_after? {α ε ρ : Type} (wish : Rat) (items : List (Option α))
    (actions : List (PoolAction (Except ε ρ))) (pool : Pool α (Except ε ρ))
    (h : (start (workers (.finite wish) items.length) items).after? actions = some pool) :
    Orderly (max 1 (min wish.floor items.length)).toNat items actions pool := by
  have now := consistent_of_after? h
  exact {
    bounded := by
      have := now.crew
      rw [now.length_inFlight]
      simp only [workers] at this
      omega
    rising := now.pairwise_started
    own := fun job hj => mem_jobs.1 (now.started_prefix.subset hj)
    once := now.nodup_settled
    begun := fun job hj =>
      now.tasks.mem_iff.2 (List.mem_append_right _ (List.mem_map_of_mem hj))
    inTurn := by
      rw [← now.reports, List.map_append]
      exact List.prefix_append _ _
    busy := fun quiet => ⟨now.reports_of_isQuiet quiet, now.length_inFlight_of_isQuiet quiet⟩
    halts := by
      intro more later work hm
      refine ⟨length_le_toDo work hm, (Bool.eq_false_or_eq_true later.isQuiet).imp_right fun busy =>
        ?_⟩
      obtain ⟨action, further, -, hw, hs⟩ := exists_next? busy
      exact ⟨action, hw, by rw [hs]; rfl⟩
    resolves := by
      intro all more later work hm quiet
      have on : (start (workers (.finite wish) items.length) items).after? (actions ++ more) =
          some later := by
        rw [after?_append, h]
        exact hm
      refine (consistent_of_after? on).isOver quiet fun index item hi => ?_
      rw [finishes_append, finishes_of_isWork work, List.append_nil]
      exact all index item hi
    whole := now.whole (by simp only [workers]; omega) }

def someItems : List (Option Char) := [some 'a', none, some 'b', some 'c']

/-- How two workers can go through them: of the two jobs that start first the later one fails and
ends before the other, and both have ended before either is reported. -/
def overtaking : List (PoolAction (Except String Nat)) :=
  [.take, .take, .take, .finish 2 (.error "refused"), .finish 0 (.ok 1), .report, .take,
    .report, .take, .finish 3 (.ok 2), .report, .take]

theorem orderly_of_after?_overtaking :
    ∃ pool, (start (workers (.finite (5/2)) someItems.length) someItems).after? overtaking =
      some pool ∧
      pool.isOver = true ∧ pool.settled.map (·.index) = [2, 0, 3] ∧
      Orderly 2 someItems overtaking pool := by
  have went : ((start (workers (.finite (5/2)) someItems.length) someItems).after? overtaking).map
      (fun pool => (pool.isOver, pool.settled.map (·.index))) = some (true, [2, 0, 3]) := by
    decide +kernel
  have width : (max 1 (min (5/2 : Rat).floor someItems.length)).toNat = 2 := by decide +kernel
  obtain ⟨pool, hp, hv⟩ := Option.map_eq_some_iff.1 went
  refine ⟨pool, hp, congrArg Prod.fst hv, congrArg Prod.snd hv, ?_⟩
  have := orderly_of_after? (5/2) someItems overtaking pool hp
  rwa [width] at this

end Pool

end EndpointAtlas
