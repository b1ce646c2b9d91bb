import EndpointAtlas.Proofs.Pool.Orderly

set_option autoImplicit false

namespace EndpointAtlas.Pool

variable {α ω : Type} {width : Nat} {items : List (Option α)} {actions : List (PoolAction ω)}
  {pool : Pool α ω} {outcome : Job α → ω}

/-! ### Until all wait -/

theorem next?_of_isQuiet (h : pool.isQuiet = true) : pool.next? = none := by
  obtain ⟨free, told⟩ := isQuiet_iff.1 h
  simp [next?, free, told]

theorem quietedWithin_history {bound : Nat} (h : pool.toDo ≤ bound) :
    ∃ more, (∀ action ∈ more, action.isWork = true) ∧
      pool.after? more = some (quietedWithin bound pool) ∧
      (quietedWithin bound pool).isQuiet = true := by
  induction bound generalizing pool with
  | zero =>
    have quiet : pool.isQuiet = true := by
      by_contra busy
      obtain ⟨action, later, -, work, hs⟩ := exists_next? (by simpa using busy)
      have := toDo_lt_of_step? work hs
      omega
    exact ⟨[], by simp, rfl, quiet⟩
  | succ bound ih =>
    rw [quietedWithin]
    cases quiet : pool.isQuiet with
    | true =>
      rw [next?_of_isQuiet quiet]
      exact ⟨[], by simp, rfl, quiet⟩
    | false =>
      obtain ⟨action, later, hn, work, hs⟩ := exists_next? quiet
      have fewer : later.toDo ≤ bound := by
        have := toDo_lt_of_step? work hs
        omega
      obtain ⟨more, hw, hm, hq⟩ := ih fewer
      rw [hn, Option.bind_some, hs]
      refine ⟨action :: more, List.forall_mem_cons.2 ⟨work, hw⟩, ?_, hq⟩
      rw [after?, List.foldlM_cons, hs]
      exact hm

theorem quieted_history (pool : Pool α ω) :
    ∃ more, (∀ action ∈ more, action.isWork = true) ∧ pool.after? more = some pool.quieted ∧
      pool.quieted.isQuiet = true := quietedWithin_history (Nat.le_refl _)

theorem settled_append_ended {more : List (PoolAction ω)} {later : Pool α ω}
    (work : ∀ action ∈ more, action.isWork = true) (h : pool.after? more = some later) :
    later.settled ++ later.ended = pool.settled ++ pool.ended := by
  induction more generalizing pool with
  | nil => rw [Option.some.inj h]
  | cons action rest ih =>
    obtain ⟨next, hn, hr⟩ := Option.bind_eq_some_iff.1 h
    obtain ⟨hw, work⟩ := List.forall_mem_cons.1 work
    rw [ih work hr]
    cases step_of_step? hn with
    | leave | pass => rfl
    | begin => simp [settled]
    | finish => cases hw
    | report job rest first => simp [settled, first]

/-! ### One job after the other -/

/-- A run in the middle: what has happened is a history, no worker can do anything, and what jobs
have ended with is what they were to end with. -/
structure Underway (width : Nat) (items : List (Option α)) (outcome : Job α → ω) (pool : Pool α ω) :
    Prop where
  history : ∃ actions, (start width items).after? actions = some pool
  quiet : pool.isQuiet = true
  outcomes : ∀ job ∈ pool.settled, job.outcome = outcome job.toJob

theorem settled_quieted_start (width : Nat) (items : List (Option α)) :
    (start width items : Pool α ω).quieted.settled = [] := by
  obtain ⟨more, work, hm, -⟩ := quieted_history (start width items : Pool α ω)
  exact (List.append_eq_nil_iff.1 (settled_append_ended work hm)).1

theorem underway_start (width : Nat) (items : List (Option α)) (outcome : Job α → ω) :
    Underway width items outcome (start width items).quieted := by
  obtain ⟨more, -, hm, quiet⟩ := quieted_history (start width items : Pool α ω)
  refine ⟨⟨more, hm⟩, quiet, fun job hj => ?_⟩
  rw [settled_quieted_start] at hj
  cases hj

namespace Underway

theorem consistent (h : Underway width items outcome pool) :
    ∃ actions, Consistent width items actions pool :=
  h.history.imp fun _ => consistent_of_after?

theorem ended_eq (h : Underway width items outcome pool) : pool.ended = [] :=
  (isQuiet_iff.1 h.quiet).2

theorem length_running (h : Underway width items outcome pool) :
    pool.running.length = min width pool.unsettled.length := by
  obtain ⟨actions, now⟩ := h.consistent
  have flight := now.length_inFlight
  rw [now.length_inFlight_of_isQuiet h.quiet] at flight
  rw [flight, h.ended_eq, List.length_nil, Nat.add_zero]

theorem length_unsettled (h : Underway width items outcome pool) :
    pool.unsettled.length + pool.settled.length = (jobs items).length := by
  obtain ⟨actions, now⟩ := h.consistent
  have tasks := now.tasks.length_eq
  rw [now.unsettled_eq, now.jobs_eq, List.length_append, List.length_append, now.length_inFlight]
  simp only [List.length_append, List.length_map] at tasks
  omega

theorem find?_running (h : Underway width items outcome pool) {job : Job α}
    (runs : job ∈ pool.running) : pool.running.find? (·.index = job.index) = some job := by
  obtain ⟨actions, now⟩ := h.consistent
  have apart := now.nodup_tasks
  rw [List.map_append, List.map_append, List.nodup_append, List.nodup_append] at apart
  have isSome : (pool.running.find? (·.index = job.index)).isSome = true := by
    rw [List.find?_isSome]
    exact ⟨job, runs, by simp⟩
  obtain ⟨found, hf⟩ := Option.isSome_iff_exists.1 isSome
  have hi : found.index = job.index := by simpa using List.find?_some hf
  rw [hf, List.inj_on_of_nodup_map apart.1.1 (List.mem_of_find?_eq_some hf) runs hi]

theorem finish (h : Underway width items outcome pool) {job : Job α} (runs : job ∈ pool.running) :
    ∃ later, pool.step? (.finish job.index (outcome job)) = some later ∧
      Underway width items outcome later.quieted ∧
      later.quieted.settled = pool.settled ++ [⟨job, outcome job⟩] := by
  obtain ⟨actions, history⟩ := h.history
  obtain ⟨later, hs, hl⟩ : ∃ later, pool.step? (.finish job.index (outcome job)) = some later ∧
      later.settled ++ later.ended = pool.settled ++ [⟨job, outcome job⟩] := by
    rw [step?, h.find?_running runs]
    exact ⟨_, rfl, by rw [h.ended_eq]; rfl⟩
  obtain ⟨more, work, hm, quiet⟩ := quieted_history later
  have told := (isQuiet_iff.1 quiet).2
  have settled : later.quieted.settled = pool.settled ++ [⟨job, outcome job⟩] := by
    rw [← hl, ← settled_append_ended work hm, told, List.append_nil]
  refine ⟨later, hs, ⟨⟨actions ++ (.finish job.index (outcome job) :: more), ?_⟩, quiet, ?_⟩,
    settled⟩
  · rw [after?_append, history, Option.bind_some, after?, List.foldlM_cons, hs]
    exact hm
  · rw [settled]
    intro ended he
    rcases List.mem_append.1 he with he | he
    · exact h.outcomes ended he
    · rw [List.mem_singleton.1 he]

theorem isOver_of_unsettled (h : Underway width items outcome pool) (none : pool.unsettled = []) :
    pool.isOver = true := by
  have flight := h.length_running
  rw [none, List.length_nil, Nat.min_zero, List.length_eq_zero_iff] at flight
  exact isOver_iff.2 ⟨h.quiet, flight⟩

end Underway

theorem pick?_mem {order : List Nat} {job : Job α} (h : pool.pick? order = some job) :
    job ∈ pool.running := by
  rw [pick?, Option.or_eq_some_iff] at h
  rcases h with h | ⟨-, h⟩
  · obtain ⟨index, -, hf⟩ := List.exists_of_findSome?_eq_some h
    exact List.mem_of_find?_eq_some hf
  · exact List.mem_of_mem_head? h

theorem pick?_eq_none {order : List Nat} (h : pool.pick? order = none) : pool.running = [] := by
  rw [pick?, Option.or_eq_none_iff] at h
  exact List.head?_eq_none_iff.1 h.2

theorem underway_runFrom (order : List Nat) (staffed : 0 < width) (count : Nat)
    (h : Underway width items outcome pool) :
    Underway width items outcome (runFrom order outcome count pool) ∧
      (pool.unsettled.length ≤ count → (runFrom order outcome count pool).isOver = true) := by
  -- Each job that ends is reported, which takes one off the jobs that are not.
  induction count generalizing pool with
  | zero =>
    refine ⟨h, fun few => h.isOver_of_unsettled ?_⟩
    exact List.length_eq_zero_iff.1 (Nat.le_zero.1 few)
  | succ count ih =>
    rw [runFrom]
    cases hp : pool.pick? order with
    | none =>
      refine ⟨h, fun _ => h.isOver_of_unsettled ?_⟩
      have flight := h.length_running
      rw [pick?_eq_none hp, List.length_nil] at flight
      exact List.length_eq_zero_iff.1 (by omega)
    | some job =>
      obtain ⟨later, hs, hl, settled⟩ := h.finish (pick?_mem hp)
      rw [Option.bind_some, hs]
      refine ⟨(ih hl).1, fun few => (ih hl).2 ?_⟩
      have before := h.length_unsettled
      have after := hl.length_unsettled
      rw [settled, List.length_append, List.length_singleton] at after
      omega

theorem length_jobsFrom_le (index : Nat) (items : List (Option α)) :
    (jobsFrom index items).length ≤ items.length := by
  induction items generalizing index with
  | nil => exact Nat.le_refl _
  | cons item rest ih =>
    have := ih (index + 1)
    cases item <;> simp only [jobsFrom, List.length_cons] <;> omega

theorem underway_run (staffed : 0 < width) (items : List (Option α)) (outcome : Job α → ω)
    (order : List Nat) :
    Underway width items outcome (run width items outcome order) ∧
      (run width items outcome order).isOver = true := by
  have first := underway_start width items outcome
  have all := underway_runFrom order staffed items.length first
  refine ⟨all.1, all.2 ?_⟩
  have total := first.length_unsettled
  have := length_jobsFrom_le 0 items
  rw [jobs] at total
  omega

theorem settled_run_perm (staffed : 0 < width) (items : List (Option α)) (outcome : Job α → ω)
    (order : List Nat) :
    (run width items outcome order).settled.Perm
      ((jobs items).map fun job => ⟨job, outcome job⟩) := by
  obtain ⟨run, done⟩ := underway_run staffed items outcome order
  obtain ⟨actions, now⟩ := run.consistent
  have perm := ((now.whole staffed done).2).map fun job => (⟨job, outcome job⟩ : EndedJob α ω)
  rw [List.map_map] at perm
  refine .trans (.of_eq ?_) perm
  refine (List.map_id _).symm.trans (List.map_congr_left fun job hj => ?_)
  rw [Function.comp_apply, ← run.outcomes job hj]
  rfl

theorem map_item_jobsFrom (index : Nat) (items : List α) :
    (jobsFrom index (items.map some)).map (·.item) = items := by
  induction items generalizing index with
  | nil => rfl
  | cons item rest ih => simp [jobsFrom, ih]

/-! ### Every order -/

theorem eq_of_index_eq {first second : Job α} (hf : first ∈ jobs items) (hs : second ∈ jobs items)
    (h : first.index = second.index) : first = second := by
  have same := (mem_jobs.1 hf).symm.trans (h ▸ mem_jobs.1 hs)
  cases first
  cases second
  simp_all

theorem Consistent.length_started_le (h : Consistent width items actions pool) :
    pool.started.length ≤ width + (finishes actions).length := by
  have crew := h.crew
  have tasks := h.tasks.length_eq
  have reports := congrArg List.length h.reports
  simp only [List.length_append, List.length_map] at tasks reports
  omega

theorem exists_before_finish {first rest : List (Nat × ω)} {index : Nat} {result : ω}
    (h : (start width items).after? actions = some pool)
    (ends : finishes actions = first ++ (index, result) :: rest) :
    ∃ earlier before later, finishes earlier = first ∧
    (start width items).after? earlier = some before ∧
      before.step? (.finish index result) = some later := by
  rw [finishes, List.filterMap_eq_append_iff] at ends
  obtain ⟨early, late, rfl, rfl, ends⟩ := ends
  obtain ⟨idle, action, others, rfl, none, this, -⟩ := List.filterMap_eq_cons_iff.1 ends
  rw [← List.append_assoc, after?_append, Option.bind_eq_some_iff] at h
  obtain ⟨before, hb, hs⟩ := h
  obtain ⟨later, hs, -⟩ := Option.bind_eq_some_iff.1 hs
  cases action with
  | take | report => cases this
  | finish =>
    obtain ⟨rfl, rfl⟩ := Prod.mk.inj (Option.some.inj this)
    refine ⟨early ++ idle, before, later, ?_, hb, hs⟩
    rw [finishes_append, finishes, finishes, List.filterMap_eq_nil_iff.2 none, List.append_nil]

theorem mem_take_of_settled {first rest : List (EndedJob α ω)} {job : EndedJob α ω}
    (h : (start width items).after? actions = some pool) (quiet : pool.isQuiet = true)
    (hj : pool.settled = first ++ job :: rest) :
    job.toJob ∈ (jobs items).take (width + first.length) := by
  have now := consistent_of_after? h
  have reports := now.reports_of_isQuiet quiet
  rw [hj, List.map_append, List.map_cons] at reports
  obtain ⟨earlier, before, later, count, hb, hs⟩ := exists_before_finish h reports.symm
  have past := consistent_of_after? hb
  have few := past.length_started_le
  rw [count, List.length_map] at few
  rw [step?, Option.map_eq_some_iff] at hs
  obtain ⟨ran, hf, -⟩ := hs
  have begun : ran ∈ before.started := past.tasks.mem_iff.2
    (List.mem_append_left _ (List.mem_append_left _ (List.mem_of_find?_eq_some hf)))
  have same : ran = job.toJob := by
    have reported : job.toJob ∈ pool.settled.map (·.toJob) := by
      rw [hj]
      exact List.mem_map_of_mem (List.mem_append_right _ List.mem_cons_self)
    refine eq_of_index_eq (past.started_prefix.subset begun) (now.started_prefix.subset ?_) ?_
    · exact now.tasks.mem_iff.2 (List.mem_append_right _ reported)
    · simpa using List.find?_some hf
  rw [List.prefix_iff_eq_take.1 past.started_prefix, same] at begun
  exact List.take_subset_take_left _ few begun

namespace Underway

theorem started_eq (h : Underway width items outcome pool) :
    pool.started = (jobs items).take (width + pool.settled.length) := by
  obtain ⟨actions, now⟩ := h.consistent
  have flight := h.length_running
  have total := h.length_unsettled
  have tasks := now.tasks.length_eq
  simp only [h.ended_eq, List.length_append, List.length_map, List.length_nil] at tasks
  rw [List.prefix_iff_eq_take.1 now.started_prefix, List.take_eq_take_iff]
  omega

theorem pick?_eq (h : Underway width items outcome pool) {rest : List Nat} {job : Job α}
    (begun : job ∈ pool.started) (new : job.index ∉ pool.settled.map (·.index)) :
    pool.pick? (pool.settled.map (·.index) ++ job.index :: rest) = some job := by
  obtain ⟨actions, now⟩ := h.consistent
  have tasks := now.tasks
  have apart := now.nodup_tasks
  rw [h.ended_eq, List.map_nil, List.append_nil] at tasks apart
  rw [List.map_append, List.map_map, List.nodup_append] at apart
  have runs : job ∈ pool.running := by
    refine (List.mem_append.1 (tasks.mem_iff.1 begun)).resolve_right fun hm => new ?_
    obtain ⟨ended, he, rfl⟩ := List.mem_map.1 hm
    exact List.mem_map_of_mem he
  have done : (pool.settled.map (·.index)).findSome?
      (fun index => pool.running.find? (·.index = index)) = none := by
    rw [List.findSome?_eq_none_iff]
    intro index hi
    rw [List.find?_eq_none]
    intro other ho
    simpa using apart.2.2 other.index (List.mem_map_of_mem ho) index hi
  rw [pick?, List.findSome?_append, done, Option.none_or, List.findSome?_cons, h.find?_running runs]
  rfl

end Underway

theorem settled_runFrom {final : List (EndedJob α ω)}
    (early : ∀ first job rest, final = first ++ job :: rest →
      job.toJob ∈ (jobs items).take (width + first.length) ∧ job.outcome = outcome job.toJob)
    (once : (final.map (·.index)).Nodup) (all : final.length = (jobs items).length)
    {count : Nat} {rest : List (EndedJob α ω)} (h : Underway width items outcome pool)
    (split : final = pool.settled ++ rest) (enough : rest.length ≤ count) :
    (runFrom (final.map (·.index)) outcome count pool).settled = final := by
  -- By induction on the reports that are left: the job of the next one runs by then, so it is the
  -- one that ends.
  induction count generalizing pool rest with
  | zero =>
    rw [List.length_eq_zero_iff.1 (Nat.le_zero.1 enough), List.append_nil] at split
    exact split.symm
  | succ count ih =>
    rw [runFrom]
    cases rest with
    | nil =>
      have flight := h.length_running
      have total := h.length_unsettled
      rw [List.append_nil] at split
      have idle : pool.running = [] := List.length_eq_zero_iff.1 (by rw [split] at all; omega)
      cases hp : pool.pick? (final.map (·.index)) with
      | none => exact split.symm
      | some job => exact absurd (pick?_mem hp) (by rw [idle]; exact List.not_mem_nil)
    | cons job rest =>
      obtain ⟨begun, own⟩ := early pool.settled job rest split
      rw [← h.started_eq] at begun
      have new : job.index ∉ pool.settled.map (·.index) := by
        rw [split, List.map_append, List.nodup_append] at once
        exact fun hm => once.2.2 _ hm job.index List.mem_cons_self rfl
      have next : pool.pick? (final.map (·.index)) = some job.toJob := by
        rw [split, List.map_append, List.map_cons]
        exact h.pick?_eq begun new
      obtain ⟨later, hs, hl, settled⟩ := h.finish (pick?_mem next)
      rw [next, Option.bind_some, hs]
      refine ih hl ?_ (Nat.le_of_succ_le_succ enough)
      rw [settled, split, ← own, List.append_assoc]
      rfl

theorem settled_run_of_isOver (staffed : 0 < width)
    (h : (start width items).after? actions = some pool) (done : pool.isOver = true)
    (outcomes : ∀ job ∈ pool.settled, job.outcome = outcome job.toJob) :
    (run width items outcome (pool.settled.map (·.index))).settled = pool.settled := by
  have now := consistent_of_after? h
  have quiet := (isOver_iff.1 done).1
  have whole := (now.whole staffed done).2
  have all : pool.settled.length = (jobs items).length := by
    rw [← whole.length_eq, List.length_map]
  have early : ∀ first job rest, pool.settled = first ++ job :: rest →
      job.toJob ∈ (jobs items).take (width + first.length) ∧ job.outcome = outcome job.toJob := by
    intro first job rest split
    refine ⟨mem_take_of_settled h quiet split, outcomes job ?_⟩
    rw [split]
    exact List.mem_append_right _ List.mem_cons_self
  have split : pool.settled = (start width items : Pool α ω).quieted.settled ++ pool.settled := by
    rw [settled_quieted_start]
    rfl
  refine settled_runFrom early now.nodup_settled all (underway_start width items outcome) split ?_
  rw [all]
  exact length_jobsFrom_le 0 items

end EndpointAtlas.Pool
