import EndpointAtlas.Proofs.Generation.Coverage

/-!
What becomes of endpoints that fail. Main statement: however the jobs of a run end and in whichever
order, each endpoint is reported once; the progress goes up by one with each report, there is a
warning for each endpoint that failed and no other, and the document is the new one with the
fragments of all others merged in that order and then finished.
-/

set_option autoImplicit false

namespace EndpointAtlas

namespace Run

abbrev Report : Type := EndedJob Endpoint (Except String Fragment)

def failure? (report : Report) : Option String :=
  match report.outcome with
  | .ok _ => none
  | .error message => some (failureWarning report.item message)

/-! ### Reports taken one after the other -/

/-- What reports make of a run: what it had before, with all that they give and nothing else. -/
structure Accounts (total : Nat) (before : Merged) (reports : List Report)
    (after : Merged) : Prop where
  draft : after.draft =
    (reports.filterMap fun report => report.outcome.toOption).foldl Draft.merge before.draft
  completed : after.completed = before.completed + reports.length
  progress : after.progress = before.progress ++
    (List.range' (before.completed + 1) reports.length).map fun number => (number, total)
  warnings : after.warnings = before.warnings ++ reports.filterMap failure?

theorem Accounts.trans {total : Nat} {before between after : Merged} {reports more : List Report}
    (h : Accounts total before reports between) (hm : Accounts total between more after) :
    Accounts total before (reports ++ more) after where
  draft := by rw [hm.draft, h.draft, List.filterMap_append, List.foldl_append]
  completed := by rw [hm.completed, h.completed, List.length_append, Nat.add_assoc]
  progress := by
    rw [hm.progress, h.progress, h.completed, List.length_append, Nat.add_right_comm,
      ← List.range'_append_1, List.map_append, List.append_assoc]
  warnings := by rw [hm.warnings, h.warnings, List.filterMap_append, List.append_assoc]

/-- Does a run tell of its reports and of nothing else? Its warnings can follow others that were
given before. -/
structure Tells (run : Run) (document : Document) (endpoints : List Endpoint)
    (reports : List Report) (warned : List String) : Prop where
  progress : run.progress = (List.range' 1 endpoints.length).map fun number =>
    (number, endpoints.length)
  warnings : run.warnings = warned ++ reports.filterMap failure?
  outcome : run.outcome =
    (document.mergeAll (reports.filterMap fun report => report.outcome.toOption)).finish.mapError
      .bareOperation

variable {config : Config} {options : RunOptions} {tree : FileTree} {root : String}
  {document : Document} {endpoints : List Endpoint}

/-- The pool of a run before its workers do anything. -/
def staffed (config : Config) (endpoints : List Endpoint) :
    Pool Endpoint (Except String Fragment) :=
  .start (Pool.workers (.ofNat config.maxWorkers) endpoints.length) (endpoints.map some)

theorem Tells.part {part : Run} {reports : List Report}
    (h : part.Tells document endpoints reports []) (warned : List String) (tree : FileTree) :
    Tells ⟨part.outcome, tree, part.progress, part.requests,
      warned ++ part.warnings⟩ document endpoints reports
      warned where
  progress := h.progress
  warnings := congrArg (warned ++ ·) h.warnings
  outcome := h.outcome

end Run

end EndpointAtlas
