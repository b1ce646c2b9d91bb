import EndpointAtlas.Proofs.Generation.Coverage
import EndpointAtlas.Proofs.OpenApi.Rekeyed
import EndpointAtlas.Proofs.RemoteUrl

set_option autoImplicit false

namespace EndpointAtlas

namespace Document

/-- The address of the repository as it stands in a document that is written out. -/
def publishedUrl? (document : Document) : Option String :=
  ((document.encode.field? "info").bind (·.field? "x-repository-url")).bind Json.text?

theorem publishedUrl?_eq (document : Document) :
    document.publishedUrl? = document.head.repositoryUrl := by
  have published : (document.encode.field? "info").bind (·.field? "x-repository-url") =
      some (.optionalText document.head.repositoryUrl) := rfl
  rw [publishedUrl?, published]
  cases document.head.repositoryUrl <;> rfl

end Document

namespace Run

open Document

variable {tree : FileTree} {root : String} {config : Config} {options : RunOptions}
  {document final : Document}

theorem head_fragments {snapshot : Snapshot} {endpoints : List Endpoint}
    (h : (fragments config options snapshot tree document endpoints).outcome = .ok final) :
    final.head = document.head := by
  cases outcome_fragments config options snapshot tree document endpoints with
  | inl refused =>
    obtain ⟨⟨message, refused⟩, -⟩ := refused
    simp [refused] at h
  | inr merges =>
    rw [merges] at h
    split at h
    · rename_i given finished
      cases h
      rw [(finish_eq_ok_iff.mp finished).2]
      exact (Draft.head_mergeAll (.of document) _).1
    · cases h

theorem head_generate (h : (generate tree root config options).outcome = .ok final) :
    final.head = headFor config options (tree.resolve root) := by
  obtain ⟨document, created, outcome⟩ := outcome_generate (starts_of_ok h)
  have head : document.head = headFor config options (tree.resolve root) := by
    obtain ⟨moment, -, rfl⟩ := Option.map_eq_some_iff.mp created
    rfl
  rw [outcome, outcome_indexed] at h
  split at h
  · cases h
  · split at h
    · cases h
      exact head
    · exact (head_fragments h).trans head

end Run

namespace RemoteUrl

/-- The address for a browser of a proper remote, and with it every document of a run that is given
this address, tells no user just if the user of the remote is one that is taken off. -/
theorem tellsNoUser_iff_losesUser {r : Remote} (proper : r.IsProper) {remote : List Char}
    (h : Text.trim remote = r.text) :
    (TellsNoUser (browsable remote) ↔ r.LosesUser) ∧
    ∀ tree root config options final, options.repositoryUrl =
      some (String.ofList (browsable remote)) →
      (Run.generate tree root config options).outcome = .ok final →
      ∃ url, final.publishedUrl? = some url ∧ (TellsNoUser url.toList ↔ r.LosesUser) := by
  have tells := tellsNoUser_browsable proper h
  refine ⟨tells, ?_⟩
  intro tree root config options final given done
  refine ⟨String.ofList (browsable remote), ?_, ?_⟩
  · rw [Document.publishedUrl?_eq, Run.head_generate done]
    exact given
  · rwa [String.toList_ofList]

def tokenRemote : Remote :=
  .web true "deploy:s3cret@git.example.test".toList "/team/service.git".toList

def mailRemote : Remote :=
  .scp "me@corp.test".toList "git.example.test".toList "team/service.git".toList

def portRemote : Remote := .ssh "git@git.example.test:22".toList "/team/service.git".toList

def tokenRun : Run :=
  Run.generate ⟨"/", [], [["proj"]]⟩ "/proj" Config.default
    { Run.plainOptions with repositoryUrl := some (String.ofList (browsable tokenRemote.text)) }

theorem tellsNoUser_iff_losesUser_token :
    tokenRemote.IsProper ∧ Text.trim tokenRemote.text = tokenRemote.text ∧
    ¬TellsNoUser (browsable tokenRemote.text) ∧
    (∃ final url, tokenRun.outcome = .ok final ∧ final.publishedUrl? = some url ∧
      ¬TellsNoUser url.toList) ∧
    mailRemote.IsProper ∧ ¬TellsNoUser (browsable mailRemote.text) ∧
    portRemote.IsProper ∧ TellsNoUser (browsable portRemote.text) := by
  have token : tokenRemote.IsProper := by simp [tokenRemote, Remote.IsProper]
  have mail : mailRemote.IsProper := by simp [mailRemote, Remote.IsProper]
  have port : portRemote.IsProper := by simp [portRemote, Remote.IsProper]
  have trimmed : Text.trim tokenRemote.text = tokenRemote.text := by decide +kernel
  have kept : ¬tokenRemote.LosesUser := by simp [tokenRemote, Remote.LosesUser]
  obtain ⟨address, published⟩ := tellsNoUser_iff_losesUser token trimmed
  refine ⟨token, trimmed, fun h => kept (address.mp h), ?_, mail, ?_, port, ?_⟩
  · have ends : tokenRun.outcome.toOption.isSome = true := by decide +kernel
    cases done : tokenRun.outcome with
    | error cause => simp [done, Except.toOption] at ends
    | ok final =>
      obtain ⟨url, there, tells⟩ := published _ _ _ _ _ rfl done
      exact ⟨final, url, rfl, there, fun h => kept (tells.mp h)⟩
  · rw [(tellsNoUser_iff_losesUser mail (by decide +kernel)).1]
    simp [mailRemote, Remote.LosesUser, isUserChar, Text.isWordChar, Text.isAsciiLetter,
      Text.isAsciiDigit]
  · rw [(tellsNoUser_iff_losesUser port (by decide +kernel)).1]
    exact ⟨by decide +kernel, by decide +kernel⟩

end RemoteUrl

end EndpointAtlas
