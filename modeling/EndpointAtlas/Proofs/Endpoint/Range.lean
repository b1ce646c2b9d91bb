import EndpointAtlas.Endpoint.Discover
import EndpointAtlas.Proofs.Bundle.Lines
import EndpointAtlas.Proofs.Endpoint.Union

set_option autoImplicit false

namespace EndpointAtlas

variable {source : List Char} {filePath : String} {tree : Tree} {e : Endpoint}

namespace Bundle

theorem handlerLines_of (files : FileTree) (snapshot : Snapshot) (e : Endpoint) :
    (Bundle.of files snapshot e).handlerLines =
      cut ((linesOf files e.filePath).getD []) (e.lines.first - 1) e.lines.last := by
  unfold Bundle.of
  simp only
  split <;> rfl

theorem linesOf_of_sourceOf {files : FileTree} {path text : String}
    (h : Endpoint.sourceOf files path = some text) :
    linesOf files path = some (Text.lineTexts text) := by
  unfold Endpoint.sourceOf at h
  unfold linesOf
  split at h <;> simp_all

end Bundle

namespace Endpoint

/-- A detected endpoint starts on a line of its file, ends there or on a later one, and slicing it
while the file is as it was gives the lines of that range. -/
theorem detect_range {filePath source : String} {e : Endpoint} (h : e ∈ detect filePath source) :
    1 ≤ e.lines.first ∧ e.lines.first ≤ e.lines.last ∧
      e.lines.last ≤ Text.lineCount source.toList ∧
      ∀ (files : FileTree) (snapshot : Snapshot), sourceOf files filePath = some source →
        Bundle.AreLines (Text.lineTexts source) e.lines
          (Bundle.of files snapshot e).handlerLines := by
  have hfound := (distinctFrom_sublist [] _).subset h
  obtain ⟨hfile, ⟨hfirst, hlast⟩, hordered⟩ := Detection.liesIn_of_mem_found hfound
  refine ⟨hfirst.1, hordered, hlast.2, fun files snapshot hsource => ?_⟩
  rw [Bundle.handlerLines_of, hfile, Bundle.linesOf_of_sourceOf hsource]
  exact Bundle.areLines_cut hfirst.1 hordered (by simpa using hlast.2)

/-- A controller whose only member does not read until its `catch` has a parameter. -/
def mended : String := "@Controller('/c')\nclass A \x7b\n  @Get('/x')\n  catch \x7b\n  \x7d\n\x7d\n"

theorem detect_range_mended :
    (Detection.ofSource "/proj/a.ts" mended.toList).treeSource ≠ mended.toList ∧
      ∃ e ∈ detect "/proj/a.ts" mended, e.lines = ⟨3, 5⟩ ∧
        ∀ (files : FileTree) (snapshot : Snapshot), sourceOf files "/proj/a.ts" = some mended →
          Bundle.AreLines (Text.lineTexts mended) e.lines
            (Bundle.of files snapshot e).handlerLines := by
  have h : (⟨.get, some "/c/x", "/proj/a.ts", ⟨3, 5⟩, .decorator, []⟩ : Endpoint) ∈
      detect "/proj/a.ts" mended := by decide +kernel
  exact ⟨by decide +kernel, _, h, rfl, (detect_range h).2.2.2⟩

end Endpoint

end EndpointAtlas
