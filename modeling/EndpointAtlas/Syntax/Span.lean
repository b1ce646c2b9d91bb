import EndpointAtlas.Text.Lines

set_option autoImplicit false

namespace EndpointAtlas

/-- The stretch of a text from `start` up to but without `stop`. -/
structure Span where
  start : Nat
  stop : Nat
  ordered : start ≤ stop
  deriving DecidableEq, Repr

namespace Span

/-- The span between two offsets; an end before the start is moved to it. -/
def between (start stop : Nat) : Span := ⟨start, max start stop, Nat.le_max_left _ _⟩

def textIn (span : Span) (source : List Char) : List Char :=
  Text.slice source span.start span.stop

def firstLine (span : Span) (source : List Char) : Nat := Text.lineAt source span.start

def lastLine (span : Span) (source : List Char) : Nat := Text.lineAt source span.stop

theorem one_le_firstLine (span : Span) (source : List Char) : 1 ≤ span.firstLine source :=
  Text.one_le_lineAt _ _

theorem firstLine_le_lastLine (span : Span) (source : List Char) :
    span.firstLine source ≤ span.lastLine source :=
  Text.lineAt_mono source span.ordered

theorem lastLine_le_lineCount (span : Span) (source : List Char) :
    span.lastLine source ≤ Text.lineCount source :=
  Text.lineAt_le_lineCount _ _

def covers (outer inner : Span) : Bool := outer.start ≤ inner.start && inner.stop ≤ outer.stop

end Span

end EndpointAtlas
