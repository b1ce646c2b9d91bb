import EndpointAtlas.Yaml.Scalar

/-!
Reading YAML: one document of block and flow collections, with anchors and tags. Keys of one
collection differ, keys without a question mark stand on one line, and no tab indents a block.
-/

set_option autoImplicit false

namespace EndpointAtlas.Yaml

/-- A place in a text: its column, what follows, the nodes that have been given names so far, and
what the handles of tags stand for. -/
structure Spot where
  column : Nat
  rest : List Char
  anchors : List (List Char × Setting)
  handles : List (List Char × List Char)

abbrev Reading := StateT Spot Option

namespace Reading

def pass (count : Nat) : Reading Unit := fun s =>
  let column :=
    (s.rest.take count).foldl (fun column c => if c = '\n' then 0 else column + 1) s.column
  some ((), { s with column := column, rest := s.rest.drop count })

def rest : Reading (List Char) := fun s => some (s.rest, s)

def column : Reading Nat := fun s => some (s.column, s)

def check (test : Bool) : Reading Unit := if test then pure () else failure

def given {α : Type} (value : Option α) : Reading α := fun s => value.map fun a => (a, s)

end Reading

open EndpointAtlas.Yaml.Reading

/-- What stands between two tokens: whether a line ends there, how many spaces the last line starts
with, and whether a tab stands on it. -/
structure Gap where
  crossed : Bool
  indent : Nat
  tab : Bool

def scanGap (comment spaced : Bool) (gap : Gap) : List Char → Nat × Gap
  | [] => (0, gap)
  | c :: more =>
    let next (comment spaced : Bool) (gap : Gap) : Nat × Gap :=
      let (count, found) := scanGap comment spaced gap more
      (count + 1, found)
    if c = '\n' then next false true ⟨true, 0, false⟩
    else if comment then next true spaced gap
    else if c = ' ' then next false true (if gap.tab then
      gap else { gap with indent := gap.indent + 1 })
    else if c = '\t' then next false true { gap with tab := true }
    else if c = '#' ∧ spaced then next true spaced gap
    else (0, gap)

def gap : Reading Gap := do
  let (count, found) := scanGap false ((← column) = 0) ⟨false, 0, false⟩ (← rest)
  pass count
  pure found

def atMarker (line : List Char) : Bool :=
  let start := line.take 3
  (start = "---".toList || start = "...".toList) && atBlank (line.drop 3)

def atStop : Reading Bool := do
  let s ← rest
  pure (s.isEmpty || ((← column) = 0 && atMarker s))

def atMark (mark : Char) (s : List Char) : Bool := s.head? = some mark && atBlank (s.drop 1)

def plainLength (inFlow afterBlank : Bool) : List Char → Nat
  | [] => 0
  | c :: more =>
    if c = '\n' then 0
    else if c = ':' ∧ (atBlank more ∨ (inFlow ∧ more.head?.any isFlowMark)) then 0
    else if c = '#' ∧ afterBlank then 0
    else if inFlow ∧ isFlowMark c then 0
    else plainLength inFlow (isGap c) more + 1

/-- What joins two lines of a plain scalar with so many empty lines between them. -/
def joint (empty : Nat) : List Char := if empty = 0 then [' '] else List.replicate empty '\n'

/-- The further lines of a plain scalar, folded, and how many characters they take. Lines have to
start with `need` spaces. -/
def plainMore (inFlow : Bool) (need : Nat) : Nat → Nat → List Char → List Char × Nat
  | 0, _, _ => ([], 0)
  | fuel + 1, empty, s =>
    let blanks := (s.takeWhile isGap).length
    match s.drop blanks with
    | '\n' :: line =>
      let indent := (line.takeWhile (· == ' ')).length
      let body := trimGaps line
      let lead := line.length - body.length
      if body.head? = some '\n' ∧ ((line.drop indent).head? = some '\n' ∨ need ≤ indent) then
        let (text, count) := plainMore inFlow need fuel (empty + 1) line
        (text, if text.isEmpty then 0 else blanks + 1 + count)
      else if indent < need ∨ atMarker line ∨ body.head? = some '#' then ([], 0)
      else
        let text := trimGapsEnd (body.take (plainLength inFlow true body))
        if text.isEmpty then ([], 0)
        else
          let (more, count) := plainMore inFlow need fuel 0 (body.drop text.length)
          (joint empty ++ text ++ more, blanks + 1 + lead + text.length + count)
    | _ => ([], 0)

def startsPlain (inFlow : Bool) (s : List Char) : Bool :=
  match s with
  | [] => false
  | c :: more =>
    if c = '-' ∨ c = '?' ∨ c = ':' then !(atBlank more || (inFlow && more.head?.any isFlowMark))
    else !(isFlowMark c || "#&*!|>'\"%@\x60".toList.contains c)

inductive Raw where
  | plain (text : List Char)
  | quoted (text : List Char)
  | made (value : Setting)
  | named (value : Setting)

def Raw.isClosed : Raw → Bool
  | .plain _ => false
  | _ => true

structure Piece where
  raw : Raw
  long : Bool

def plain (inFlow : Bool) (need : Nat) : Reading Piece := do
  let s ← rest
  check (startsPlain inFlow s)
  let first := trimGapsEnd (s.take (plainLength inFlow false s))
  let (more, count) := plainMore inFlow need s.length 0 (s.drop first.length)
  pass (first.length + count)
  pure ⟨.plain (first ++ more), !more.isEmpty⟩

/-- Are all lines after the first indented far enough? Empty ones need not be, but for the last,
which the closing quote follows. -/
def linesIndented (need : Nat) : List (List Char) → Bool
  | [] => true
  | [last] => need ≤ (last.takeWhile (· == ' ')).length
  | line :: more =>
    (line.all (· == ' ') || need ≤ (line.takeWhile (· == ' ')).length) && !atMarker line
      && linesIndented need more

def spanQuoted (quote : Char) : List Char → Option (List Char × List Char)
  | [] => none
  | [c] => if c = quote then some ([], []) else none
  | c :: d :: more =>
    if quote = '"' ∧ c = '\\' then (spanQuoted quote more).map fun (body, after) =>
      (c :: d :: body, after)
    else if c = quote then
      if quote = '\'' ∧ d = '\'' then
        (spanQuoted quote more).map fun (body, after) => (c :: d :: body, after)
      else some ([], d :: more)
    else (spanQuoted quote (d :: more)).map fun (body, after) => (c :: body, after)

def quoted (need : Nat) : Reading Piece := do
  match ← rest with
  | quote :: more => do
    let (body, _) ← given (spanQuoted quote more)
    let later := (Text.splitOn (· == '\n') body).drop 1
    check (later.isEmpty || linesIndented need later)
    pass (body.length + 2)
    let text ← given (if quote = '"' then doubleQuoted (body.length + 1) body
      else some (singleQuoted (folded body)))
    pure ⟨.quoted text, !later.isEmpty⟩
  | [] => failure

def isAnchorChar (c : Char) : Bool := !(isGap c || c == '\n' || isFlowMark c)

structure Marks where
  anchor : Option (List Char)
  tag : Option String
  deriving Inhabited

def Marks.none : Marks := ⟨Option.none, Option.none⟩

def Marks.isEmpty (marks : Marks) : Bool := marks.anchor.isNone && marks.tag.isNone

def coreSpace : List Char := "tag:yaml.org,2002:".toList

def shortTag (tag : List Char) : String :=
  if coreSpace.isPrefixOf tag then "!!" ++ String.ofList (tag.drop coreSpace.length)
  else String.ofList tag

/-- What is given before a node in two places together; neither a name nor a tag is given twice. -/
def Marks.join (outer own : Marks) : Option Marks :=
  if outer.anchor.isSome ∧ own.anchor.isSome ∨ outer.tag.isSome ∧ own.tag.isSome then Option.none
  else some ⟨outer.anchor.or own.anchor, outer.tag.or own.tag⟩

def isTagChar (c : Char) : Bool :=
  Text.isAsciiLetter c || Text.isAsciiDigit c || "-#;/?:@&=+$_.!~*'()%".toList.contains c

/-- The tag that a spelling with its exclamation mark stands for: one in angle brackets as it is,
else what its handle stands for and the rest of it. -/
def tagMeant (handles : List (List Char × List Char)) (spelling : List Char) : Option (List Char) :=
  match spelling with
  | ['!'] => some spelling
  | '!' :: '<' :: inside =>
    let name := inside.takeWhile (· ≠ '>')
    if name = ['!'] ∨ name = ['!', '!'] ∨ inside.length = name.length then none else some name
  | _ =>
    let suffix := (spelling.reverse.takeWhile (· ≠ '!')).reverse
    let handle := spelling.take (spelling.length - suffix.length)
    if suffix.isEmpty then none
    else match handles.lookup handle with
      | some space => some (space ++ suffix)
      | none => if handle = ['!'] then some spelling else none

def marksHere : Nat → Marks → Reading Marks
  | 0, marks => pure marks
  | fuel + 1, marks => do
    match ← rest with
    | '&' :: more => do
      let name := more.takeWhile isAnchorChar
      check (marks.anchor.isNone && !name.isEmpty)
      pass (name.length + 1)
      spaces
      marksHere fuel { marks with anchor := some name }
    | '!' :: more => do
      check marks.tag.isNone
      let spelling := match more with
        | '<' :: inside =>
          let name := inside.takeWhile fun c => c ≠ '>' && !(isGap c || c == '\n')
          '!' :: '<' :: name ++ ((inside.drop name.length).take 1).filter (· == '>')
        | _ => '!' :: more.takeWhile isTagChar
      let tag ← fun s => (tagMeant s.handles spelling).map fun tag => (tag, s)
      pass spelling.length
      spaces
      marksHere fuel { marks with tag := some (shortTag tag) }
    | _ => pure marks
where
  /-- Passes blanks on the line, of which there has to be one unless the line ends. Those before a
  comment belong to it. -/
  spaces : Reading Unit := do
    let s ← rest
    check (atBlank s || s.head?.any ",]\x7d".toList.contains)
    if (s.dropWhile isGap).head? ≠ some '#' then pass (s.takeWhile isGap).length

def marks : Reading Marks := marksHere 3 .none

/-- What a node means under its tag; a named one is remembered. A node given by its name has neither
tag nor a further name. -/
def settle (marks : Marks) (raw : Raw) : Reading Setting := do
  let value ← match raw, marks.tag with
    | .plain s, none => pure (plainValue s)
    | .plain s, some tag => pure (taggedValue tag s)
    | .quoted s, none => pure (.text (String.ofList s))
    | .quoted s, some tag => pure (taggedValue tag s)
    | .made v, _ => pure v
    | .named v, _ => do
      check marks.isEmpty
      pure v
  match marks.anchor with
  | none => pure value
  | some name => fun s => some (value, { s with anchors := (name, value) :: s.anchors })

def reference : Reading Piece := do
  let name := ((← rest).drop 1).takeWhile isAnchorChar
  pass (name.length + 1)
  let found ← fun s => (s.anchors.lookup name).map fun value => (value, s)
  pure ⟨.named found, false⟩

def isNew (key : Setting) (entries : List (Setting × Setting)) : Bool :=
  !entries.any fun entry => entry.1.sameSimple key

def tableOf (entries : List (Setting × Setting)) : Setting :=
  .table (Entries.ofList (entries.map fun (key, value) => (key.asName, value)))

/-- What stands between two tokens inside brackets; further lines have to be indented, but for a
bracket that closes the outermost collection. -/
def flowGap (need : Nat) (outermost : Bool) : Reading Unit := do
  let found ← gap
  let s ← rest
  let closes :=
    outermost && found.indent + 1 = need && (s.head? = some ']' || s.head? = some '\x7d')
  check (!found.crossed || ((need ≤ found.indent || closes) && !((← column) = 0 && atMarker s)))

def flowColon (need : Nat) (outermost closed : Bool) : Reading Bool := do
  flowGap need outermost
  let s ← rest
  if s.head? = some ':' ∧ (closed ∨ atBlank (s.drop 1) ∨ (s.drop 1).head?.any isFlowMark) then
    pass 1
    flowGap need false
    pure true
  else pure false

def flowMarks (need : Nat) : Nat → Marks → Reading Marks
  | 0, outer => pure outer
  | fuel + 1, outer => do
    let own ← marks
    if own.isEmpty then pure outer
    else
      flowGap need false
      flowMarks need fuel (← given (outer.join own))

def flowAsk (need : Nat) (outermost : Bool) : Reading Bool := do
  let s ← rest
  if s.head? = some '?' ∧ !startsPlain true s then
    pass 1
    flowGap need outermost
    check ((← rest).head? ≠ some ',')
    pure true
  else pure false

def breaksLine : Reading Bool := do
  let before ← get
  let found ← gap
  set before
  pure found.crossed

mutual

def flowNode : Nat → Nat → Bool → Bool → Reading Piece
  | 0, _, _, _ => failure
  | fuel + 1, need, inFlow, outermost => do
    match ← rest with
    | '[' :: _ => do
      let start ← rest
      pass 1
      let items ← flowItems fuel need outermost
      let long := (start.take (start.length - (← rest).length)).contains '\n'
      pure ⟨.made (.list items), long⟩
    | '\x7b' :: _ => do
      let start ← rest
      pass 1
      let entries ← flowEntries fuel need outermost []
      let long := (start.take (start.length - (← rest).length)).contains '\n'
      pure ⟨.made (tableOf entries), long⟩
    | '"' :: _ => quoted need
    | '\'' :: _ => quoted need
    | '*' :: _ => reference
    | _ => plain inFlow need

def flowMarked : Nat → Nat → Reading (Setting × Bool × Bool)
  | 0, _ => failure
  | fuel + 1, need => do
    let found ← flowMarks need 3 .none
    let s ← rest
    if s.head? = some ',' ∨ s.head? = some ']' ∨ s.head? = some '\x7d'
        ∨ s.head? = some ':' ∧ !startsPlain true s then
      let value ← settle found (.plain [])
      pure (value, false, false)
    else
      let piece ← flowNode fuel need true false
      let value ← settle found piece.raw
      pure (value, piece.long, piece.raw.isClosed)

def flowItems : Nat → Nat → Bool → Reading (List Setting)
  | 0, _, _ => failure
  | fuel + 1, need, outermost => do
    flowGap need outermost
    if (← rest).head? = some ']' then
      pass 1
      pure []
    else
      check ((← rest).head? ≠ some ',')
      let asked ← flowAsk need outermost
      let (value, long, closed) ← flowMarked fuel need
      let apart ← breaksLine
      let item ← if ← flowColon need outermost closed then do
          check (asked || !(long || apart))
          let (inner, _, _) ← flowMarked fuel need
          pure (tableOf [(value, inner)])
        else pure (if asked then tableOf [(value, .null)] else value)
      flowGap need outermost
      if (← rest).head? = some ',' then
        pass 1
        let items ← flowItems fuel need outermost
        pure (item :: items)
      else
        check ((← rest).head? = some ']')
        pass 1
        pure [item]

def flowEntries : Nat → Nat → Bool → List (Setting × Setting) → Reading (List (Setting × Setting))
  | 0, _, _, _ => failure
  | fuel + 1, need, outermost, before => do
    flowGap need outermost
    if (← rest).head? = some '\x7d' then
      pass 1
      pure before
    else
      check ((← rest).head? ≠ some ',')
      let _ ← flowAsk need outermost
      let (key, _, closed) ← flowMarked fuel need
      let value ← if ← flowColon need outermost closed then do
          let (value, _, _) ← flowMarked fuel need
          pure value
        else pure .null
      check (isNew key before)
      let entries := before ++ [(key, value)]
      flowGap need outermost
      if (← rest).head? = some ',' then
        pass 1
        flowEntries fuel need outermost entries
      else
        check ((← rest).head? = some '\x7d')
        pass 1
        pure entries

end

def blockScalar (parent : Int) : Reading Raw := do
  let s ← rest
  let head := s.takeWhile fun c => !(isGap c || c == '\n' || c == '#')
  let header ← given (blockMarks ⟨head.head? = some '>', .clip, none⟩ false (head.drop 1))
  pass head.length
  let line := (← rest).takeWhile (· ≠ '\n')
  let tail := trimGaps line
  check (tail.isEmpty || (tail.head? = some '#' && tail.length < line.length))
  pass line.length
  match ← rest with
  | [] => do
    let text ← given (blockValue header 0 [])
    pure (.quoted text)
  | _ :: below => do
    let lines := Text.splitOn (· == '\n') below
    let base := parent.toNat
    let least := (parent + 1).toNat
    let isEmpty (line : List Char) : Bool := line.all (· == ' ')
    let first := match lines.find? (!isEmpty ·) with
      | some line => (blockLine line).1
      | none => 0
    let need := if first < least then least else match header.indent with
      | some n => base + n
      | none => first
    let belongs (line : List Char) : Bool :=
      isEmpty line || (need ≤ (blockLine line).1 && !(need = 0 && atMarker line))
    let taken := lines.takeWhile belongs
    pass (taken.foldl (fun size line => size + (line.length + 1)) 0)
    let whole := if taken.length < lines.length then taken ++ [[]] else taken
    let text ← given (blockValue header base (whole.map blockLine))
    pure (.quoted text)

def keyColon : Reading Bool := do
  let s ← rest
  let blanks := (s.takeWhile isGap).length
  if atMark ':' (s.drop blanks) then
    pass (blanks + 1)
    pure true
  else pure false

def longestKey : Nat := 1024

/-- Is nothing here that belongs to a collection at column `parent`? -/
def isAbsent (parent : Int) (besideKey : Bool) (found : Gap) : Reading Bool := do
  let here : Int := ← column
  let listed := besideKey && here = parent && atMark '-' (← rest)
  pure ((← atStop) || (found.crossed && here ≤ parent && !listed))

mutual

/-- The node that belongs to a collection at column `parent`. The value of a key can be a list at
the same column, and starts no collection on the key's own line. -/
def blockNode : Nat → Int → Bool → Reading Setting
  | 0, _, _ => failure
  | fuel + 1, parent, besideKey => do
    let before ← get
    let found ← gap
    if ← isAbsent parent besideKey found then
      set before
      pure .null
    else
      check (!(found.crossed && found.tab && decide ((found.indent : Int) ≤ parent)))
      let mayOpen := (found.crossed || !besideKey) && !found.tab
      nodeMarked fuel parent besideKey mayOpen .none

/-- The node that starts here, after what is given before it on earlier lines, which belongs to
it. -/
def nodeMarked : Nat → Int → Bool → Bool → Marks → Reading Setting
  | 0, _, _, _, _ => failure
  | fuel + 1, parent, besideKey, mayOpen, outer => do
    let start ← column
    let own ← marks
    if own.isEmpty then nodeHere fuel parent mayOpen start outer own
    else
      let before ← get
      let after ← gap
      if ← isAbsent parent besideKey after then
        set before
        settle (← given (outer.join own)) (.plain [])
      else if after.crossed then
        nodeMarked fuel parent besideKey (!after.tab) (← given (outer.join own))
      else nodeHere fuel parent mayOpen start outer own

/-- The node that starts here. What is given before it on its line belongs to it, or to its first
key. -/
def nodeHere : Nat → Int → Bool → Nat → Marks → Marks → Reading Setting
  | 0, _, _, _, _, _ => failure
  | fuel + 1, parent, mayOpen, start, outer, own => do
    let s ← rest
    if atMark '-' s then
      check (mayOpen && own.isEmpty)
      let items ← blockItems fuel start
      settle outer (.made (.list items))
    else if atMark '?' s then
      check (mayOpen && own.isEmpty)
      let entries ← blockEntries fuel start []
      settle outer (.made (tableOf entries))
    else if s.head? = some '|' ∨ s.head? = some '>' then
      let raw ← blockScalar parent
      settle (← given (outer.join own)) raw
    else
      let piece ← if atMark ':' s then pure ⟨.plain [], false⟩
        else flowNode fuel (parent + 1).toNat false true
      if ← keyColon then
        check (mayOpen && !piece.long && (← column) ≤ start + longestKey + 1)
        let key ← settle own piece.raw
        let value ← blockNode fuel start true
        let entries ← blockEntries fuel start [(key, value)]
        settle outer (.made (tableOf entries))
      else settle (← given (outer.join own)) piece.raw

def blockItems : Nat → Nat → Reading (List Setting)
  | 0, _ => failure
  | fuel + 1, start => do
    pass 1
    let item ← blockNode fuel start false
    let before ← get
    let found ← gap
    if !(← atStop) ∧ (← column) = start ∧ atMark '-' (← rest) then
      check (found.crossed && !found.tab)
      let items ← blockItems fuel start
      pure (item :: items)
    else
      set before
      pure [item]

def blockEntries : Nat → Nat → List (Setting × Setting) → Reading (List (Setting × Setting))
  | 0, _, _ => failure
  | fuel + 1, start, before => do
    let spot ← get
    let found ← gap
    if (← atStop) ∨ ((← column) < start ∧ !before.isEmpty) then
      set spot
      pure before
    else
      check ((← column) = start && (before.isEmpty || (found.crossed && !found.tab)))
      let (key, value) ← blockEntry fuel start
      check (isNew key before)
      blockEntries fuel start (before ++ [(key, value)])

def blockEntry : Nat → Nat → Reading (Setting × Setting)
  | 0, _ => failure
  | fuel + 1, start => do
    let s ← rest
    if atMark '?' s then
      pass 1
      let key ← blockNode fuel start false
      let spot ← get
      let _ ← gap
      if (← column) = start ∧ atMark ':' (← rest) then
        pass 1
        let value ← blockNode fuel start false
        pure (key, value)
      else
        set spot
        pure (key, .null)
    else
      check (!atMark '-' s)
      let own ← marks
      let piece ← if atMark ':' (← rest) then pure ⟨.plain [], false⟩
        else flowNode fuel (start + 1) false true
      check (← keyColon)
      check (!piece.long && (← column) ≤ start + longestKey + 1)
      let key ← settle own piece.raw
      let value ← blockNode fuel start true
      pure (key, value)

end

def directiveWords (line : List Char) : List (List Char) :=
  let words := (Text.splitOn isGap line).filter (!·.isEmpty)
  words.takeWhile (·.head? ≠ some '#')

def isVersion (s : List Char) : Bool :=
  match Text.splitOn (· == '.') s with
  | [a, b] => !a.isEmpty && !b.isEmpty && a.all Text.isAsciiDigit && b.all Text.isAsciiDigit
  | _ => false

def note (words : List (List Char)) : Reading Unit :=
  match words with
  | [] => pure ()
  | name :: values =>
    if name = "TAG".toList then
      match values with
      | [handle, space] => fun s => some ((), { s with handles := (handle, space) :: s.handles })
      | _ => failure
    else if name = "YAML".toList then
      match values with
      | [version] => check (isVersion version)
      | _ => failure
    else pure ()

def directives : Nat → Reading Bool
  | 0 => pure false
  | fuel + 1 => do
    let before ← get
    let _ ← gap
    match ← rest with
    | '%' :: more =>
      check ((← column) = 0)
      let line := more.takeWhile (· ≠ '\n')
      note (directiveWords line)
      pass (line.length + 1)
      let _ ← directives fuel
      pure true
    | _ =>
      set before
      pure false

def documentStart : Reading Bool := do
  let before ← get
  let _ ← gap
  let s ← rest
  if (← column) = 0 ∧ s.take 3 = "---".toList ∧ atBlank (s.drop 3) then
    pass 3
    pure true
  else
    set before
    pure false

def document (fuel : Nat) : Reading Setting := do
  let directed ← directives fuel
  let started ← documentStart
  check (started || !directed)
  let value ← blockNode fuel (-1) started
  let found ← gap
  if (← rest).isEmpty then pure value
  else
    check ((found.crossed || (← column) = 0) && (← rest).take 3 = "...".toList && (← atStop))
    pass 3
    let _ ← gap
    let _ ← directives fuel
    let _ ← gap
    check (← rest).isEmpty
    pure value

def plainLines : List Char → List Char
  | '\r' :: '\n' :: more => '\n' :: plainLines more
  | c :: more => c :: plainLines more
  | [] => []

def read? (s : String) : Option Setting :=
  let text := match s.toList with
    | '\uFEFF' :: more => plainLines more
    | all => plainLines all
  ((document (2 * text.length + 10)).run ⟨0, text, [], [("!!".toList, coreSpace)]⟩).map (·.1)

end EndpointAtlas.Yaml
