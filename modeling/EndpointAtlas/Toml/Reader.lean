import EndpointAtlas.Toml.Scalar

/-!
Reading TOML: tables, lists of tables, and assignments with dotted keys. No key is given twice, and
the items of a list are all of one type.
-/

set_option autoImplicit false

namespace EndpointAtlas.Toml

/-- What a key stands for while a text is read: a value that is complete, a table with or without a
header of its own, or a list of tables that headers add to, the last one first. -/
inductive Node where
  | leaf (value : Setting)
  | table (declared : Bool) (fields : List (String × Node))
  | tables (items : List (List (String × Node)))

abbrev Fields := List (String × Node)

mutual

def Node.value : Node → Setting
  | .leaf value => value
  | .table _ fields => .table (valuesOf fields)
  | .tables items => .list (tablesOf items)

def valuesOf : List (String × Node) → List (String × Setting)
  | [] => []
  | (name, node) :: rest => (name, node.value) :: valuesOf rest

def tablesOf : List (List (String × Node)) → List Setting
  | [] => []
  | fields :: rest => tablesOf rest ++ [.table (valuesOf fields)]

end

/-- Changes the table at a path of names. Tables that are missing are made; a list of tables stands
for its last one. -/
def changeAt : List String → (Fields → Option Fields) → Fields → Option Fields
  | [], change, fields => change fields
  | name :: path, change, fields => do
    let node ← match Entries.get? name fields with
      | none => (changeAt path change []).map (.table false ·)
      | some (.table declared inner) => (changeAt path change inner).map (.table declared ·)
      | some (.tables (last :: items)) =>
        (changeAt path change last).map fun last => .tables (last :: items)
      | some _ => none
    pure (Entries.put name node fields)

def assign : List String → Setting → Fields → Option Fields
  | [], _, _ => none
  | [name], value, fields =>
    if (Entries.get? name fields).isSome then none else some (Entries.put name (.leaf value) fields)
  | name :: path, value, fields => do
    let inner ← match Entries.get? name fields with
      | none => some []
      | some (.table false inner) => some inner
      | some _ => none
    let inner ← assign path value inner
    pure (Entries.put name (.table false inner) fields)

def declare (name : String) (fields : Fields) : Option Fields :=
  match Entries.get? name fields with
  | none => some (Entries.put name (.table true []) fields)
  | some (.table false inner) => some (Entries.put name (.table true inner) fields)
  | some _ => none

def addTable (name : String) (fields : Fields) : Option Fields :=
  match Entries.get? name fields with
  | none => some (Entries.put name (.tables [[]]) fields)
  | some (.tables items) => some (Entries.put name (.tables ([] :: items)) fields)
  | some _ => none

def isBareChar (c : Char) : Bool :=
  Text.isAsciiLetter c || Text.isAsciiDigit c || c == '_' || c == '-'

def readName (s : List Char) : Option (String × List Char) :=
  match s with
  | '"' :: rest => (readLine '"' s.length rest).map fun (body, after) => (String.ofList body, after)
  | '\'' :: rest => (readLine '\'' s.length rest).map fun (body, after) =>
    (String.ofList body, after)
  | _ =>
    let name := s.takeWhile isBareChar
    let after := s.drop name.length
    if name.isEmpty ∨ after.isEmpty then none else some (String.ofList name, after)

def skipGap (s : List Char) : List Char := s.dropWhile isGap

def readKey : Nat → List Char → Option (List String × List Char)
  | 0, _ => none
  | fuel + 1, s => do
    let (name, rest) ← readName s
    match skipGap rest with
    | '.' :: more => do
      let (path, after) ← readKey fuel (skipGap more)
      pure (name :: path, after)
    | after => pure ([name], after)

def skipLines (comment : Bool) : List Char → List Char
  | [] => []
  | c :: rest =>
    if comment then skipLines (c ≠ '\n') rest
    else if isSpace c then skipLines false rest
    else if c = '#' then skipLines true rest
    else c :: rest

def skipToEnd (s : List Char) : Option (List Char) :=
  let body := s.dropWhile fun c => isGap c || c == '\r'
  match body with
  | [] => some []
  | '\n' :: rest => some rest
  | '#' :: rest => some (rest.dropWhile (· ≠ '\n'))
  | _ => none

mutual

def readValue : Nat → List Char → Option (Typed × List Char)
  | 0, _ => none
  | fuel + 1, s =>
    match s with
    | '[' :: rest => do
      let (items, after) ← readItems fuel none (skipLines false rest)
      pure (⟨.list items, "inline-list"⟩, after)
    | '{' :: rest => do
      let (fields, after) ← readFields fuel [] (skipGap rest)
      pure (⟨.table (valuesOf fields), "inline-table"⟩, after)
    | _ => readScalar s

def readItems : Nat → Option String → List Char → Option (List Setting × List Char)
  | 0, _, _ => none
  | fuel + 1, type, s =>
    match s with
    | ']' :: after => some ([], after)
    | _ => do
      let (item, rest) ← readValue fuel s
      if type.any (· ≠ item.type) then none
      else match skipLines false rest with
        | ',' :: more => do
          let (items, after) ← readItems fuel (some item.type) (skipLines false more)
          pure (item.value :: items, after)
        | ']' :: after => pure ([item.value], after)
        | _ => none

def readFields : Nat → Fields → List Char → Option (Fields × List Char)
  | 0, _, _ => none
  | fuel + 1, fields, s =>
    match s with
    | '}' :: after => some (fields, after)
    | _ => do
      let (path, value, rest) ← readAssignment fuel s
      let fields ← assign path value fields
      match skipGap rest with
      | ',' :: more => readFields fuel fields (skipGap more)
      | '}' :: after => pure (fields, after)
      | _ => none

def readAssignment : Nat → List Char → Option (List String × Setting × List Char)
  | 0, _ => none
  | fuel + 1, s => do
    let (path, rest) ← readKey s.length s
    let rest ← readMark '=' rest
    let (value, after) ← readValue fuel (skipGap rest)
    pure (path, value.value, after)

end

def readHeader (s : List Char) : Option (List String × List Char) := do
  let (path, rest) ← readKey s.length (skipGap s)
  let after ← readMark ']' rest
  pure (path, after)

def readStatements : Nat → List String → Fields → List Char → Option Fields
  | 0, _, _, _ => none
  | fuel + 1, here, fields, s =>
    match skipLines false s with
    | [] => some fields
    | '[' :: '[' :: rest => do
      let (path, rest) ← readHeader rest
      let rest ← readMark ']' rest
      let fields ← changeAt path.dropLast (addTable (path.getLast?.getD "")) fields
      let rest ← skipToEnd rest
      readStatements fuel path fields rest
    | '[' :: rest => do
      let (path, rest) ← readHeader rest
      let fields ← changeAt path.dropLast (declare (path.getLast?.getD "")) fields
      let rest ← skipToEnd rest
      readStatements fuel path fields rest
    | statement => do
      let (path, value, rest) ← readAssignment fuel statement
      let fields ← changeAt here (assign path value) fields
      let rest ← skipToEnd rest
      readStatements fuel here fields rest

def read? (s : String) : Option Setting :=
  (readStatements (s.toList.length + 2) [] [] s.toList).map fun fields => .table (valuesOf fields)

end EndpointAtlas.Toml
