import Z80Backend.Document.Value

/-! # Fields of a mapping

    A mapping is read for the values of certain names.  Names that are not
    asked for are passed over, but no key may be written twice.

    The key `<<` merges other mappings into one: what they hold counts for the
    names that the mapping does not have itself, the first of them first. -/

namespace Z80Backend.Document

/-- Are two keys written alike? -/
def Node.sameKey : Node → Node → Bool
  | .scalar _ s _, .scalar _ t _ => s == t
  | .aliasOf s _, .aliasOf t _ => s == t
  | .sequence _ _, .sequence _ _ => true
  | .mapping _ _, .mapping _ _ => true
  | _, _ => false

/-- Is no key written twice? -/
def distinctKeys : List (Node × Node) → Bool
  | [] => true
  | (k, _) :: rest => !rest.any (fun e => k.sameKey e.1) && distinctKeys rest

/-- Does the key merge other mappings? -/
def Node.isMerge : Node → Bool
  | .scalar tag text plain => text == "<<" && (tag == "!!merge" || (tag.isEmpty && plain))
  | _ => false

/-- The fields read so far, in the order of the text, and while merging the names
    that are taken. -/
structure Fields where
  entries : List (String × Node) := []
  taken : Option (List String) := none
  deriving Repr, Inhabited

namespace Fields

/-- Adds a field.  While merging, a name that is taken is passed over; before
    that, none of the names `known` may come again. -/
def add? (known : List String) (fs : Fields) (name : String) (x : Node) : Option Fields :=
  match fs.taken with
  | some names =>
    if names.contains name then some fs
    else some { entries := fs.entries ++ [(name, x)], taken := some (name :: names) }
  | none =>
    if known.contains name && (fs.entries.lookup name).isSome then none
    else some { fs with entries := fs.entries ++ [(name, x)] }

/-- From here on the names that are there count as taken. -/
def startMerge (fs : Fields) : Fields :=
  { fs with taken := fs.taken.or (some (fs.entries.map (·.1))) }

/-- The value of a name. -/
def get? (fs : Fields) (name : String) : Option Node := fs.entries.lookup name

end Fields

/-- The node that a node stands for. -/
def follow? (d : Document) : Node → Option Node
  | .aliasOf _ n => d.anchored.lookup n
  | x => some x

/-- The value of a node that is a scalar. -/
def value? (d : Document) (x : Node) : Option Value := do
  match ← d.follow? x with
  | .scalar tag text plain => Value.ofScalar? tag text plain
  | _ => none

/-- The name that a key spells; null spells none. -/
def keyName? (d : Document) (k : Node) : Option (Option String) := do
  match ← d.follow? k with
  | .scalar tag text plain =>
    match ← Value.ofScalar? tag text plain with
    | .null => some none
    | _ => some (some text)
  | _ => none

/-- The entries of a mapping that is to be merged. -/
def mergedEntries? (d : Document) (x : Node) : Option (List (Node × Node)) := do
  match ← d.follow? x with
  | .mapping _ entries => some entries
  | _ => none

/-- The mappings that the value of a merging key names. -/
def mergedNodes : Node → List Node
  | .sequence _ items => items
  | x => [x]

/-- Adds the fields of a mapping.  The number bounds how deep mappings merge
    others; a mapping that merges itself exceeds every bound. -/
def addEntries? (d : Document) (known : List String) :
    Nat → List (Node × Node) → Fields → Option Fields
  | 0, _, _ => none
  | n + 1, entries, fs =>
    if distinctKeys entries then do
      let fs ← (entries.filter fun e => !e.1.isMerge).foldlM
        (fun fs (k, v) => do
          match ← d.keyName? k with
          | some name => fs.add? known name v
          | none => some fs)
        fs
      match entries.find? fun e => e.1.isMerge with
      | some (_, x) =>
        (mergedNodes x).foldlM
          (fun fs y => do d.addEntries? known n (← d.mergedEntries? y) fs)
          fs.startMerge
      | none => some fs
    else none

/-- The fields of a node: a mapping, or null, which has none. -/
def fields? (d : Document) (known : List String) (x : Node) : Option Fields := do
  match ← d.follow? x with
  | .mapping _ entries => d.addEntries? known (d.size + 1) entries {}
  | .scalar tag text plain =>
    match ← Value.ofScalar? tag text plain with
    | .null => some {}
    | _ => none
  | _ => none

end Z80Backend.Document
