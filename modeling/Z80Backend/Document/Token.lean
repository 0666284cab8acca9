/-! # Tokens of a document

    The text of a document is cut into tokens.  Besides the marks that are
    written there are tokens for what only the indentation shows: where block
    collections start and end. -/

namespace Z80Backend.Document

/-- A token. -/
inductive Token where
  | streamEnd
  /-- The line `---`. -/
  | documentStart
  /-- The line `...`. -/
  | documentEnd
  /-- A `%YAML` line. -/
  | version (major minor : Nat)
  /-- A `%TAG` line: what a handle at the start of a tag stands for. -/
  | tagHandle (handle meaning : String)
  | blockSequenceStart
  | blockMappingStart
  /-- The end of a block collection. -/
  | blockEnd
  | flowSequenceStart
  | flowSequenceEnd
  | flowMappingStart
  | flowMappingEnd
  /-- The mark `-` of an item. -/
  | blockEntry
  /-- The comma between entries in flow style. -/
  | flowEntry
  /-- What follows is a key. -/
  | key
  /-- What follows is a value. -/
  | value
  | aliasOf (name : String)
  | anchor (name : String)
  /-- A tag: a handle, which may be empty, and what follows it. -/
  | tag (handle suffix : String)
  /-- A scalar; `plain` unless it is quoted or a block. -/
  | scalar (text : String) (plain : Bool)
  deriving DecidableEq, Repr, Inhabited

end Z80Backend.Document
