/-!
# Change tags

A diff of two versions of a file annotates every node of a syntax tree.  Three of its tags are
made visible in token sequences, as a pair of boundary tokens around the node's own tokens; the
other four leave no trace there.
-/

namespace RepairCorpus

/-- What a diff says about a node. -/
inductive Tag where
  | inserted
  | removed
  | updated
  | moved
  | unchanged
  | inherited
  | unknown
  deriving DecidableEq, Inhabited, Repr

namespace Tag

/-- The tags, in the order in which messages list them. -/
def all : List Tag := [.inserted, .removed, .updated, .moved, .unchanged, .inherited, .unknown]

/-- The written form of a tag. -/
def name : Tag → String
  | .inserted => "INSERTED"
  | .removed => "REMOVED"
  | .updated => "UPDATED"
  | .moved => "MOVED"
  | .unchanged => "UNCHANGED"
  | .inherited => "INHERITED"
  | .unknown => "UNKNOWN"

/-- The tag with a written form. -/
def ofName? (s : String) : Option Tag := all.find? fun t => t.name == s

theorem mem_all (t : Tag) : t ∈ all := by cases t <;> decide

@[simp] theorem ofName?_name (t : Tag) : ofName? t.name = some t := by cases t <;> decide

/-- Whether a tag is made visible in token sequences. -/
def isWrapped : Tag → Bool
  | .inserted | .removed | .updated => true
  | _ => false

/-- The boundary token in front of a node. -/
def startMarker (t : Tag) : String := "~" ++ t.name ++ "_START~"

/-- The boundary token behind a node. -/
def endMarker (t : Tag) : String := "~" ++ t.name ++ "_END~"

end Tag

end RepairCorpus
