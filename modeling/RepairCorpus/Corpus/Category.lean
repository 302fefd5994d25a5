/-!
# Pair types and categories

A record says how each of its pairs came about.  The sequences made from pairs are sorted into
categories, each of which has files of its own.
-/

namespace RepairCorpus

/-- How a before/after pair came about. -/
inductive PairType where
  | nominal
  | mutantRepair
  | repair
  | other
  deriving DecidableEq, Inhabited

/-- The type with a written form; every unknown form stands for `other`. -/
def PairType.ofName : String → PairType
  | "NOMINAL" => .nominal
  | "MUTANT_REPAIR" => .mutantRepair
  | "REPAIR" => .repair
  | _ => .other

/-- The family of files a sequence is written to. -/
inductive Category where
  | nominal
  | mutant
  | repair
  | error
  | candidate
  deriving DecidableEq, Inhabited

namespace Category

/-- The categories in their order. -/
def all : List Category := [.nominal, .mutant, .repair, .error, .candidate]

/-- The written form of a category. -/
def name : Category → String
  | .nominal => "nominal"
  | .mutant => "mutant"
  | .repair => "repair"
  | .error => "error"
  | .candidate => "candidate"

/-- The category with a written form. -/
def ofName? (s : String) : Option Category := all.find? fun c => c.name == s

@[simp] theorem ofName?_name (c : Category) : ofName? c.name = some c := by cases c <;> decide

/-- The position of a category in their order. -/
def rank (c : Category) : Nat := all.idxOf c

/-- The category of abstracted pairs of a type. -/
def ofPairType : PairType → Category
  | .nominal => .nominal
  | .mutantRepair => .mutant
  | .repair => .repair
  | .other => .error

/-- What a classifier is to say about a sequence of a category. -/
def label : Category → String
  | .mutant => "MISSING_TRY"
  | _ => "NOMINAL"

end Category

end RepairCorpus
