import RepairCorpus.Text.Infix

/-!
# Lines that show a change

Of the three tags that are visible in a sequence, two tell of code that is there after the change:
what was inserted and what was updated.  A sequence without either is of no use to a classifier.
-/

namespace RepairCorpus

/-- How the boundary tokens begin that make a line worth classifying. -/
def changeSigns : List String := ["~UPDATED_START", "~INSERTED_START"]

/-- Whether a line shows an insertion or an update. -/
def hasChange (line : String) : Bool := changeSigns.any fun sign => Text.contains line sign

end RepairCorpus
