/-!
# Contents of files

Every file that is written here holds text, but a file that is read may hold anything.  So the
content of a file is either a text or a run of bytes that is no text.
-/

namespace RepairCorpus.Files

/-- What is in a file. -/
inductive Content where
  | text (value : String)
  /-- Bytes that are not UTF-8. -/
  | bytes (value : List UInt8)
  deriving DecidableEq, Inhabited

namespace Content

/-- The bytes of a content. -/
def toBytes : Content → List UInt8
  | .text s => s.toUTF8.data.toList
  | .bytes bs => bs

/-- The content with these bytes. -/
def ofBytes (bs : List UInt8) : Content :=
  match String.fromUTF8? ⟨bs.toArray⟩ with
  | some s => .text s
  | none => .bytes bs

/-- The text of a content, if it is one. -/
def text? : Content → Option String
  | .text s => some s
  | .bytes _ => none

/-- No content. -/
def empty : Content := .text ""

/-- Writes a text from the beginning of a file and leaves what was there behind its end. -/
def overwrite (old : Content) (s : String) : Content :=
  match old.toBytes.drop s.utf8ByteSize with
  | [] => .text s
  | rest => .ofBytes (s.toUTF8.data.toList ++ rest)

@[simp] theorem text?_text (s : String) : (Content.text s).text? = some s := rfl

@[simp] theorem empty_overwrite (s : String) : empty.overwrite s = .text s := by
  have h : empty.toBytes = [] := by simp [empty, toBytes]
  simp [overwrite, h]

end Content

end RepairCorpus.Files
