import RepairCorpus.Json.Lexeme

/-!
# JSON documents

The second half of reading: the lexemes of a text become one value.  The reader is a fold over
the lexemes with a stack of the arrays and objects that are still open, so values of any depth
are read without recursion.

Where the lexemes stop making sense, the reader closes everything that is open around a `missing`
leaf.  The value then says what had been read and where reading ended.  A text may also go on
behind its value; the value is then whole, but the document is not closed.

A reader may limit nesting: the opening bracket that would exceed the limit is itself the fault.
-/

namespace RepairCorpus.Json

/-- A text as a value, and whether nothing but blanks follows it. -/
structure Document where
  value : Json
  closed : Bool
  deriving Inhabited

/-! ## The reader -/

/-- An array or object that is open around the value being read.  Parts read so far are kept in
reverse. -/
inductive Frame where
  | array (items : List Json)
  | member (members : List (String × Json)) (key : String)
  deriving Inhabited

/-- What the reader expects next. -/
inductive Reading where
  /-- A value, or the end of the innermost array if it may close here. -/
  | value (frames : List Frame) (mayClose : Bool)
  /-- A comma or the end of an array with these items. -/
  | afterItem (items : List Json) (frames : List Frame)
  /-- A key, or the end of the object if it may close here. -/
  | key (members : List (String × Json)) (frames : List Frame) (mayClose : Bool)
  /-- The colon behind a key. -/
  | colon (members : List (String × Json)) (key : String) (frames : List Frame)
  /-- A comma or the end of an object with these members. -/
  | afterMember (members : List (String × Json)) (frames : List Frame)
  /-- Nothing more. -/
  | done (document : Document)
  deriving Inhabited

/-- Hands a finished value to the innermost open array or object. -/
def place (v : Json) : List Frame → Reading
  | [] => .done ⟨v, true⟩
  | .array items :: frames => .afterItem (v :: items) frames
  | .member members key :: frames => .afterMember ((key, v) :: members) frames

/-- Closes everything that is open around a value. -/
def unwind (v : Json) : List Frame → Json
  | [] => v
  | .array items :: frames => unwind (.array (v :: items).reverse) frames
  | .member members key :: frames => unwind (.object ((key, v) :: members).reverse) frames

namespace Reading

/-- The document of a text that ends or goes wrong here. -/
def abandon : Reading → Document
  | .value frames _ => ⟨unwind .missing frames, false⟩
  | .afterItem items frames => ⟨unwind (.array (.missing :: items).reverse) frames, false⟩
  | .key members frames _ => ⟨unwind (.object (("", .missing) :: members).reverse) frames, false⟩
  | .colon members k frames =>
    ⟨unwind (.object ((k, .missing) :: members).reverse) frames, false⟩
  | .afterMember members frames =>
    ⟨unwind (.object (("", .missing) :: members).reverse) frames, false⟩
  | .done d => d

/-- Gives up. -/
def fail (r : Reading) : Reading := .done { r.abandon with closed := false }

/-- Whether one more array or object may open inside these. -/
def mayOpen (limit : Option Nat) (frames : List Frame) : Bool :=
  match limit with
  | none => true
  | some n => frames.length < n

/-- Reads one lexeme. -/
def step (limit : Option Nat) (r : Reading) (l : Lexeme) : Reading :=
  match r, l with
  | .value frames _, .text s => place (.string s) frames
  | .value frames _, .scalar v => place v frames
  | .value frames _, .openBracket =>
    if mayOpen limit frames then .value (.array [] :: frames) true else r.fail
  | .value frames _, .openBrace => if mayOpen limit frames then .key [] frames true else r.fail
  | .value (.array items :: frames) true, .closeBracket => place (.array items.reverse) frames
  | .afterItem items frames, .comma => .value (.array items :: frames) false
  | .afterItem items frames, .closeBracket => place (.array items.reverse) frames
  | .key members frames _, .text k => .colon members k frames
  | .key members frames true, .closeBrace => place (.object members.reverse) frames
  | .colon members k frames, .colon => .value (.member members k :: frames) false
  | .afterMember members frames, .comma => .key members frames false
  | .afterMember members frames, .closeBrace => place (.object members.reverse) frames
  | r, _ => r.fail

end Reading

/-- Reads a text whose arrays and objects nest at most `limit` deep, if there is a limit. -/
def read (limit : Option Nat) (text : String) : Document :=
  ((lexemes text).foldl (Reading.step limit) (.value [] false)).abandon

/-- The nesting allowed in texts that come from outside. -/
def nestingLimit : Nat := 127

end RepairCorpus.Json
