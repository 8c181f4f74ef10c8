import CurlLog.Proofs.Script.BodilessRequest
import CurlLog.Proofs.Script.BodyRequest
import CurlLog.Proofs.Script.ResponseLabel
import CurlLog.Proofs.Script.Shell

/-!
# Scripts as blocks

A script as it is usually written: test cases with a request, success messages and other lines, in
any order. Each block carries what it may hold, so a list of blocks is a script (`Block.source`).
-/

namespace CurlLog

/-- An address that ends at white space and at all the characters at which addresses stop. -/
structure Address where
  service : Text
  path : Text
  service_ne_nil : service ≠ []
  path_ne_nil : path ≠ []
  isUpper_of_mem : ∀ c ∈ service, c.isUpper = true
  inPath_of_mem : ∀ c ∈ path, isBlank c = false ∧ c ∉ ['\\', ')', '\'']

/-- The address in a request that stops at `stop`. -/
def Address.url (u : Address) (stop : Char) (h : stop ∈ ['\\', ')']) : CurlCall.Url stop where
  service := u.service
  path := u.path
  service_ne_nil := u.service_ne_nil
  path_ne_nil := u.path_ne_nil
  isUpper_of_mem := u.isUpper_of_mem
  inPath_of_mem := by
    intro c hc
    obtain ⟨hblank, hstop⟩ := u.inPath_of_mem c hc
    have hne : c ≠ stop := by
      rintro rfl
      have hmem : c ∈ ['\\', ')', '\''] := List.mem_append_left ['\''] h
      exact hstop hmem
    simp [hblank, hne]

/-- The two lines that open a test case, without a command that prints in colour. -/
structure Header where
  id : TestCase.Id
  remark : Text
  titleId : TestCase.Id
  title : Text
  newline_notMem_remark : '\n' ∉ remark
  newline_notMem_title : '\n' ∉ title
  echo_notIn_remark : Text.occurs Shell.echoOption remark = false
  echo_notIn_title : Text.occurs Shell.echoOption title = false

namespace Header

/-- The comment, without the end of the line. -/
def markLine (h : Header) : Text :=
  h.id.mark ++ h.remark

/-- The command that prints the title, without the end of the line. -/
def titleLine (h : Header) : Text :=
  h.titleId.title ++ (h.title ++ ['"'])

def text (h : Header) : Text :=
  h.markLine ++ '\n' :: (h.titleLine ++ ['\n'])

end Header

/-- A test case whose request has a body. -/
structure BodyCase where
  header : Header
  method : Text
  address : Address
  body : Text
  method_mem : method ∈ BodyRequest.methods
  body_ne_nil : body ≠ []
  quote_notMem_body : '\'' ∉ body

namespace BodyCase

/-- The request, as far as the quote behind the body. -/
def call (b : BodyCase) : BodyRequest.Call where
  method := b.method
  url := b.address.url '\\' (by decide)
  method_mem := b.method_mem
  gap := " \\".toList
  body := b.body
  gap_ne_nil := BodyRequest.lineEnd_ne_nil
  paren_notMem_gap := BodyRequest.paren_notMem_lineEnd
  body_ne_nil := b.body_ne_nil
  quote_notMem_body := b.quote_notMem_body

def text (b : BodyCase) : Text :=
  b.header.text ++ (b.call.text ++ [')', '\n'])

end BodyCase

/-- A test case whose request has no body. -/
structure BodilessCase where
  header : Header
  option : Text
  address : Address
  option_mem : option ∈ ["-X GET ".toList, []]

namespace BodilessCase

/-- The request, as far as the end of the address. -/
def call (b : BodilessCase) : BodilessRequest.Call where
  option := b.option
  url := b.address.url ')' (by decide)
  option_mem := b.option_mem

def text (b : BodilessCase) : Text :=
  b.header.text ++ (b.call.text ++ [')', '\n'])

end BodilessCase

/-- A success message and the line that counts it. -/
structure Success where
  id : TestCase.Id
  /-- Whether the response body is printed. -/
  printed : Bool

namespace Success

/-- What stands at the front of each line. -/
def indent : Text :=
  "    ".toList

/-- The line that prints the response body, behind the command. -/
def filter : Text :=
  " .\n".toList

/-- The command that prints the response body, if there is one. -/
def printing (s : Success) : Text :=
  if s.printed then ResponseLabel.printing indent ++ filter else []

/-- The block with the given end of the message. -/
def textWith (s : Success) (closing : Text) : Text :=
  indent ++ (SuccessMessage.message s.id closing ++
    '\n' :: (indent ++ (ResponseLabel.counting ++ '\n' :: s.printing)))

def text (s : Success) : Text :=
  s.textWith SuccessMessage.plainClosing

end Success

/-- A line that has nothing of what the passes look for. -/
structure Filler where
  line : Text
  newline_notMem : '\n' ∉ line
  mark_notIn : Text.occurs TestCase.markOpening line = false
  title_notIn : Text.occurs TestCase.titleOpening line = false
  command_notIn : Text.occurs "RESPONSE=$(curl".toList line = false
  echo_notIn : Text.occurs Shell.echoOption line = false
  printing_notIn : Text.occurs "echo \"$RESPONSE_BODY\"".toList line = false

def Filler.text (f : Filler) : Text :=
  f.line ++ ['\n']

/-- A block of a script. -/
inductive Block where
  | bodyCase (b : BodyCase)
  | bodilessCase (b : BodilessCase)
  | success (s : Success)
  | filler (f : Filler)

namespace Block

def text : Block → Text
  | bodyCase b => b.text
  | bodilessCase b => b.text
  | success s => s.text
  | filler f => f.text

/-- The script that is made up of the blocks. -/
def source (blocks : List Block) : Text :=
  (blocks.map text).flatten

@[simp] theorem source_nil : source [] = [] := rfl

@[simp] theorem source_cons (b : Block) (blocks : List Block) :
    source (b :: blocks) = b.text ++ source blocks := rfl

end Block

end CurlLog
