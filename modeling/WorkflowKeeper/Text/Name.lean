import WorkflowKeeper.Text.Basic
import WorkflowKeeper.Text.Digit

namespace WorkflowKeeper.Text

def isNumberedWord (s : List Char) : Bool :=
  let digits := s.dropWhile isLower
  s.head?.any isLower && !digits.isEmpty && digits.all isDecimalDigit

/-- Less than three bytes, a numbered word, or at most four lower-case letters. -/
def isCryptic (name : String) : Bool :=
  let s := name.toList
  name.utf8ByteSize < 3 || isNumberedWord s || (1 ≤ s.length && s.length ≤ 4 && s.all isLower)

end WorkflowKeeper.Text
