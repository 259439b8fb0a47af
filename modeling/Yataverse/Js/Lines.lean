import Yataverse.Js.Text

/-!
# Texts of lines

- `splitNewline`: the lines of a text.
- `isBlank`: a line of white space.
-/

namespace Js

/-- `(str/split s #"\n")`. Clojure leaves out empty lines at the end, which no caller keeps. -/
def splitNewline (s : JsString) : List JsString := s.splitOn 10

/-- `str/blank?`. -/
def isBlank (s : JsString) : Bool := s.all isWhite

/-- `(remove str/blank? lines)`. -/
def inkedLines (s : JsString) : List JsString := (splitNewline s).filter fun line => !isBlank line

end Js
