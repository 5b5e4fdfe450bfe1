/-!
# Cutting a text at a character
-/

namespace EvmFlow.Text

/-- What stands before the first `mark` of a text, and what stands behind it,
    none if the text has no `mark`. -/
def cutAt (mark : Char) (text : String) : String × Option String :=
  let before := text.toList.takeWhile (· != mark)
  match text.toList.dropWhile (· != mark) with
  | [] => (text, none)
  | _ :: behind => (String.ofList before, some (String.ofList behind))

/-- The text starts with a given character. -/
def startsWith (c : Char) (text : String) : Bool := text.toList.head? == some c

end EvmFlow.Text
