/-!
# Blank characters

The characters that count as blank between and inside the pieces of a text:
the ASCII blanks from tab to carriage return and the space, the no-break
space, the space separators of the general punctuation block and of East
Asian text, the line and paragraph separators, and the byte order mark. The
next-line character and the zero-width space are not blank.

* `isBlank` is the class;
* `withoutBlanks` drops every blank of a text;
* `words` cuts a text into its longest pieces without a blank.
-/

namespace EvmFlow.Text

/-- A blank character. -/
def isBlank (c : Char) : Bool :=
  let n := c.toNat
  (0x09 ≤ n && n ≤ 0x0d) || n == 0x20 || n == 0xa0 || n == 0x1680 ||
    (0x2000 ≤ n && n ≤ 0x200a) || n == 0x2028 || n == 0x2029 || n == 0x202f ||
    n == 0x205f || n == 0x3000 || n == 0xfeff

/-- The characters of a text that are not blank, in order. -/
def withoutBlanks (text : List Char) : List Char :=
  text.filter fun c => !isBlank c

/-- A text that holds nothing but blanks. -/
def isAllBlank (text : String) : Bool :=
  text.toList.all isBlank

/-- The words of a text: its longest pieces without a blank, from left to
    right. -/
def words (text : List Char) : List (List Char) :=
  (text.splitOnP isBlank).filter fun w => !w.isEmpty

@[simp] theorem withoutBlanks_nil : withoutBlanks [] = [] := rfl

end EvmFlow.Text
